import Mars.Block.Accounting
import Mars.Block.Flat

/-!
# Exclusive opens

The adapter decides from its own counts alone. It gives out an exclusive reference only when all
of them are zero, and then no leaf consumer holds anything, because the adapter is at least as
open as each of them. While the reference is out, no `access` can raise a count.
-/

namespace Mars.Block

open Provider Counts Consumer

variable {dev : Device} {g g' : Graph}

/-! ### What the adapter accepts -/

variable {c c' : Consumer} {d : Counts}

lemma Counts.le_of_not_anyPositive (h : d.anyPositive = false) (k : Kind) : d.count k ≤ 0 := by
  have h0 : (0 : Int64).toInt = 0 := rfl
  simp only [anyPositive, Bool.or_eq_false_iff, decide_eq_false_iff_not, Int64.lt_iff_toInt_lt,
    h0, Int.not_lt] at h
  obtain ⟨⟨hr, hw⟩, he⟩ := h
  cases k
  · exact hr
  · exact hw
  · exact he

lemma Counts.exclusive_pos (c : Counts) : 0 < c.exclusive ↔ 0 < c.count .exclusive :=
  Int64.lt_iff_toInt_lt

/-- An exclusive reference is only given out when nothing is open, and while one is out nothing
is opened. -/
lemma HardwareAdapter.access_ok {a a' : HardwareAdapter} (h : a.access d = (.ok (), a')) :
    (0 < d.exclusive → a.counts.anyPositive = false) ∧
      (0 < a.counts.exclusive → d.anyPositive = false) := by
  simp only [HardwareAdapter.access] at h
  by_cases hneg : (a.counts.add d).anyNegative = true
  · rw [if_pos hneg] at h
    cases h
  by_cases hex : 0 < d.exclusive ∧ a.counts.anyPositive = true
  · rw [if_neg hneg, if_pos hex] at h
    cases h
  by_cases hin : 0 < a.counts.exclusive ∧ d.anyPositive = true
  · rw [if_neg hneg, if_neg hex, if_pos hin] at h
    cases h
  refine ⟨fun hd => ?_, fun ha => ?_⟩
  · exact Bool.eq_false_iff.mpr fun ha => hex ⟨hd, ha⟩
  · exact Bool.eq_false_iff.mpr fun hd => hin ⟨ha, hd⟩

lemma HardwareAdapter.count_of_ok {a a' : HardwareAdapter} (ha : a.counts.Nonneg)
    (h : a.access d = (.ok (), a')) (k : Kind) :
    a'.counts.count k = a.counts.count k + d.count k := by
  obtain ⟨-, ⟨-, hcounts, hnn⟩ | ⟨hr, -⟩⟩ := HardwareAdapter.access_spec h
  · rw [hcounts, count_add ha hnn]
  · exact absurd rfl hr

lemma Provider.access_ok {p : Provider} (h : p.access d g = (.ok (), g')) :
    g.adapter.access d = (.ok (), g'.adapter) := by
  induction p generalizing g' with
  | adapter =>
    obtain ⟨h₁, rfl⟩ := Prod.mk.inj h
    exact Prod.ext h₁ rfl
  | partition id parent s n ih =>
    rw [access_partition] at h
    rcases hca : consumerAccess (g.parentCounts id) d (parent.access d) g with ⟨r, c, g₁⟩
    rw [hca] at h
    obtain ⟨rfl, rfl⟩ := Prod.mk.inj h
    show _ = (_, g₁.adapter)
    rcases consumerAccess_cases hca with ⟨hr, -⟩ | ⟨hin, -⟩ | ⟨e, -, hr, -⟩
    · exact absurd rfl hr
    · exact ih hin
    · cases hr

lemma Consumer.access_ok (h : c.access d g = (.ok (), c', g')) :
    g.adapter.access d = (.ok (), g'.adapter) :=
  Provider.access_ok (Consumer.access_provider h)

/-! ### At most one consumer is open -/

variable {l₁ l₂ : List Consumer}

/-- At most one leaf consumer holds any reference. -/
def Graph.AtMostOneOpen (g : Graph) : Prop :=
  g.consumers.Pairwise fun c d => c.counts = zero ∨ d.counts = zero

/-- Replacing a consumer keeps at most one open if the new one is closed when the old one is. -/
lemma Graph.AtMostOneOpen.replace
    (h : (l₁ ++ c :: l₂).Pairwise fun c d => c.counts = zero ∨ d.counts = zero)
    (hc : c.counts = zero → c'.counts = zero) :
    (l₁ ++ c' :: l₂).Pairwise fun c d => c.counts = zero ∨ d.counts = zero := by
  rw [List.pairwise_append, List.pairwise_cons] at h ⊢
  obtain ⟨h₁, ⟨hc₂, h₂⟩, h₁₂⟩ := h
  refine ⟨h₁, ⟨fun x hx => (hc₂ x hx).imp_left hc, h₂⟩, ?_⟩
  intro x hx y hy
  rcases List.mem_cons.mp hy with rfl | hy
  · exact (h₁₂ x hx c (.head _)).imp_right hc
  · exact h₁₂ x hx y (.tail _ hy)

/-- A consumer is the only open one if all the others are closed. -/
lemma Graph.AtMostOneOpen.single (h : ∀ x ∈ l₁ ++ l₂, x.counts = zero) :
    (l₁ ++ c :: l₂).Pairwise fun c d => c.counts = zero ∨ d.counts = zero := by
  have h₁ : ∀ x ∈ l₁, x.counts = zero := fun x hx => h x (List.mem_append_left _ hx)
  have h₂ : ∀ x ∈ l₂, x.counts = zero := fun x hx => h x (List.mem_append_right _ hx)
  rw [List.pairwise_append, List.pairwise_cons]
  refine ⟨?_, ⟨fun x hx => .inr (h₂ x hx), ?_⟩, fun x hx _ _ => .inl (h₁ x hx)⟩
  · exact List.pairwise_of_forall_mem_list fun x hx _ _ => .inl (h₁ x hx)
  · exact List.pairwise_of_forall_mem_list fun x hx _ _ => .inl (h₂ x hx)

lemma Graph.Inv.count_le_adapter (hg : g.Inv dev) (hc : c ∈ g.consumers) (k : Kind) :
    c.counts.count k ≤ g.adapter.counts.count k :=
  Int.le_trans (hg.count_le_of_consumer hc k) (hg.own_le_adapter (hg.consumer_live c hc) k)

/-- Nobody holds a reference while the adapter has given out none. -/
lemma Graph.Inv.closed_of_adapter (hg : g.Inv dev) (h : g.adapter.counts.anyPositive = false)
    (hc : c ∈ g.consumers) : c.counts = zero := by
  refine eq_zero fun k => ?_
  have hle := hg.count_le_adapter hc k
  have hadapter := le_of_not_anyPositive h k
  have hnonneg := hg.consumer_nonneg c hc k
  omega

/-- While an exclusive reference is out, at most one leaf consumer is open. -/
def Graph.Excluding (g : Graph) : Prop := 0 < g.adapter.counts.exclusive → g.AtMostOneOpen

/-! ### Every operation keeps it -/

/-- A consumer can not be opened further while an exclusive reference is out. -/
lemma Graph.Inv.access_lowers (hg : g.Inv dev) (hex : 0 < g.adapter.counts.exclusive)
    (hc : c ∈ g.consumers) (h : c.access d g = (.ok (), c', g')) (k : Kind) :
    c'.counts.count k ≤ c.counts.count k := by
  obtain ⟨-, ⟨-, rfl, hnn, -⟩ | ⟨hr, -⟩⟩ := access_spec hg (hg.consumer_live c hc) h
  · have hd := (HardwareAdapter.access_ok (access_ok h)).2 hex
    have hle := le_of_not_anyPositive hd k
    rw [count_add (hg.consumer_nonneg c hc) hnn]
    omega
  · exact absurd rfl hr

lemma Graph.Excluding.access (hx : g.Excluding) (hg : g.Inv dev) {r : Except BlockError Unit}
    (hl : g.consumers = l₁ ++ c :: l₂) (h : c.access d g = (r, c', g')) :
    ({ g' with consumers := l₁ ++ c' :: l₂ } : Graph).Excluding := by
  have hc : c ∈ g.consumers := by simp [hl]
  intro hex
  obtain ⟨hshape, ⟨rfl, rfl, hnn, hacc⟩ | ⟨-, rfl, hsame⟩⟩ :=
    access_spec hg (hg.consumer_live c hc) h
  · by_cases hold : 0 < g.adapter.counts.exclusive
    · -- the consumer that was closed stays closed
      have hone := hx hold
      rw [Graph.AtMostOneOpen, hl] at hone
      refine Graph.AtMostOneOpen.replace hone fun hzero => eq_zero fun k => ?_
      have hle := hg.access_lowers hold hc h k
      have hnonneg := hnn k
      have hk : c.counts.count k = 0 := by rw [hzero, count_zero]
      exact Int.le_antisymm (hk ▸ hle) hnonneg
    · -- the exclusive reference is new, so everybody was closed
      have hok := access_ok h
      have hd : 0 < d.exclusive := by
        have hadd := HardwareAdapter.count_of_ok (hg.own_nonneg .adapter (.inl rfl)) hok
          .exclusive
        rw [exclusive_pos] at hold hex ⊢
        dsimp only at hex
        omega
      have hnone := (HardwareAdapter.access_ok hok).1 hd
      refine Graph.AtMostOneOpen.single fun x hx => hg.closed_of_adapter hnone ?_
      rw [hl]
      exact (List.Sublist.append_left (List.sublist_cons_self _ _) l₁).subset hx
  · have hold : 0 < g.adapter.counts.exclusive := hsame.adapter ▸ hex
    have hone := hx hold
    rwa [Graph.AtMostOneOpen, hl] at hone

lemma Graph.Inv.drop_lowers (hg : g.Inv dev) (hlive : g.Live c.provider) (hc : c.counts.Nonneg)
    (k : Kind) : (c.drop g).adapter.counts.count k ≤ g.adapter.counts.count k := by
  rw [Consumer.drop]
  split_ifs with hpos
  · rcases hacc : c.provider.access c.counts.neg g with ⟨r, g₁⟩
    obtain ⟨-, ⟨rfl, -⟩ | ⟨-, hsame⟩⟩ := access_spec hg hlive hacc
    · have hadd := HardwareAdapter.count_of_ok (hg.own_nonneg .adapter (.inl rfl))
        (access_ok hacc) k
      have hnonneg := hc k
      rw [count_neg hc] at hadd
      dsimp only
      omega
    · dsimp only
      rw [hsame.adapter]
  · exact Int.le_refl _

/-- What makes a graph exclude others survives when counts go down and consumers go away. -/
lemma Graph.Excluding.mono (hx : g.Excluding)
    (hle : g'.adapter.counts.count .exclusive ≤ g.adapter.counts.count .exclusive)
    (hsub : g'.consumers.Sublist g.consumers) : g'.Excluding := by
  intro hex
  have hold : 0 < g.adapter.counts.exclusive := by
    rw [exclusive_pos] at hex ⊢
    omega
  exact (hx hold).sublist hsub

lemma Graph.Excluding.drop (hx : g.Excluding) (hg : g.Inv dev) (hl : g.consumers = l₁ ++ c :: l₂) :
    ({ c.drop g with consumers := l₁ ++ l₂ } : Graph).Excluding := by
  have hc : c ∈ g.consumers := by simp [hl]
  refine hx.mono (hg.drop_lowers (hg.consumer_live c hc) (hg.consumer_nonneg c hc) .exclusive) ?_
  rw [hl]
  exact List.Sublist.append_left (List.sublist_cons_self _ _) l₁

lemma Reachable.excluding (h : Reachable dev g) : g.Excluding := by
  induction h with
  | refl =>
    intro _
    exact List.Pairwise.nil
  | @tail g₀ _ hrun hstep hx =>
    have hg := Reachable.inv hrun
    cases hstep with
    | attach p hp =>
      intro hex
      exact List.Pairwise.cons (fun x _ => .inl rfl) (hx hex)
    | access d hl h => exact hx.access hg hl h
    | request req hc h =>
      obtain ⟨log, rfl⟩ := request_log h
      exact hx
    | drop hl => exact hx.drop hg hl
    | partition id s n hl hid h =>
      refine hx.mono (Int.le_refl _) ?_
      rw [hl]
      exact List.Sublist.append_left (List.sublist_cons_self _ _) _
    | partitionError id s n hl _ => exact hx.drop hg hl
    | @dropPartition l₁ l₂ id parent s n hp hc hq =>
      have hmem : Provider.partition id parent s n ∈ g₀.partitions := by simp [hp]
      have hnonneg := hg.own_nonneg _ (.inr hmem)
      have hparent := hg.parent_live _ _ _ _ hmem
      obtain ⟨hshape, -⟩ := hg.drop_spec (c := ⟨parent, g₀.parentCounts id⟩) hparent hnonneg
      refine hx.mono (hg.drop_lowers (c := ⟨parent, g₀.parentCounts id⟩) hparent hnonneg _) ?_
      exact hshape.consumers ▸ List.Sublist.refl _

/-- While an exclusive reference of the adapter is out, at most one leaf consumer holds any
reference, and no `access` raises a count of the consumer it is called on. -/
theorem Reachable.exclusive_open (h : Reachable dev g) (hex : 0 < g.adapter.counts.exclusive) :
    (g.consumers.Pairwise fun c d => c.counts = zero ∨ d.counts = zero) ∧
      ∀ c ∈ g.consumers, ∀ d c' g', c.access d g = (.ok (), c', g') →
        ∀ k, c'.counts.count k ≤ c.counts.count k :=
  ⟨h.excluding hex, fun _ hc _ _ _ hacc k => h.inv.access_lowers hex hc hacc k⟩

/-- Two consumers of the sample device, the first with an exclusive reference. -/
def exclusiveGraph : Graph :=
  { Graph.new sampleDevice with
    adapter := ⟨sampleDevice, ⟨1, 0, 1⟩⟩
    consumers := [⟨.adapter, ⟨1, 0, 1⟩⟩, ⟨.adapter, zero⟩] }

lemma reachable_exclusiveGraph : Reachable sampleDevice exclusiveGraph := by
  have hrun : (Graph.new sampleDevice).runAll
      [.attach .adapter, .attach .adapter, .access 0 ⟨1, 0, 1⟩] = some exclusiveGraph := rfl
  exact reachable_runAll hrun

/-- One consumer is open, and whatever the other asks for, it does not get a read reference. -/
theorem exclusiveGraph_closed :
    (exclusiveGraph.consumers.Pairwise fun c d =>
        c.counts = zero ∨ d.counts = zero) ∧
      ∀ d c' g', Consumer.access ⟨.adapter, zero⟩ d exclusiveGraph = (.ok (), c', g') →
        c'.counts.count .read ≤ 0 := by
  obtain ⟨hone, hclosed⟩ := reachable_exclusiveGraph.exclusive_open (by decide)
  refine ⟨hone, fun d c' g' h => ?_⟩
  exact hclosed ⟨.adapter, zero⟩ (by simp [exclusiveGraph]) d c' g' h .read

end Mars.Block
