import Mars.Block.Basic
import Mathlib.Algebra.Order.BigOperators.Group.List
import Mathlib.Data.List.Nodup
import Mathlib.Tactic.Ring

/-!
# Counts along the block graph

The slack of a provider is what its counts have above the sum of the consumers attached to it. A
successful `access` leaves every slack as it was, and nothing makes one negative, so a provider is
never less open than any of its consumers.
-/

namespace Mars.Block

open Function Mars.Block.Graph Provider Counts Consumer

/-! ### Counts as integers -/

inductive Kind where
  | read
  | write
  | exclusive

namespace Counts

variable {c : Counts}

def count (c : Counts) : Kind → Int
  | .read      => c.read.toInt
  | .write     => c.write.toInt
  | .exclusive => c.exclusive.toInt

def Nonneg (c : Counts) : Prop := ∀ k, 0 ≤ c.count k

lemma nonneg_zero : zero.Nonneg := by
  intro k
  cases k <;> decide

@[simp] lemma count_zero (k : Kind) : zero.count k = 0 := by
  cases k <;> rfl

lemma anyNegative_eq_false_iff (c : Counts) : c.anyNegative = false ↔ c.Nonneg := by
  have h0 : (0 : Int64).toInt = 0 := rfl
  simp only [anyNegative, Bool.or_eq_false_iff, decide_eq_false_iff_not, Int64.lt_iff_toInt_lt, h0]
  constructor
  · rintro ⟨⟨hr, hw⟩, he⟩ k
    cases k
    · exact Int.not_lt.mp hr
    · exact Int.not_lt.mp hw
    · exact Int.not_lt.mp he
  · intro h
    exact ⟨⟨Int.not_lt.mpr (h .read), Int.not_lt.mpr (h .write)⟩, Int.not_lt.mpr (h .exclusive)⟩

lemma toInt_add_of_nonneg {a b : Int64} (ha : 0 ≤ a.toInt) (h : 0 ≤ (a + b).toInt) :
    (a + b).toInt = a.toInt + b.toInt := by
  have h₁ := a.toInt_lt
  have h₂ := b.toInt_lt
  have h₃ := b.le_toInt
  rw [Int64.toInt_add, Int.bmod_def] at h ⊢
  omega

/-- An update that passes the underflow test did not wrap around either. -/
lemma count_add {d : Counts} (hc : c.Nonneg) (h : (c.add d).Nonneg) (k : Kind) :
    (c.add d).count k = c.count k + d.count k := by
  cases k
  · exact toInt_add_of_nonneg (hc .read) (h .read)
  · exact toInt_add_of_nonneg (hc .write) (h .write)
  · exact toInt_add_of_nonneg (hc .exclusive) (h .exclusive)

lemma toInt_neg_of_nonneg {a : Int64} (ha : 0 ≤ a.toInt) : (-a).toInt = -a.toInt := by
  have h := a.toInt_lt
  rw [Int64.toInt_neg, Int.bmod_def]
  omega

lemma count_neg (hc : c.Nonneg) (k : Kind) : c.neg.count k = -c.count k := by
  cases k
  · exact toInt_neg_of_nonneg (hc .read)
  · exact toInt_neg_of_nonneg (hc .write)
  · exact toInt_neg_of_nonneg (hc .exclusive)

/-- A consumer that is not open in any way has nothing to give back. -/
lemma count_eq_zero_of_not_anyPositive (hc : c.Nonneg) (h : c.anyPositive = false) (k : Kind) :
    c.count k = 0 := by
  have h0 : (0 : Int64).toInt = 0 := rfl
  simp only [anyPositive, Bool.or_eq_false_iff, decide_eq_false_iff_not, Int64.lt_iff_toInt_lt,
    h0, Int.not_lt] at h
  obtain ⟨⟨hr, hw⟩, he⟩ := h
  cases k
  · exact Int.le_antisymm hr (hc .read)
  · exact Int.le_antisymm hw (hc .write)
  · exact Int.le_antisymm he (hc .exclusive)

end Counts

/-! ### Attached consumers -/

def Provider.id? : Provider → Option Nat
  | .adapter            => none
  | .partition id _ _ _ => some id

/-- What a consumer contributes to the counts of `p`. -/
def Consumer.share (c : Consumer) (p : Provider) (k : Kind) : Int :=
  if c.provider = p then c.counts.count k else 0

/-- What the consumer owned by the partition `q` contributes to the counts of `p`. -/
def Provider.share (counts : Nat → Counts) (p : Provider) (k : Kind) : Provider → Int
  | .adapter                 => 0
  | .partition id parent _ _ => Consumer.share ⟨parent, counts id⟩ p k

/-- Sum of the counts of the consumers attached to `p`. -/
def Graph.openCount (g : Graph) (p : Provider) (k : Kind) : Int :=
  (g.consumers.map fun c => c.share p k).sum +
    (g.partitions.map (share g.parentCounts p k)).sum

def Graph.ownCounts (g : Graph) : Provider → Counts
  | .adapter            => g.adapter.counts
  | .partition id _ _ _ => g.parentCounts id

def Graph.slack (g : Graph) (p : Provider) (k : Kind) : Int :=
  (g.ownCounts p).count k - g.openCount p k

/-- A provider that exists: the adapter or a partition that is alive. -/
def Graph.Live (g : Graph) (p : Provider) : Prop := p = .adapter ∨ p ∈ g.partitions

/-- The graph with a partition that has the number `id` and the counts `c`. -/
abbrev Graph.withPartition (g : Graph) (id : Nat) (c : Counts) (cs : List Consumer) (p : Provider) :
    Graph :=
  { g.setParentCounts id c with
    consumers := cs
    partitions := p :: g.partitions }

structure Graph.Inv (dev : Device) (g : Graph) : Prop where
  blockSize_eq : g.device.blockSize = dev.blockSize
  blockCount_eq : g.device.blockCount = dev.blockCount
  nodup_ids : (g.partitions.map id?).Nodup
  consumer_live : ∀ c ∈ g.consumers, g.Live c.provider
  parent_live : ∀ id parent s n, partition id parent s n ∈ g.partitions → g.Live parent
  /-- Partitions lie inside their parents. -/
  window : ∀ id parent s n, partition id parent s n ∈ g.partitions →
    s.toNat + n.toNat ≤ (g.blockCount parent).toNat
  adapter_mem : Provider.adapter ∉ g.partitions
  consumer_nonneg : ∀ c ∈ g.consumers, c.counts.Nonneg
  own_nonneg : ∀ p, g.Live p → (g.ownCounts p).Nonneg
  slack_nonneg : ∀ p, g.Live p → ∀ k, 0 ≤ g.slack p k

variable {dev : Device} {g g' : Graph}

lemma Graph.inv_new (dev : Device) : (new dev).Inv dev where
  blockSize_eq := rfl
  blockCount_eq := rfl
  nodup_ids := List.nodup_nil
  consumer_live := by simp [new]
  parent_live := by simp [new]
  window := by simp [new]
  adapter_mem := by simp [new]
  consumer_nonneg := by simp [new]
  own_nonneg := by
    rintro p (rfl | hp)
    · exact nonneg_zero
    · simp [new] at hp
  slack_nonneg := by
    rintro p (rfl | hp) k
    · simp [slack, openCount, ownCounts, new]
    · simp [new] at hp

/-! ### The effect of `access` -/

variable {id : Nat} {p q parent : Provider} {r : Except BlockError Unit} {s n : UInt64}
  {d : Counts}

/-- What every `access` leaves alone. -/
structure Graph.SameShape (g g' : Graph) : Prop where
  consumers : g'.consumers = g.consumers
  partitions : g'.partitions = g.partitions
  blockSize : g'.device.blockSize = g.device.blockSize
  blockCount : g'.device.blockCount = g.device.blockCount

lemma Graph.Live.mem (h : g.Live (.partition id parent s n)) :
    .partition id parent s n ∈ g.partitions := h.resolve_left nofun

lemma Graph.Live.of_withPartition {c : Counts} {cs : List Consumer}
    (h : (g.withPartition id c cs p).Live q) : g.Live q ∨ q = p := by
  rcases h with h | h
  · exact .inl (.inl h)
  · exact (List.mem_cons.1 h).symm.imp_left .inr

lemma Graph.SameShape.live (h : g.SameShape g') : g'.Live p ↔ g.Live p := by
  rw [Graph.Live, Graph.Live, h.partitions]

/-- The adapter accepts exactly the updates that keep its counts non-negative, or changes
nothing but the log of the device. -/
lemma HardwareAdapter.access_spec {a a' : HardwareAdapter} (h : a.access d = (r, a')) :
    (a'.device.blockSize = a.device.blockSize ∧ a'.device.blockCount = a.device.blockCount) ∧
      ((r = .ok () ∧ a'.counts = a.counts.add d ∧ (a.counts.add d).Nonneg) ∨
        (r ≠ .ok () ∧ a'.counts = a.counts)) := by
  unfold HardwareAdapter.access at h
  simp only at h
  split_ifs at h with hneg hex hin hflush
  · cases h
    exact ⟨⟨rfl, rfl⟩, .inr ⟨by simp, rfl⟩⟩
  · cases h
    exact ⟨⟨rfl, rfl⟩, .inr ⟨by simp, rfl⟩⟩
  · cases h
    exact ⟨⟨rfl, rfl⟩, .inr ⟨by simp, rfl⟩⟩
  · have hnn := (anyNegative_eq_false_iff _).mp (Bool.not_eq_true _ ▸ hneg)
    cases hans : a.device.answer a.device.log .flush with
    | ok u =>
      simp only [Device.call, hans] at h
      cases h
      exact ⟨⟨rfl, rfl⟩, .inl ⟨rfl, rfl, hnn⟩⟩
    | error e =>
      simp only [Device.call, hans] at h
      cases h
      exact ⟨⟨rfl, rfl⟩, .inr ⟨by simp, rfl⟩⟩
  · have hnn := (anyNegative_eq_false_iff _).mp (Bool.not_eq_true _ ▸ hneg)
    cases h
    exact ⟨⟨rfl, rfl⟩, .inl ⟨rfl, rfl, hnn⟩⟩

/-- The three ways `Consumer::access` can end. -/
lemma consumerAccess_cases {c c' : Counts} {inner : Graph → Except BlockError Unit × Graph}
    (h : consumerAccess c d inner g = (r, c', g')) :
    (r ≠ .ok () ∧ c' = c ∧ g' = g) ∨
      (inner g = (.ok (), g') ∧ r = .ok () ∧ c' = c.add d ∧ (c.add d).Nonneg) ∨
      (∃ e, inner g = (.error e, g') ∧ r = .error e ∧ c' = c) := by
  simp only [consumerAccess] at h
  by_cases hneg : (c.add d).anyNegative = true
  · rw [if_pos hneg] at h
    cases h
    exact .inl ⟨by simp, rfl, rfl⟩
  · rw [if_neg hneg] at h
    have hnn := (anyNegative_eq_false_iff _).mp (Bool.not_eq_true _ ▸ hneg)
    rcases hin : inner g with ⟨_ | _, g₁⟩ <;> simp only [hin] at h <;> cases h
    · exact .inr (.inr ⟨_, rfl, rfl, rfl⟩)
    · exact .inr (.inl ⟨rfl, rfl, rfl, hnn⟩)

/-- The partitions from `p` down to the adapter. -/
def Provider.chain : Provider → List Provider
  | .adapter                 => []
  | .partition id parent s n => .partition id parent s n :: parent.chain

lemma Provider.sizeOf_le_of_mem_chain (h : q ∈ p.chain) : sizeOf q ≤ sizeOf p := by
  induction p with
  | adapter => simp [chain] at h
  | partition id parent s n ih =>
    rcases List.mem_cons.mp h with rfl | h
    · exact le_rfl
    · have := ih h
      simp only [partition.sizeOf_spec]
      omega

lemma Graph.Inv.chain_mem (hg : g.Inv dev) (hp : g.Live p) (h : q ∈ p.chain) :
    q ∈ g.partitions := by
  induction p with
  | adapter => simp [chain] at h
  | partition id parent s n ih =>
    rcases List.mem_cons.mp h with rfl | h
    · exact hp.mem
    · exact ih (hg.parent_live _ _ _ _ hp.mem) h

lemma Graph.Inv.eq_of_id_eq (hg : g.Inv dev) (hp : p ∈ g.partitions) (hq : q ∈ g.partitions)
    (h : p.id? = q.id?) : p = q :=
  List.inj_on_of_nodup_map hg.nodup_ids hp hq h

/-- No partition is its own ancestor. -/
lemma Graph.Inv.id_notMem_chain (hg : g.Inv dev) (hp : .partition id parent s n ∈ g.partitions) :
    ∀ q ∈ parent.chain, q.id? ≠ some id := by
  intro q hq hid
  have hqmem := hg.chain_mem (hg.parent_live _ _ _ _ hp) hq
  have heq := hg.eq_of_id_eq hqmem hp hid
  have hle := sizeOf_le_of_mem_chain hq
  rw [heq] at hle
  simp only [partition.sizeOf_spec] at hle
  omega

/-- The other partitions do not see a change to the counts of one. -/
lemma Provider.share_update {counts : Nat → Counts} (hq : q.id? ≠ some id) (c : Counts)
    (p : Provider) (k : Kind) :
    share (update counts id c) p k q = share counts p k q := by
  cases q with
  | adapter => rfl
  | partition id' parent s n =>
    have hne : id' ≠ id := by
      rintro rfl
      exact hq rfl
    simp only [share, update_of_ne hne]

lemma Graph.openCount_setParentCounts (hn : (g.partitions.map Provider.id?).Nodup)
    (hp : .partition id parent s n ∈ g.partitions) (c : Counts) (q : Provider) (k : Kind) :
    (g.setParentCounts id c).openCount q k =
      g.openCount q k + if q = parent then c.count k - (g.parentCounts id).count k else 0 := by
  obtain ⟨l₁, l₂, hl⟩ := List.append_of_mem hp
  rw [hl, List.map_append, List.map_cons, List.nodup_append, List.nodup_cons] at hn
  obtain ⟨-, ⟨hn₂, -⟩, hn₁⟩ := hn
  have h₁ : l₁.map (Provider.share (update g.parentCounts id c) q k) =
      l₁.map (Provider.share g.parentCounts q k) := by
    refine List.map_congr_left fun x hx => share_update ?_ c q k
    exact hn₁ _ (List.mem_map_of_mem hx) _ (.head _)
  have h₂ : l₂.map (Provider.share (update g.parentCounts id c) q k) =
      l₂.map (Provider.share g.parentCounts q k) := by
    refine List.map_congr_left fun x hx => share_update ?_ c q k
    intro hid
    refine hn₂ ?_
    have hmem := List.mem_map_of_mem (f := Provider.id?) hx
    rwa [hid] at hmem
  simp only [openCount, setParentCounts, hl, List.map_append, List.map_cons,
    List.sum_append, List.sum_cons, h₁, h₂, Provider.share, Consumer.share, update_self,
    eq_comm]
  split_ifs <;> omega

/-- Changing the counts of a live partition moves its own slack one way and that of its parent
the other way. -/
lemma Graph.slack_setParentCounts (hn : (g.partitions.map id?).Nodup)
    (hp : .partition id parent s n ∈ g.partitions) (c : Counts) (hq : g.Live q) (k : Kind) :
    (g.setParentCounts id c).slack q k =
      g.slack q k + (if q = .partition id parent s n then c.count k - (g.parentCounts id).count k
        else 0) - (if q = parent then c.count k - (g.parentCounts id).count k else 0) := by
  have hown : ((g.setParentCounts id c).ownCounts q).count k = (g.ownCounts q).count k +
      if q = .partition id parent s n then c.count k - (g.parentCounts id).count k else 0 := by
    cases q with
    | adapter => simp [ownCounts, setParentCounts]
    | partition id' parent' s' n' =>
      by_cases hid : id' = id
      · subst hid
        have heq := List.inj_on_of_nodup_map hn hq.mem hp rfl
        rw [if_pos heq]
        simp only [ownCounts, setParentCounts, update_self]
        omega
      · rw [if_neg (by simp [hid])]
        simp [ownCounts, setParentCounts, update_of_ne hid]
  rw [slack, slack, hown, openCount_setParentCounts hn hp]
  omega

lemma Graph.slack_setAdapter (g : Graph) (a : HardwareAdapter) (q : Provider) (k : Kind) :
    ({ g with adapter := a } : Graph).slack q k =
      g.slack q k + if q = .adapter then a.counts.count k - g.adapter.counts.count k else 0 := by
  have hopen : ({ g with adapter := a } : Graph).openCount q k = g.openCount q k := rfl
  rw [slack, slack, hopen]
  cases q with
  | adapter =>
    simp only [ownCounts, if_true]
    omega
  | partition id parent s n => simp only [ownCounts, reduceCtorEq, if_false, Int.add_zero]

/-- What a successful `access` of `p` by `d` does to the counts: the counts of `p` are `d`
ahead of the consumers attached to it, and every other provider is as it was. -/
structure Graph.Accessed (g g' : Graph) (p : Provider) (d : Counts) : Prop where
  own_nonneg : ∀ q, g.Live q → (g'.ownCounts q).Nonneg
  slack_eq : ∀ q, g.Live q → ∀ k, g'.slack q k = g.slack q k + if q = p then d.count k else 0
  frame : ∀ id, (∀ q ∈ p.chain, q.id? ≠ some id) → g'.parentCounts id = g.parentCounts id

/-- A failed `access` leaves all counts alone. -/
structure Graph.SameCounts (g g' : Graph) : Prop where
  adapter : g'.adapter.counts = g.adapter.counts
  parents : g'.parentCounts = g.parentCounts

lemma Graph.SameCounts.ownCounts (h : g.SameCounts g') (q : Provider) :
    g'.ownCounts q = g.ownCounts q := by
  cases q with
  | adapter => exact h.adapter
  | partition id parent s n => exact congrFun h.parents id

lemma Graph.SameCounts.slack (hs : g.SameShape g') (h : g.SameCounts g') (q : Provider) (k : Kind) :
    g'.slack q k = g.slack q k := by
  rw [Graph.slack, Graph.slack, h.ownCounts, Graph.openCount, Graph.openCount, hs.consumers,
    hs.partitions, h.parents]

lemma Graph.setParentCounts_self (g : Graph) (id : Nat) :
    g.setParentCounts id (g.parentCounts id) = g := by
  simp [setParentCounts]

lemma Provider.access_adapter (d : Counts) (g : Graph) :
    access .adapter d g =
      ((g.adapter.access d).1, { g with adapter := (g.adapter.access d).2 }) := rfl

lemma Provider.access_partition (id : Nat) (parent : Provider) (s n : UInt64) (d : Counts)
    (g : Graph) :
    access (.partition id parent s n) d g =
      ((consumerAccess (g.parentCounts id) d (parent.access d) g).1,
        (consumerAccess (g.parentCounts id) d (parent.access d) g).2.2.setParentCounts id
          (consumerAccess (g.parentCounts id) d (parent.access d) g).2.1) := by
  delta access
  rfl

/-- The `access` of a live provider, by induction on the chain down to the adapter. -/
lemma Provider.access_spec (hg : g.Inv dev) (hp : g.Live p) (h : p.access d g = (r, g')) :
    g.SameShape g' ∧ ((r = .ok () ∧ g.Accessed g' p d) ∨ (r ≠ .ok () ∧ g.SameCounts g')) := by
  induction p generalizing g' r with
  | adapter =>
    cases ha : g.adapter.access d with
    | mk r₀ a =>
      rw [access_adapter, ha] at h
      cases h
      obtain ⟨⟨hbs, hbc⟩, hres⟩ := HardwareAdapter.access_spec ha
      refine ⟨⟨rfl, rfl, hbs, hbc⟩, ?_⟩
      rcases hres with ⟨rfl, hcounts, hnn⟩ | ⟨hr, hcounts⟩
      · refine .inl ⟨rfl, ⟨?_, ?_, fun _ _ => rfl⟩⟩
        · intro q hq
          cases q with
          | adapter =>
            show a.counts.Nonneg
            rw [hcounts]
            exact hnn
          | partition id parent s n =>
            have hnn' := hg.own_nonneg _ hq
            exact hnn'
        · intro q _ k
          have hadd := count_add (hg.own_nonneg .adapter (.inl rfl)) hnn k
          simp only [ownCounts] at hadd
          rw [slack_setAdapter, hcounts, hadd]
          split_ifs <;> omega
      · exact .inr ⟨hr, hcounts, rfl⟩
  | partition id parent s n ih =>
    have hmem := hp.mem
    have hparent := hg.parent_live _ _ _ _ hmem
    rcases hca : consumerAccess (g.parentCounts id) d (parent.access d) g with ⟨r₀, c, g₁⟩
    rw [access_partition, hca] at h
    cases h
    rcases consumerAccess_cases hca with ⟨hr, rfl, rfl⟩ | ⟨hin, rfl, rfl, hnn⟩ | ⟨e, hin, rfl, rfl⟩
    · rw [setParentCounts_self]
      exact ⟨⟨rfl, rfl, rfl, rfl⟩, .inr ⟨hr, rfl, rfl⟩⟩
    · -- the parent consumer follows its provider
      obtain ⟨hshape, ⟨-, hacc⟩ | ⟨hr, -⟩⟩ := ih hparent hin
      swap
      · exact absurd rfl hr
      have hid := hacc.frame id (hg.id_notMem_chain hmem)
      have hadd := count_add (hg.own_nonneg _ hp) hnn
      have hn₁ : (g₁.partitions.map id?).Nodup := hshape.partitions ▸ hg.nodup_ids
      have hmem₁ : partition id parent s n ∈ g₁.partitions := hshape.partitions ▸ hmem
      refine ⟨⟨hshape.consumers, hshape.partitions, hshape.blockSize, hshape.blockCount⟩,
        .inl ⟨rfl, ⟨?_, ?_, ?_⟩⟩⟩
      · intro q hq
        have hq₁ := hacc.own_nonneg q hq
        cases q with
        | adapter => exact hq₁
        | partition id' parent' s' n' =>
          by_cases hne : id' = id
          · simpa [ownCounts, setParentCounts, hne] using hnn
          · simpa [ownCounts, setParentCounts, update_of_ne hne] using hq₁
      · intro q hq k
        have hk := hadd k
        simp only [ownCounts] at hk
        rw [slack_setParentCounts hn₁ hmem₁ _ (hshape.live.mpr hq), hid, hacc.slack_eq q hq k, hk]
        split_ifs <;> omega
      · intro id' hid'
        have hne : id' ≠ id := by
          rintro rfl
          exact hid' _ (.head _) rfl
        simp only [setParentCounts, update_of_ne hne]
        exact hacc.frame id' fun q hq => hid' q (.tail _ hq)
    · -- nothing was changed below, so the counts stored are those found
      obtain ⟨hshape, ⟨hr, -⟩ | ⟨hr, hsame⟩⟩ := ih hparent hin
      · cases hr
      rw [← congrFun hsame.parents id, setParentCounts_self]
      exact ⟨hshape, .inr ⟨hr, hsame⟩⟩

/-! ### Every operation keeps the invariant -/

variable {c c' : Consumer} {l₁ l₂ : List Consumer} {req : IoRequest}

/-- The parts of the invariant about partitions survive any change of counts and consumers. -/
lemma Graph.Inv.of_samePartitions (hg : g.Inv dev) (hparts : g'.partitions = g.partitions)
    (hbs : g'.device.blockSize = g.device.blockSize)
    (hbc : g'.device.blockCount = g.device.blockCount)
    (hcons : ∀ c ∈ g'.consumers, g.Live c.provider ∧ c.counts.Nonneg)
    (hown : ∀ p, g.Live p → (g'.ownCounts p).Nonneg)
    (hslack : ∀ p, g.Live p → ∀ k, 0 ≤ g'.slack p k) : g'.Inv dev := by
  have hlive (p : Provider) : g'.Live p ↔ g.Live p := by rw [Graph.Live, Graph.Live, hparts]
  have hcount (p : Provider) : g'.blockCount p = g.blockCount p := by
    cases p with
    | adapter => exact hbc
    | partition id parent s n => rfl
  refine ⟨hbs.trans hg.blockSize_eq, hbc.trans hg.blockCount_eq, hparts ▸ hg.nodup_ids,
    ?_, ?_, ?_, hparts ▸ hg.adapter_mem, ?_, ?_, ?_⟩
  · intro c hc
    exact (hlive _).mpr (hcons c hc).1
  · intro id parent s n h
    exact (hlive _).mpr (hg.parent_live id parent s n (hparts ▸ h))
  · intro id parent s n h
    rw [hcount]
    exact hg.window id parent s n (hparts ▸ h)
  · intro c hc
    exact (hcons c hc).2
  · intro p hp
    exact hown p ((hlive p).mp hp)
  · intro p hp
    exact hslack p ((hlive p).mp hp)

lemma Graph.Inv.own_nonneg_of_same (hg : g.Inv dev) (h : g.SameCounts g') (q : Provider)
    (hq : g.Live q) : (g'.ownCounts q).Nonneg := by
  rw [h.ownCounts]
  exact hg.own_nonneg q hq

/-- Replacing the consumers of a graph moves the slack by the difference of their shares. -/
lemma Graph.slack_setConsumers (g : Graph) (cs : List Consumer) (q : Provider) (k : Kind) :
    ({ g with consumers := cs } : Graph).slack q k =
      g.slack q k + (g.consumers.map fun c => c.share q k).sum -
        (cs.map fun c => c.share q k).sum := by
  have hsame : g.SameCounts { g with consumers := cs } := ⟨rfl, rfl⟩
  simp only [slack, openCount, hsame.ownCounts]
  omega

lemma Consumer.share_of_counts (c : Consumer) (n : Counts) {d : Int} {k : Kind}
    (h : n.count k = c.counts.count k + d) (q : Provider) :
    share ⟨c.provider, n⟩ q k = c.share q k + if q = c.provider then d else 0 := by
  simp only [share, h, eq_comm]
  split_ifs <;> omega

lemma Consumer.share_nonneg (hc : c.counts.Nonneg) (q : Provider) (k : Kind) : 0 ≤ c.share q k := by
  rw [share]
  split_ifs
  · exact hc k
  · exact Int.le_refl 0

lemma Graph.slack_attach (g : Graph) (p q : Provider) (k : Kind) :
    ({ g with consumers := attach p :: g.consumers } : Graph).slack q k =
      g.slack q k := by
  have hzero : (Consumer.attach p).share q k = 0 := by
    simp [Consumer.share, Consumer.attach]
  rw [slack_setConsumers, List.map_cons, List.sum_cons, hzero]
  omega

lemma Graph.Inv.attach (hg : g.Inv dev) (hp : g.Live p) :
    ({ g with consumers := attach p :: g.consumers } : Graph).Inv dev := by
  refine hg.of_samePartitions rfl rfl rfl ?_ (hg.own_nonneg_of_same ⟨rfl, rfl⟩) ?_
  · exact List.forall_mem_cons.2
      ⟨⟨hp, nonneg_zero⟩, fun c hc => ⟨hg.consumer_live c hc, hg.consumer_nonneg c hc⟩⟩
  · intro q hq k
    rw [slack_attach]
    exact hg.slack_nonneg q hq k

lemma sum_share_append (l₁ l₂ : List Consumer) (c : Consumer) (q : Provider) (k : Kind) :
    ((l₁ ++ c :: l₂).map fun c => c.share q k).sum =
      ((l₁ ++ l₂).map fun c => c.share q k).sum + c.share q k := by
  simp only [List.map_append, List.map_cons, List.sum_append, List.sum_cons]
  omega

/-- `Consumer::access` of a live provider: the consumer and its provider move together, or all
counts stay as they are. -/
lemma Consumer.access_spec (hg : g.Inv dev) (hlive : g.Live c.provider)
    (h : c.access d g = (r, c', g')) :
    g.SameShape g' ∧
      ((r = .ok () ∧ c' = ⟨c.provider, c.counts.add d⟩ ∧ (c.counts.add d).Nonneg ∧
          g.Accessed g' c.provider d) ∨ (r ≠ .ok () ∧ c' = c ∧ g.SameCounts g')) := by
  rcases hca : consumerAccess c.counts d (c.provider.access d) g with ⟨r₀, n, g₁⟩
  simp only [access, hca] at h
  cases h
  rcases consumerAccess_cases hca with ⟨hr, rfl, rfl⟩ | ⟨hin, rfl, rfl, hnn⟩ | ⟨e, hin, rfl, rfl⟩
  · exact ⟨⟨rfl, rfl, rfl, rfl⟩, .inr ⟨hr, rfl, rfl, rfl⟩⟩
  · obtain ⟨hshape, ⟨-, hacc⟩ | ⟨hr, -⟩⟩ := access_spec hg hlive hin
    · exact ⟨hshape, .inl ⟨rfl, rfl, hnn, hacc⟩⟩
    · exact absurd rfl hr
  · obtain ⟨hshape, ⟨hr, -⟩ | ⟨hr, hsame⟩⟩ := access_spec hg hlive hin
    · cases hr
    · exact ⟨hshape, .inr ⟨hr, rfl, hsame⟩⟩

lemma Consumer.access_provider (h : c.access d g = (.ok (), c', g')) :
    c.provider.access d g = (.ok (), g') := by
  rcases hca : consumerAccess c.counts d (c.provider.access d) g with ⟨r, n, g₁⟩
  simp only [access, hca] at h
  cases h
  rcases consumerAccess_cases hca with ⟨hr, -⟩ | ⟨hin, -⟩ | ⟨e, -, hr, -⟩
  · exact absurd rfl hr
  · exact hin
  · cases hr

/-- An `access` moves the counts of a consumer and of its provider by the same amount, so no
slack changes. -/
lemma Graph.Inv.slack_access (hg : g.Inv dev) (hc : g.consumers = l₁ ++ c :: l₂)
    (h : c.access d g = (r, c', g')) (hq : g.Live q) (k : Kind) :
    ({ g' with consumers := l₁ ++ c' :: l₂ } : Graph).slack q k = g.slack q k := by
  have hmem : c ∈ g.consumers := by simp [hc]
  obtain ⟨hshape, ⟨-, rfl, hnn, hacc⟩ | ⟨-, rfl, hsame⟩⟩ :=
    access_spec hg (hg.consumer_live c hmem) h
  · have hadd := count_add (hg.consumer_nonneg c hmem) hnn k
    have hshare := c.share_of_counts _ hadd q
    rw [slack_setConsumers, hshape.consumers, hc, sum_share_append, sum_share_append,
      hshare, hacc.slack_eq q hq k]
    split_ifs <;> omega
  · rw [slack_setConsumers, hshape.consumers, hc, hsame.slack hshape]
    omega

lemma Graph.Inv.access (hg : g.Inv dev) (hc : g.consumers = l₁ ++ c :: l₂)
    (h : c.access d g = (r, c', g')) :
    ({ g' with consumers := l₁ ++ c' :: l₂ } : Graph).Inv dev := by
  have hmem : c ∈ g.consumers := by simp [hc]
  have hlive := hg.consumer_live c hmem
  obtain ⟨hshape, hcases⟩ := access_spec hg hlive h
  refine hg.of_samePartitions hshape.partitions hshape.blockSize hshape.blockCount ?_ ?_ ?_
  · intro x hx
    have hold : x ∈ g.consumers → g.Live x.provider ∧ x.counts.Nonneg :=
      fun hx => ⟨hg.consumer_live x hx, hg.consumer_nonneg x hx⟩
    rw [List.mem_append, List.mem_cons] at hx
    rcases hx with hx | rfl | hx
    · exact hold (by simp [hc, hx])
    · rcases hcases with ⟨-, rfl, hnn, -⟩ | ⟨-, rfl, -⟩
      · exact ⟨hlive, hnn⟩
      · exact hold hmem
    · exact hold (by simp [hc, hx])
  · intro q hq
    have hown : (g'.ownCounts q).Nonneg := by
      rcases hcases with ⟨-, -, -, hacc⟩ | ⟨-, -, hsame⟩
      · exact hacc.own_nonneg q hq
      · exact hg.own_nonneg_of_same hsame q hq
    cases q <;> exact hown
  · intro q hq k
    rw [hg.slack_access hc h hq k]
    exact hg.slack_nonneg q hq k

/-- The closing call made by the drop of a consumer succeeds, or there is nothing to close. -/
def Consumer.Closes (c : Consumer) (g : Graph) : Prop :=
  c.counts.anyPositive = true → (c.provider.access c.counts.neg g).1 = .ok ()

/-- Dropping a consumer gives its share back, or leaves it with the provider when the closing
call fails. -/
lemma Graph.Inv.drop_spec (hg : g.Inv dev) (hlive : g.Live c.provider) (hc : c.counts.Nonneg) :
    g.SameShape (c.drop g) ∧ (∀ q, g.Live q → ((c.drop g).ownCounts q).Nonneg) ∧
      (∀ id, (∀ q ∈ c.provider.chain, q.id? ≠ some id) →
        (c.drop g).parentCounts id = g.parentCounts id) ∧
      ∃ lost : Bool, (c.Closes g ↔ lost = false) ∧ ∀ q, g.Live q → ∀ k,
        (c.drop g).slack q k + c.share q k = g.slack q k + if lost then c.share q k else 0 := by
  by_cases hpos : c.counts.anyPositive = true
  · rcases hacc : c.provider.access c.counts.neg g with ⟨r, g₁⟩
    have hdrop : c.drop g = g₁ := by
      rw [Consumer.drop, if_pos hpos, hacc]
    have hcloses : c.Closes g ↔ r = .ok () := by
      rw [Consumer.Closes, hacc]
      exact ⟨fun h => h hpos, fun h _ => h⟩
    rw [hdrop, hcloses]
    obtain ⟨hshape, ⟨hr, hok⟩ | ⟨hr, hsame⟩⟩ := access_spec hg hlive hacc
    · refine ⟨hshape, hok.own_nonneg, hok.frame, false, by simp [hr], ?_⟩
      intro q hq k
      rw [hok.slack_eq q hq k, count_neg hc, Consumer.share]
      simp only [eq_comm, Bool.false_eq_true, if_false]
      split_ifs <;> omega
    · refine ⟨hshape, hg.own_nonneg_of_same hsame, fun id _ => congrFun hsame.parents id, true,
        by simp [hr], ?_⟩
      intro q _ k
      rw [hsame.slack hshape q k, if_pos rfl]
  · have hdrop : c.drop g = g := by
      rw [Consumer.drop, if_neg hpos]
    rw [hdrop]
    refine ⟨⟨rfl, rfl, rfl, rfl⟩, hg.own_nonneg, fun _ _ => rfl, false,
      iff_of_true (fun h => absurd h hpos) rfl, ?_⟩
    intro q _ k
    have hzero := count_eq_zero_of_not_anyPositive hc (Bool.not_eq_true _ ▸ hpos) k
    simp [Consumer.share, hzero]

/-- Dropping a consumer leaves every slack as it was, unless the closing call fails: then the
share of the consumer is added to the slack of its provider. -/
lemma Graph.Inv.slack_drop (hg : g.Inv dev) (hc : g.consumers = l₁ ++ c :: l₂) :
    ∃ lost : Bool, (c.Closes g ↔ lost = false) ∧ ∀ q, g.Live q → ∀ k,
      ({ c.drop g with consumers := l₁ ++ l₂ } : Graph).slack q k =
        g.slack q k + if lost then c.share q k else 0 := by
  have hmem : c ∈ g.consumers := by simp [hc]
  obtain ⟨hshape, -, -, lost, hcl, hslack⟩ :=
    hg.drop_spec (hg.consumer_live c hmem) (hg.consumer_nonneg c hmem)
  refine ⟨lost, hcl, fun q hq k => ?_⟩
  have := hslack q hq k
  rw [slack_setConsumers, hshape.consumers, hc, sum_share_append]
  omega

lemma mem_of_mem_erased {α : Type} {l₁ l₂ : List α} {a x : α} (h : x ∈ l₁ ++ l₂) :
    x ∈ l₁ ++ a :: l₂ :=
  ((List.sublist_cons_self a l₂).append_left l₁).subset h

lemma Graph.Inv.drop (hg : g.Inv dev) (hc : g.consumers = l₁ ++ c :: l₂) :
    ({ c.drop g with consumers := l₁ ++ l₂ } : Graph).Inv dev := by
  have hmem : c ∈ g.consumers := by simp [hc]
  have hnonneg := hg.consumer_nonneg c hmem
  obtain ⟨hshape, hown, -⟩ := hg.drop_spec (hg.consumer_live c hmem) hnonneg
  obtain ⟨lost, -, hslack⟩ := hg.slack_drop hc
  refine hg.of_samePartitions hshape.partitions hshape.blockSize hshape.blockCount ?_ ?_ ?_
  · intro x hx
    have hx' : x ∈ g.consumers := hc ▸ mem_of_mem_erased hx
    exact ⟨hg.consumer_live x hx', hg.consumer_nonneg x hx'⟩
  · intro q hq
    have := hown q hq
    cases q <;> exact this
  · intro q hq k
    have hle := hg.slack_nonneg q hq k
    have hshare := share_nonneg hnonneg q k
    rw [hslack q hq k]
    split_ifs <;> omega

/-- A consumer rejects a request without touching the graph or hands it to its provider. -/
lemma consumerRequest_cases {c : Counts} {bs : Nat} {cap : UInt64}
    {inner : IoRequest → Graph → Except BlockError Unit × Graph}
    (h : consumerRequest c bs cap inner req g = (r, g')) : g' = g ∨ inner req g = (r, g') := by
  simp only [consumerRequest] at h
  repeat' split at h
  all_goals first
    | exact .inr h
    | exact .inl (Prod.mk.inj h).2.symm

def Graph.setLog (g : Graph) (log : List DeviceCall) : Graph :=
  { g with adapter := { g.adapter with device := { g.device with log := log } } }

lemma Graph.slack_setLog (g : Graph) (log : List DeviceCall) (q : Provider) (k : Kind) :
    (g.setLog log).slack q k = g.slack q k := by
  have hsame : g.SameCounts (g.setLog log) := ⟨rfl, rfl⟩
  rw [slack, hsame.ownCounts]
  rfl

/-- Requests change nothing but the log of the device. -/
lemma Provider.request_log (p : Provider) (h : p.request req g = (r, g')) :
    ∃ log, g' = g.setLog log := by
  induction p generalizing req with
  | adapter =>
    exact ⟨_, (Prod.mk.inj h).2.symm⟩
  | partition id parent s n ih =>
    simp only [request] at h
    have hsubmit : ∀ req', consumerRequest (g.parentCounts id) (g.blockSize parent)
        (g.blockCount parent) parent.request req' g = (r, g') →
        ∃ log, g' = g.setLog log := by
      intro req' h'
      rcases consumerRequest_cases h' with rfl | hin
      · exact ⟨g'.device.log, rfl⟩
      · exact ih hin
    repeat' split at h
    all_goals first
      | exact hsubmit _ h
      | exact ⟨g.device.log, (Prod.mk.inj h).2.symm⟩

lemma Consumer.request_log (h : c.request req g = (r, g')) : ∃ log, g' = g.setLog log := by
  rcases consumerRequest_cases h with rfl | hin
  · exact ⟨g'.device.log, rfl⟩
  · exact c.provider.request_log hin

lemma Graph.Inv.request (hg : g.Inv dev) (h : c.request req g = (r, g')) : g'.Inv dev := by
  obtain ⟨log, rfl⟩ := request_log h
  refine hg.of_samePartitions rfl rfl rfl ?_ (hg.own_nonneg_of_same ⟨rfl, rfl⟩) ?_
  · intro x hx
    exact ⟨hg.consumer_live x hx, hg.consumer_nonneg x hx⟩
  · intro q hq k
    rw [slack_setLog]
    exact hg.slack_nonneg q hq k

lemma exceeds_eq_false_iff (start n cap : UInt64) :
    exceeds start n cap = false ↔ start.toNat + n.toNat ≤ cap.toNat := by
  have hcap := cap.toNat_lt
  simp only [exceeds, checkedAdd, Bool.or_eq_false_iff, decide_eq_false_iff_not,
    UInt64.lt_iff_toNat_lt]
  by_cases hov : start.toNat + n.toNat < 2 ^ 64
  · simp only [hov, if_true, decide_eq_false_iff_not, UInt64.toNat_add, Nat.mod_eq_of_lt hov]
    omega
  · simp only [hov, if_false, Bool.true_eq_false, and_false, false_iff]
    omega

lemma partitionNew_ok (h : partitionNew g id parent s n = .ok p) :
    p = .partition id parent s n ∧ s.toNat + n.toNat ≤ (g.blockCount parent).toNat := by
  simp only [partitionNew] at h
  split_ifs at h with hex
  cases h
  exact ⟨rfl, (exceeds_eq_false_iff _ _ _).mp (Bool.not_eq_true _ ▸ hex)⟩

/-- A provider that does not exist has no consumers. -/
lemma Graph.Inv.openCount_eq_zero (hg : g.Inv dev) (hp : ¬ g.Live p) (k : Kind) :
    g.openCount p k = 0 := by
  have h₁ : ∀ c ∈ g.consumers, c.share p k = 0 := by
    intro c hc
    rw [Consumer.share, if_neg]
    rintro rfl
    exact hp (hg.consumer_live c hc)
  have h₂ : ∀ q ∈ g.partitions, share g.parentCounts p k q = 0 := by
    intro q hq
    cases q with
    | adapter => rfl
    | partition id parent s n =>
      rw [Provider.share, Consumer.share, if_neg]
      rintro rfl
      exact hp (hg.parent_live _ _ _ _ hq)
  rw [openCount, List.map_congr_left h₁, List.map_congr_left h₂]
  simp

/-- `Partition::new` moves a consumer from its owner into the partition, so nobody's open count
changes. -/
lemma Graph.openCount_partition (hc : g.consumers = l₁ ++ c :: l₂)
    (hid : ∀ q ∈ g.partitions, q.id? ≠ some id) (q : Provider) (k : Kind) :
    (g.withPartition id c.counts (l₁ ++ l₂) (.partition id c.provider s n)).openCount q k =
      g.openCount q k := by
  have hshare : g.partitions.map (share (update g.parentCounts id c.counts) q k) =
      g.partitions.map (share g.parentCounts q k) :=
    List.map_congr_left fun x hx => share_update (hid x hx) _ _ _
  have heta : (⟨c.provider, c.counts⟩ : Consumer) = c := rfl
  simp only [openCount, setParentCounts, hc, sum_share_append, List.map_cons,
    List.sum_cons, hshare]
  simp only [Provider.share, update_self, heta]
  omega

lemma id?_ne_of_fresh (hid : ∀ q ∈ g.partitions, ∀ parent s n,
    q ≠ .partition id parent s n) : ∀ q ∈ g.partitions, q.id? ≠ some id := by
  intro q hq hqid
  cases q with
  | adapter => simp [id?] at hqid
  | partition id' parent' s' n' =>
    simp only [id?, Option.some.injEq] at hqid
    exact hid _ hq parent' s' n' (by rw [hqid])

lemma Graph.ownCounts_partition {cs : List Consumer} {c : Counts}
    (hid : ∀ q ∈ g.partitions, q.id? ≠ some id) (hq : g.Live q) :
    (g.withPartition id c cs p).ownCounts q = g.ownCounts q := by
  rcases hq with rfl | hq
  · rfl
  · cases q with
    | adapter => rfl
    | partition id' parent' s' n' =>
      have hne : id' ≠ id := by
        rintro rfl
        exact hid _ hq rfl
      simp [ownCounts, setParentCounts, update_of_ne hne]

/-- A new partition starts with the counts of the consumer it was made from, and nothing is
attached to it. The slack of the others stays. -/
lemma Graph.Inv.slack_partition (hg : g.Inv dev) (hc : g.consumers = l₁ ++ c :: l₂)
    (hid : ∀ q ∈ g.partitions, q.id? ≠ some id) (hq : g.Live q ∨ q = .partition id c.provider s n)
    (k : Kind) :
    let g' := g.withPartition id c.counts (l₁ ++ l₂) (.partition id c.provider s n)
    (g.Live q ∧ g'.slack q k = g.slack q k) ∨ (¬ g.Live q ∧ g'.slack q k = c.counts.count k) := by
  intro g'
  rw [slack, openCount_partition hc hid]
  by_cases hlive : g.Live q
  · rw [ownCounts_partition hid hlive]
    exact .inl ⟨hlive, rfl⟩
  · obtain rfl := hq.resolve_left hlive
    refine .inr ⟨hlive, ?_⟩
    rw [hg.openCount_eq_zero hlive]
    simp only [g', ownCounts, setParentCounts, update_self]
    omega

lemma Graph.Inv.addPartition (hg : g.Inv dev) (hc : g.consumers = l₁ ++ c :: l₂)
    (hid : ∀ q ∈ g.partitions, ∀ parent s n, q ≠ .partition id parent s n)
    (h : partitionNew g id c.provider s n = .ok p) :
    (g.withPartition id c.counts (l₁ ++ l₂) p).Inv dev := by
  obtain ⟨rfl, hwin⟩ := partitionNew_ok h
  have hmem : c ∈ g.consumers := by simp [hc]
  have hid' := id?_ne_of_fresh hid
  have hcount (q : Provider) : (g.withPartition id c.counts (l₁ ++ l₂)
      (.partition id c.provider s n)).blockCount q = g.blockCount q := by
    cases q <;> rfl
  have hlive (q : Provider) (hq : g.Live q) :
      q = .adapter ∨ q ∈ .partition id c.provider s n :: g.partitions := hq.imp_right (.tail _)
  have hold : ∀ x ∈ l₁ ++ l₂, x ∈ g.consumers := fun x hx => hc ▸ mem_of_mem_erased hx
  refine ⟨hg.blockSize_eq, hg.blockCount_eq, ?_, ?_, ?_, ?_, ?_, ?_, ?_, ?_⟩
  · rw [List.map_cons, List.nodup_cons]
    refine ⟨?_, hg.nodup_ids⟩
    rw [List.mem_map]
    rintro ⟨q, hq, hqid⟩
    exact hid' q hq hqid
  · intro x hx
    exact hlive _ (hg.consumer_live x (hold x hx))
  · intro id' parent' s' n' hq
    rcases List.mem_cons.mp hq with hq | hq
    · cases hq
      exact hlive _ (hg.consumer_live c hmem)
    · exact hlive _ (hg.parent_live _ _ _ _ hq)
  · intro id' parent' s' n' hq
    rw [hcount]
    rcases List.mem_cons.mp hq with hq | hq
    · cases hq
      exact hwin
    · exact hg.window _ _ _ _ hq
  · rw [List.mem_cons, not_or]
    exact ⟨by simp, hg.adapter_mem⟩
  · intro x hx
    exact hg.consumer_nonneg x (hold x hx)
  · intro q hq
    rcases hq.of_withPartition with hq | rfl
    · rw [ownCounts_partition hid' hq]
      exact hg.own_nonneg q hq
    · simpa [ownCounts, setParentCounts] using hg.consumer_nonneg c hmem
  · intro q hq k
    rcases hg.slack_partition hc hid' hq.of_withPartition k with ⟨hq, hslack⟩ | ⟨-, hslack⟩
    · rw [hslack]
      exact hg.slack_nonneg q hq k
    · rw [hslack]
      exact hg.consumer_nonneg c hmem k

/-- Dropping a partition drops the consumer it owns: no slack changes, unless the closing call
fails. -/
lemma Graph.Inv.slack_dropPartition (hg : g.Inv dev) {l₁ l₂ : List Provider}
    (hp : g.partitions = l₁ ++ .partition id parent s n :: l₂)
    (hown : c = ⟨parent, g.parentCounts id⟩) :
    ∃ lost : Bool, (c.Closes g ↔ lost = false) ∧ ∀ q, g.Live q → ∀ k,
      ({ c.drop g with partitions := l₁ ++ l₂ } : Graph).slack q k =
        g.slack q k + if lost then c.share q k else 0 := by
  have hmem : partition id parent s n ∈ g.partitions := by simp [hp]
  have hlive : g.Live c.provider := hown ▸ hg.parent_live _ _ _ _ hmem
  have hnonneg : c.counts.Nonneg := by
    rw [hown]
    exact hg.own_nonneg (.partition id parent s n) (.inr hmem)
  obtain ⟨hshape, -, hframe, lost, hcl, hslack⟩ := hg.drop_spec hlive hnonneg
  have hid := hframe id (hown ▸ hg.id_notMem_chain hmem)
  refine ⟨lost, hcl, fun q hq k => ?_⟩
  rw [← hslack q hq k]
  generalize c.drop g = g₁ at *
  have hsame : g₁.SameCounts { g₁ with partitions := l₁ ++ l₂ } := ⟨rfl, rfl⟩
  have hshare : share g₁.parentCounts q k (.partition id parent s n) = c.share q k := by
    rw [Provider.share, hid, hown]
  rw [slack, slack, hsame.ownCounts]
  simp only [openCount, hshape.partitions, hp, List.map_append, List.map_cons,
    List.sum_append, List.sum_cons, hshare]
  omega

lemma Graph.Inv.dropPartition (hg : g.Inv dev) {l₁ l₂ : List Provider}
    (hp : g.partitions = l₁ ++ .partition id parent s n :: l₂)
    (hc : ∀ c ∈ g.consumers, c.provider ≠ .partition id parent s n)
    (hq : ∀ q ∈ g.partitions, ∀ id' s' n', q ≠ .partition id' (.partition id parent s n) s' n') :
    ({ Consumer.drop ⟨parent, g.parentCounts id⟩ g with partitions := l₁ ++ l₂ } : Graph).Inv
      dev := by
  have hmem : partition id parent s n ∈ g.partitions := by simp [hp]
  have hnonneg := hg.own_nonneg _ (.inr hmem)
  obtain ⟨hshape, hown, -, -⟩ := hg.drop_spec (c := ⟨parent, g.parentCounts id⟩)
    (hg.parent_live _ _ _ _ hmem) hnonneg
  obtain ⟨lost, -, hslack⟩ := hg.slack_dropPartition hp rfl
  generalize Consumer.drop ⟨parent, g.parentCounts id⟩ g = g₁ at *
  have hsub : ∀ q ∈ l₁ ++ l₂, q ∈ g.partitions := fun q hq => hp ▸ mem_of_mem_erased hq
  -- whoever is still referred to is not the partition that went away
  have hkeep : ∀ q, g.Live q → q ≠ .partition id parent s n → q = .adapter ∨ q ∈ l₁ ++ l₂ := by
    rintro q (hq | hq) hne
    · exact .inl hq
    · rw [hp, List.mem_append, List.mem_cons] at hq
      rcases hq with hq | hq | hq
      · exact .inr (List.mem_append_left _ hq)
      · exact absurd hq hne
      · exact .inr (List.mem_append_right _ hq)
  have hlive : ∀ q, (q = .adapter ∨ q ∈ l₁ ++ l₂) → g.Live q := by
    rintro q (hq | hq)
    · exact .inl hq
    · exact .inr (hsub q hq)
  refine ⟨hshape.blockSize.trans hg.blockSize_eq, hshape.blockCount.trans hg.blockCount_eq,
    ?_, ?_, ?_, ?_, ?_, ?_, ?_, ?_⟩
  · have hnd := hg.nodup_ids
    rw [hp, List.map_append, List.map_cons] at hnd
    rw [List.map_append]
    exact hnd.sublist (List.Sublist.append_left (List.sublist_cons_self _ _) _)
  · intro c hc'
    rw [hshape.consumers] at hc'
    exact hkeep _ (hg.consumer_live c hc') (hc c hc')
  · intro id' parent' s' n' hq'
    refine hkeep _ (hg.parent_live _ _ _ _ (hsub _ hq')) ?_
    rintro rfl
    exact hq _ (hsub _ hq') id' s' n' rfl
  · intro id' parent' s' n' hq'
    have hcount : ({ g₁ with partitions := l₁ ++ l₂ } : Graph).blockCount parent' =
        g.blockCount parent' := by
      cases parent' with
      | adapter => exact hshape.blockCount
      | partition => rfl
    rw [hcount]
    exact hg.window _ _ _ _ (hsub _ hq')
  · intro h
    exact hg.adapter_mem (hsub _ h)
  · intro c hc'
    rw [hshape.consumers] at hc'
    exact hg.consumer_nonneg c hc'
  · intro q hq'
    have := hown q (hlive q hq')
    cases q <;> exact this
  · intro q hq' k
    have hle := hg.slack_nonneg q (hlive q hq') k
    have hshare := share_nonneg (c := ⟨parent, g.parentCounts id⟩) hnonneg q k
    rw [hslack q (hlive q hq') k]
    split_ifs <;> omega

/-! ### A provider is at least as open as what is attached to it -/

lemma Graph.Inv.partition_share_nonneg (hg : g.Inv dev) (hq : q ∈ g.partitions) (p : Provider)
    (k : Kind) : 0 ≤ share g.parentCounts p k q := by
  cases q with
  | adapter => exact Int.le_refl 0
  | partition id parent s n =>
    have hnonneg := hg.own_nonneg _ (.inr hq)
    exact share_nonneg (c := ⟨parent, g.parentCounts id⟩) hnonneg p k

lemma Graph.Inv.consumers_nonneg (hg : g.Inv dev) (p : Provider) (k : Kind) :
    ∀ x ∈ g.consumers.map fun c => c.share p k, 0 ≤ x :=
  List.forall_mem_map.2 fun c hc => share_nonneg (hg.consumer_nonneg c hc) p k

lemma Graph.Inv.partitions_nonneg (hg : g.Inv dev) (p : Provider) (k : Kind) :
    ∀ x ∈ g.partitions.map (share g.parentCounts p k), 0 ≤ x :=
  List.forall_mem_map.2 fun _ hq => hg.partition_share_nonneg hq p k

lemma Graph.Inv.count_le_of_consumer (hg : g.Inv dev) (hc : c ∈ g.consumers) (k : Kind) :
    c.counts.count k ≤ (g.ownCounts c.provider).count k := by
  have hslack := hg.slack_nonneg c.provider (hg.consumer_live c hc) k
  have h₁ := List.single_le_sum (hg.consumers_nonneg c.provider k) _ (List.mem_map_of_mem hc)
  have h₂ := List.sum_nonneg (hg.partitions_nonneg c.provider k)
  simp only [Consumer.share, if_true] at h₁
  simp only [slack, openCount, Consumer.share] at hslack
  omega

lemma Graph.Inv.count_le_of_partition (hg : g.Inv dev)
    (hp : .partition id parent s n ∈ g.partitions) (k : Kind) :
    (g.parentCounts id).count k ≤ (g.ownCounts parent).count k := by
  have hslack := hg.slack_nonneg parent (hg.parent_live _ _ _ _ hp) k
  have h₁ := List.sum_nonneg (hg.consumers_nonneg parent k)
  have h₂ := List.single_le_sum (hg.partitions_nonneg parent k) _ (List.mem_map_of_mem hp)
  simp only [Provider.share, Consumer.share, if_true] at h₂
  simp only [slack, openCount] at hslack
  omega

/-- The adapter is at least as open as every provider. -/
lemma Graph.Inv.own_le_adapter (hg : g.Inv dev) (hp : g.Live p) (k : Kind) :
    (g.ownCounts p).count k ≤ g.adapter.counts.count k := by
  induction p with
  | adapter => exact Int.le_refl _
  | partition id parent s n ih =>
    exact (hg.count_le_of_partition hp.mem k).trans (ih (hg.parent_live _ _ _ _ hp.mem))

/-- Every graph that a history of operations reaches satisfies the invariant. -/
theorem Reachable.inv (h : Reachable dev g) : g.Inv dev := by
  induction h with
  | refl => exact inv_new dev
  | tail _ hstep hg =>
    cases hstep with
    | attach p hp => exact hg.attach hp
    | access d hc h => exact hg.access hc h
    | request req _ h => exact hg.request h
    | drop hc => exact hg.drop hc
    | partition id s n hc hid h => exact hg.addPartition hc hid h
    | partitionError id s n hc _ => exact hg.drop hc
    | dropPartition hp hc hq => exact hg.dropPartition hp hc hq

end Mars.Block
