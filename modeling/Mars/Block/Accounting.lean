import Mars.Block.Invariant
import Mathlib.Algebra.BigOperators.Group.Multiset.Basic

/-!
# The references of the block graph

The counts of the adapter are the counts of the leaf consumers together with the slack of the
providers. The slack is zero as long as every drop gives its references back. The only closing
call that can fail is the one of the last writer, when the device fails the flush it causes.
-/

namespace Mars.Block

open Mars.Block.Graph Counts

variable {dev : Device} {g g' : Graph}

/-! ### The counts of the adapter -/

variable {c : Consumer}

def Graph.providers (g : Graph) : List Provider := .adapter :: g.partitions

lemma Graph.mem_providers {p : Provider} : p ∈ g.providers ↔ g.Live p := List.mem_cons

lemma Graph.Inv.nodup_providers (hg : g.Inv dev) : g.providers.Nodup :=
  List.nodup_cons.mpr ⟨hg.adapter_mem, hg.nodup_ids.of_map⟩

/-- A consumer contributes its counts to exactly one provider. -/
lemma Graph.Inv.sum_share (hg : g.Inv dev) (hc : g.Live c.provider) (k : Kind) :
    (g.providers.map fun p => c.share p k).sum = c.counts.count k := by
  have hcount := List.count_eq_one_of_mem hg.nodup_providers (mem_providers.mpr hc)
  simp only [Consumer.share, eq_comm (a := c.provider)]
  rw [List.sum_map_ite_eq g.providers (fun _ => c.counts.count k) (fun _ => 0), hcount]
  simp

lemma sum_map_comm {α β : Type} (l : List α) (m : List β) (f : α → β → Int) :
    (l.map fun a => (m.map fun b => f a b).sum).sum =
      (m.map fun b => (l.map fun a => f a b).sum).sum := by
  simpa using Multiset.sum_map_sum_map (l : Multiset α) (m : Multiset β) (f := f)

/-- Leaf consumers and slack make up the counts of the adapter. The counts of the partitions
cancel: each is the counts of one provider and of one consumer. -/
theorem Graph.Inv.adapter_count (hg : g.Inv dev) (k : Kind) :
    g.adapter.counts.count k =
      (g.consumers.map fun c => c.counts.count k).sum +
        (g.providers.map fun p => g.slack p k).sum := by
  have hcons : (g.providers.map fun p => (g.consumers.map fun c => c.share p k).sum).sum =
      (g.consumers.map fun c => c.counts.count k).sum := by
    rw [sum_map_comm]
    congr 1
    exact List.map_congr_left fun c hc => hg.sum_share (hg.consumer_live c hc) k
  have hparts : (g.providers.map fun p =>
        (g.partitions.map (Provider.share g.parentCounts p k)).sum).sum =
      (g.partitions.map fun q => (g.ownCounts q).count k).sum := by
    rw [sum_map_comm]
    congr 1
    refine List.map_congr_left fun q hq => ?_
    cases q with
    | adapter => exact absurd hq hg.adapter_mem
    | partition id parent s n =>
      exact hg.sum_share (c := ⟨parent, g.parentCounts id⟩) (hg.parent_live _ _ _ _ hq) k
  have hown : (g.providers.map fun p => (g.ownCounts p).count k).sum =
      (g.providers.map fun p => g.slack p k).sum +
        ((g.consumers.map fun c => c.counts.count k).sum +
          (g.partitions.map fun q => (g.ownCounts q).count k).sum) := by
    rw [← hcons, ← hparts, ← List.sum_map_add, ← List.sum_map_add]
    congr 1
    refine List.map_congr_left fun p _ => ?_
    simp only [slack, openCount]
    omega
  have hhead : (g.providers.map fun p => (g.ownCounts p).count k).sum =
      g.adapter.counts.count k + (g.partitions.map fun q => (g.ownCounts q).count k).sum := by
    rw [providers, List.map_cons, List.sum_cons]
    rfl
  omega

/-! ### Closing calls -/

/-- What `count_add` says of an update that only gives back what is there. -/
lemma Counts.count_add_neg {a c : Counts} (hc : c.Nonneg)
    (hle : ∀ k, c.count k ≤ a.count k) (k : Kind) :
    (a.add c.neg).count k = a.count k - c.count k := by
  have hsub : ∀ x y : Int64, 0 ≤ y.toInt → y.toInt ≤ x.toInt →
      (x + -y).toInt = x.toInt - y.toInt := by
    intro x y hy hyx
    have h₁ := x.toInt_lt
    rw [Int64.toInt_add, toInt_neg_of_nonneg hy, Int.bmod_def]
    omega
  cases k
  · exact hsub _ _ (hc .read) (hle .read)
  · exact hsub _ _ (hc .write) (hle .write)
  · exact hsub _ _ (hc .exclusive) (hle .exclusive)

lemma Counts.nonneg_add_neg {a c : Counts} (hc : c.Nonneg)
    (hle : ∀ k, c.count k ≤ a.count k) : (a.add c.neg).Nonneg := by
  intro k
  have := hle k
  rw [count_add_neg hc hle]
  omega

lemma Counts.not_pos_neg {x : Int64} (hx : 0 ≤ x.toInt) : ¬ 0 < -x := by
  have h0 : (0 : Int64).toInt = 0 := rfl
  rw [Int64.lt_iff_toInt_lt, toInt_neg_of_nonneg hx, h0]
  omega

lemma Counts.anyPositive_neg {c : Counts} (hc : c.Nonneg) : c.neg.anyPositive = false := by
  simp only [anyPositive, neg, Bool.or_eq_false_iff]
  exact ⟨⟨decide_eq_false (not_pos_neg (hc .read)), decide_eq_false (not_pos_neg (hc .write))⟩,
    decide_eq_false (not_pos_neg (hc .exclusive))⟩

lemma Counts.exists_pos {c : Counts} (h : c.anyPositive = true) : ∃ k, 0 < c.count k := by
  have h0 : (0 : Int64).toInt = 0 := rfl
  simp only [anyPositive, Bool.or_eq_true, decide_eq_true_eq, Int64.lt_iff_toInt_lt, h0] at h
  rcases h with (hr | hw) | he
  · exact ⟨.read, hr⟩
  · exact ⟨.write, hw⟩
  · exact ⟨.exclusive, he⟩

/-- Closing `c` takes the last writer away from the adapter, and the device does not flush. -/
def Graph.LastFlushFails (g : Graph) (c : Consumer) : Prop :=
  0 < g.adapter.counts.write ∧ (g.adapter.counts.add c.counts.neg).write ≤ 0 ∧
    g.device.answer g.device.log .flush ≠ .ok ()

/-- The adapter takes back references it gave out, unless it has to flush and cannot. -/
lemma Graph.access_neg_ok (hc : c.counts.Nonneg)
    (hle : ∀ k, c.counts.count k ≤ g.adapter.counts.count k) :
    (g.adapter.access c.counts.neg).1 = .ok () ↔ ¬ g.LastFlushFails c := by
  have hneg := (anyNegative_eq_false_iff _).mpr (nonneg_add_neg hc hle)
  have hex : ¬ 0 < c.counts.neg.exclusive := not_pos_neg (hc .exclusive)
  have hpos := anyPositive_neg hc
  rw [HardwareAdapter.access, Graph.LastFlushFails]
  simp only [hneg, hex, hpos, Bool.false_eq_true, false_and, and_false, if_false]
  by_cases hlast : 0 < g.adapter.counts.write ∧ (g.adapter.counts.add c.counts.neg).write ≤ 0
  · rw [if_pos hlast, Device.call]
    cases hans : g.adapter.device.answer g.adapter.device.log .flush with
    | ok u => simp [device, hans]
    | error e => simp [device, hans, hlast]
  · rw [if_neg hlast]
    simp only [true_iff]
    rintro ⟨h₁, h₂, -⟩
    exact hlast ⟨h₁, h₂⟩

/-- No partition on the way refuses to take back what it gave out. -/
lemma Provider.access_neg_ok (hg : g.Inv dev) {p : Provider} (hp : g.Live p) {c : Counts}
    (hc : c.Nonneg) (hle : ∀ k, c.count k ≤ (g.ownCounts p).count k) :
    (p.access c.neg g).1 = .ok () ↔ (g.adapter.access c.neg).1 = .ok () := by
  induction p with
  | adapter => exact Iff.rfl
  | partition id parent s n ih =>
    have hmem := hp.mem
    have hneg : ((g.parentCounts id).add c.neg).anyNegative = false :=
      (anyNegative_eq_false_iff _).mpr (nonneg_add_neg hc hle)
    rw [← ih (hg.parent_live _ _ _ _ hmem)
      fun k => Int.le_trans (hle k) (hg.count_le_of_partition hmem k)]
    simp only [Provider.access_partition, consumerAccess, hneg, Bool.false_eq_true, if_false]
    rcases parent.access c.neg g with ⟨_ | _, g₁⟩ <;> simp

/-- Closing a consumer that holds nothing does not take the last writer away. -/
lemma Graph.LastFlushFails.pos (hc : c.counts.Nonneg)
    (hle : ∀ k, c.counts.count k ≤ g.adapter.counts.count k) (h : g.LastFlushFails c) :
    0 < c.counts.count .write := by
  obtain ⟨hpos, hlast, -⟩ := h
  have hcount := count_add_neg hc hle .write
  have h0 : (0 : Int64).toInt = 0 := rfl
  rw [Int64.lt_iff_toInt_lt, h0] at hpos
  rw [Int64.le_iff_toInt_le, h0] at hlast
  simp only [Counts.count] at hcount ⊢
  omega

/-- The closing call of a consumer fails exactly when it is the one of the last writer and the
flush fails. -/
lemma Graph.Inv.closes_iff (hg : g.Inv dev) (hlive : g.Live c.provider) (hc : c.counts.Nonneg)
    (hle : ∀ k, c.counts.count k ≤ (g.ownCounts c.provider).count k) :
    c.Closes g ↔ ¬ g.LastFlushFails c := by
  have hle' : ∀ k, c.counts.count k ≤ g.adapter.counts.count k :=
    fun k => Int.le_trans (hle k) (hg.own_le_adapter hlive k)
  rw [Consumer.Closes, Provider.access_neg_ok hg hlive hc hle, access_neg_ok hc hle']
  refine ⟨?_, fun h _ => h⟩
  intro h hfails
  refine h ?_ hfails
  by_contra hnone
  have hzero := count_eq_zero_of_not_anyPositive hc (Bool.not_eq_true _ ▸ hnone) .write
  have hpos := hfails.pos hc hle'
  omega

lemma Graph.Inv.closes_iff_of_mem (hg : g.Inv dev) (hc : c ∈ g.consumers) :
    c.Closes g ↔ ¬ g.LastFlushFails c :=
  hg.closes_iff (hg.consumer_live c hc) (hg.consumer_nonneg c hc) (hg.count_le_of_consumer hc)

/-! ### Operations -/

/-- The operations of the owner of a graph. Consumers and partitions are named by their position,
a new partition by the number it gets. -/
inductive Op where
  | attach (p : Provider)
  | access (i : Nat) (d : Counts)
  | request (i : Nat) (req : IoRequest)
  | drop (i : Nat)
  | partition (i id : Nat) (startLba blockCount : UInt64)
  | dropPartition (i : Nat)

def Provider.parent? : Provider → Option Provider
  | .adapter                => none
  | .partition _ parent _ _ => some parent

/-- No consumer is attached to the provider any more. -/
def Graph.Unused (g : Graph) (p : Provider) : Prop :=
  (∀ c ∈ g.consumers, c.provider ≠ p) ∧ ∀ q ∈ g.partitions, q.parent? ≠ some p

instance (g : Graph) (p : Provider) : Decidable (g.Unused p) :=
  inferInstanceAs (Decidable ((∀ c ∈ g.consumers, c.provider ≠ p) ∧
    ∀ q ∈ g.partitions, q.parent? ≠ some p))

def Provider.owned (counts : Nat → Counts) : Provider → Option Consumer
  | .adapter                 => none
  | .partition id parent _ _ => some ⟨parent, counts id⟩

/-- The graph after an operation, `none` if there is nothing to operate on. -/
def Op.run (g : Graph) : Op → Option Graph
  | .attach p =>
    if p ∈ g.providers then some { g with consumers := Consumer.attach p :: g.consumers } else none
  | .access i d =>
    g.consumers[i]?.map fun c =>
      { (c.access d g).2.2 with consumers := g.consumers.set i (c.access d g).2.1 }
  | .request i req => g.consumers[i]?.map fun c => (c.request req g).2
  | .drop i =>
    g.consumers[i]?.map fun c => { c.drop g with consumers := g.consumers.eraseIdx i }
  | .partition i id startLba blockCount =>
    if some id ∈ g.partitions.map Provider.id? then none
    else
      g.consumers[i]?.map fun c =>
        match partitionNew g id c.provider startLba blockCount with
        | .ok p =>
          { g.setParentCounts id c.counts with
            consumers := g.consumers.eraseIdx i
            partitions := p :: g.partitions }
        | .error _ => { c.drop g with consumers := g.consumers.eraseIdx i }
  | .dropPartition i =>
    g.partitions[i]?.bind fun p =>
      if g.Unused p then
        (p.owned g.parentCounts).map fun c =>
          { c.drop g with partitions := g.partitions.eraseIdx i }
      else none

/-- The consumer that is dropped by an operation. `Partition::new` drops the consumer it was
given when it refuses the bounds. -/
def Op.dropped (g : Graph) : Op → Option Consumer
  | .drop i => g.consumers[i]?
  | .partition i id startLba blockCount =>
    g.consumers[i]?.bind fun c =>
      match partitionNew g id c.provider startLba blockCount with
      | .ok _    => none
      | .error _ => some c
  | .dropPartition i => g.partitions[i]?.bind (Provider.owned g.parentCounts)
  | _ => none

/-- Partitions are made from consumers that have not been opened. -/
def Op.Unopened (g : Graph) : Op → Prop
  | .partition i _ _ _ => ∀ c, g.consumers[i]? = some c → c.counts = Counts.zero
  | _                  => True

/-- The operation does not drop the last writer while the device fails to flush. -/
def Op.Releases (g : Graph) (op : Op) : Prop := ∀ c, op.dropped g = some c → ¬ g.LastFlushFails c

/-- An entry of a list, with what becomes of the list when the entry is replaced or erased. -/
lemma exists_split_of_getElem? {α : Type} {l : List α} {i : Nat} {a : α} (h : l[i]? = some a) :
    ∃ l₁ l₂, l = l₁ ++ a :: l₂ ∧ l.eraseIdx i = l₁ ++ l₂ ∧ ∀ b, l.set i b = l₁ ++ b :: l₂ := by
  obtain ⟨hi, rfl⟩ := List.getElem?_eq_some_iff.mp h
  refine ⟨l.take i, l.drop (i + 1), ?_, List.eraseIdx_eq_take_drop_succ l i, ?_⟩
  · rw [List.cons_getElem_drop_succ, List.take_append_drop]
  · intro b
    rw [List.set_eq_take_append_cons_drop, if_pos hi]

lemma Op.step {op : Op} (h : op.run g = some g') : Step g g' := by
  cases op with
  | attach p =>
    simp only [Op.run] at h
    split_ifs at h with hp
    cases h
    exact .attach p (mem_providers.mp hp)
  | access i d =>
    obtain ⟨c, hi, rfl⟩ := Option.map_eq_some_iff.mp h
    obtain ⟨l₁, l₂, hl, -, hset⟩ := exists_split_of_getElem? hi
    rw [hset]
    exact .access d hl rfl
  | request i req =>
    obtain ⟨c, hi, rfl⟩ := Option.map_eq_some_iff.mp h
    exact .request req (List.mem_of_getElem? hi) rfl
  | drop i =>
    obtain ⟨c, hi, rfl⟩ := Option.map_eq_some_iff.mp h
    obtain ⟨l₁, l₂, hl, herase, -⟩ := exists_split_of_getElem? hi
    rw [herase]
    exact .drop hl
  | partition i id s n =>
    simp only [Op.run] at h
    split_ifs at h with hid
    obtain ⟨c, hi, rfl⟩ := Option.map_eq_some_iff.mp h
    obtain ⟨l₁, l₂, hl, herase, -⟩ := exists_split_of_getElem? hi
    rw [herase]
    cases hnew : partitionNew g id c.provider s n with
    | ok p =>
      refine .partition id s n hl ?_ hnew
      rintro q hq parent s' n' rfl
      exact hid (List.mem_map_of_mem hq)
    | error e => exact .partitionError id s n hl hnew
  | dropPartition i =>
    obtain ⟨p, hi, h⟩ := Option.bind_eq_some_iff.mp h
    split_ifs at h with hunused
    obtain ⟨c, howned, rfl⟩ := Option.map_eq_some_iff.mp h
    obtain ⟨l₁, l₂, hl, herase, -⟩ := exists_split_of_getElem? hi
    rw [herase]
    cases p with
    | adapter => cases howned
    | partition id parent s n =>
      cases howned
      refine .dropPartition hl hunused.1 ?_
      rintro q hq id' s' n' rfl
      exact hunused.2 _ hq rfl

def Graph.runAll (g : Graph) (ops : List Op) : Option Graph := ops.foldlM Op.run g

lemma reachable_runAll {ops : List Op} (h : (new dev).runAll ops = some g) :
    Reachable dev g := by
  unfold Reachable
  generalize new dev = g₀ at h ⊢
  induction ops generalizing g₀ with
  | nil =>
    cases h
    exact .refl
  | cons op ops ih =>
    obtain ⟨g₁, hop, h⟩ := Option.bind_eq_some_iff.mp h
    exact .head (Op.step hop) (ih g₁ h)

/-! ### Exact counts -/

/-- The counts of every provider are the sums of those of the consumers attached to it. -/
def Graph.Exact (g : Graph) : Prop :=
  ∀ p, g.Live p → ∀ k, (g.ownCounts p).count k = g.openCount p k

lemma Graph.exact_iff_slack : g.Exact ↔ ∀ p, g.Live p → ∀ k, g.slack p k = 0 := by
  constructor
  · intro h p hp k
    rw [slack, h p hp k]
    omega
  · intro h p hp k
    have := h p hp k
    rw [slack] at this
    omega

lemma Graph.Exact.of_slack (hx : g.Exact) (hlive : ∀ p, g'.Live p → g.Live p)
    (hslack : ∀ p, g.Live p → ∀ k, g'.slack p k = g.slack p k) : g'.Exact := by
  rw [exact_iff_slack] at hx ⊢
  intro p hp k
  rw [hslack p (hlive p hp), hx p (hlive p hp)]

/-- Dropping a leaf consumer keeps the counts exact unless its references are lost. -/
lemma Graph.Inv.exact_drop (hg : g.Inv dev) (hx : g.Exact) {l₁ l₂ : List Consumer}
    (hl : g.consumers = l₁ ++ c :: l₂) :
    ({ c.drop g with consumers := l₁ ++ l₂ } : Graph).Exact ↔ ¬ g.LastFlushFails c := by
  have hc : c ∈ g.consumers := by simp [hl]
  obtain ⟨hshape, -⟩ := hg.drop_spec (hg.consumer_live c hc) (hg.consumer_nonneg c hc)
  obtain ⟨lost, hcl, hslack⟩ := hg.slack_drop hl
  rw [← hg.closes_iff_of_mem hc, hcl]
  cases lost with
  | false =>
    refine iff_of_true (hx.of_slack (fun p hp => hshape.live.mp hp) fun q hq k => ?_) rfl
    simpa using hslack q hq k
  | true =>
    refine iff_of_false (fun hx' => ?_) (by simp)
    have hlive := hg.consumer_live c hc
    have hfails := not_not.mp fun h => by simpa using hcl.mp ((hg.closes_iff_of_mem hc).mpr h)
    have hlost := hfails.pos (hg.consumer_nonneg c hc) fun k =>
      Int.le_trans (hg.count_le_of_consumer hc k) (hg.own_le_adapter hlive k)
    have hzero := exact_iff_slack.mp hx _ hlive .write
    have hzero' := exact_iff_slack.mp hx' _ (hshape.live.mpr hlive) .write
    rw [hslack _ hlive, Consumer.share, if_pos rfl, if_pos rfl] at hzero'
    omega

/-- A partition that is not used holds no references. -/
lemma Graph.Exact.counts_of_unused (hx : g.Exact) {id : Nat} {parent : Provider} {s n : UInt64}
    (hp : .partition id parent s n ∈ g.partitions) (h : g.Unused (.partition id parent s n))
    (k : Kind) : (g.parentCounts id).count k = 0 := by
  have hown := hx _ (.inr hp) k
  have h₁ : ∀ c ∈ g.consumers, c.share (.partition id parent s n) k = 0 := by
    intro c hc
    rw [Consumer.share, if_neg (h.1 c hc)]
  have h₂ : ∀ q ∈ g.partitions,
      Provider.share g.parentCounts (.partition id parent s n) k q = 0 := by
    intro q hq
    have hne := h.2 q hq
    cases q with
    | adapter => rfl
    | partition id' parent' s' n' =>
      rw [Provider.share, Consumer.share, if_neg]
      rintro rfl
      exact hne rfl
  rw [openCount, List.map_congr_left h₁, List.map_congr_left h₂] at hown
  simpa [ownCounts] using hown

/-- One operation keeps the counts exact exactly when it loses no references. -/
lemma Op.exact_iff (hg : g.Inv dev) (hx : g.Exact) {op : Op} (hun : op.Unopened g)
    (h : op.run g = some g') : g'.Exact ↔ op.Releases g := by
  cases op with
  | attach p =>
    simp only [Op.run] at h
    split_ifs at h with hp
    cases h
    refine iff_of_true (hx.of_slack (fun _ hq => hq) fun q _ k => ?_)
      (by simp [Op.Releases, Op.dropped])
    exact slack_attach g p q k
  | access i d =>
    obtain ⟨c, hi, rfl⟩ := Option.map_eq_some_iff.mp h
    obtain ⟨l₁, l₂, hl, -, hset⟩ := exists_split_of_getElem? hi
    have hlive := hg.consumer_live c (List.mem_of_getElem? hi)
    obtain ⟨hshape, -⟩ := Consumer.access_spec hg hlive (r := (c.access d g).1) (d := d) rfl
    refine iff_of_true (hx.of_slack (fun p hp => hshape.live.mp hp) fun q hq k => ?_)
      (by simp [Op.Releases, Op.dropped])
    rw [hset]
    exact hg.slack_access hl rfl hq k
  | request i req =>
    obtain ⟨c, hi, rfl⟩ := Option.map_eq_some_iff.mp h
    obtain ⟨log, hlog⟩ := Consumer.request_log (Prod.eta (c.request req g)).symm
    rw [hlog]
    refine iff_of_true (hx.of_slack (fun _ hp => hp) fun q _ k => ?_)
      (by simp [Op.Releases, Op.dropped])
    exact slack_setLog g log q k
  | drop i =>
    obtain ⟨c, hi, rfl⟩ := Option.map_eq_some_iff.mp h
    obtain ⟨l₁, l₂, hl, herase, -⟩ := exists_split_of_getElem? hi
    rw [herase, hg.exact_drop hx hl]
    simp [Op.Releases, Op.dropped, hi]
  | partition i id s n =>
    simp only [Op.run] at h
    split_ifs at h with hid
    obtain ⟨c, hi, rfl⟩ := Option.map_eq_some_iff.mp h
    obtain ⟨l₁, l₂, hl, herase, -⟩ := exists_split_of_getElem? hi
    have hzero := hun c hi
    rw [herase]
    cases hnew : partitionNew g id c.provider s n with
    | ok p =>
      refine iff_of_true ?_ (by simp [Op.Releases, Op.dropped, hi, hnew])
      obtain ⟨rfl, -⟩ := partitionNew_ok hnew
      have hid' : ∀ q ∈ g.partitions, q.id? ≠ some id := fun q hq hqid =>
        hid (hqid ▸ List.mem_map_of_mem hq)
      rw [exact_iff_slack] at hx ⊢
      intro q hq k
      rcases hg.slack_partition hl hid' hq.of_withPartition k with ⟨hq, hslack⟩ | ⟨-, hslack⟩
      · rw [hslack, hx q hq k]
      · rw [hslack, hzero, count_zero]
    | error e =>
      simp only
      rw [hg.exact_drop hx hl]
      simp [Op.Releases, Op.dropped, hi, hnew]
  | dropPartition i =>
    obtain ⟨p, hi, h⟩ := Option.bind_eq_some_iff.mp h
    split_ifs at h with hunused
    obtain ⟨c, howned, rfl⟩ := Option.map_eq_some_iff.mp h
    obtain ⟨l₁, l₂, hl, herase, -⟩ := exists_split_of_getElem? hi
    rw [herase]
    cases p with
    | adapter => cases howned
    | partition id parent s n =>
      cases howned
      have hmem := List.mem_of_getElem? hi
      have hnonneg := hg.own_nonneg _ (.inr hmem)
      have hparent := hg.parent_live _ _ _ _ hmem
      have hclosed : Consumer.Closes ⟨parent, g.parentCounts id⟩ g := by
        intro hpos
        obtain ⟨k, hk⟩ := exists_pos hpos
        have hzero := hx.counts_of_unused hmem hunused k
        dsimp only at hk
        omega
      have hrel : ¬ g.LastFlushFails ⟨parent, g.parentCounts id⟩ :=
        (hg.closes_iff (c := ⟨parent, g.parentCounts id⟩) hparent hnonneg
          (hg.count_le_of_partition hmem)).mp hclosed
      obtain ⟨lost, hcl, hslack⟩ := hg.slack_dropPartition hl rfl
      rw [hcl] at hclosed
      subst hclosed
      refine iff_of_true (hx.of_slack ?_ fun q hq k => by simpa using hslack q hq k) ?_
      · rintro q (hq | hq)
        · exact .inl hq
        · exact .inr (hl ▸ mem_of_mem_erased hq)
      · simpa [Op.Releases, Op.dropped, hi, Provider.owned] using hrel

/-! ### Runs -/

/-- The graphs reached by operations that lose no references. -/
inductive Clean (dev : Device) : Graph → Prop where
  | new : Clean dev (new dev)
  | step {g g' : Graph} (op : Op) (h : Clean dev g) (hun : op.Unopened g) (hrel : op.Releases g)
      (hrun : op.run g = some g') : Clean dev g'

lemma Clean.reachable (h : Clean dev g) : Reachable dev g := by
  induction h with
  | new => exact .refl
  | step op _ _ _ hrun ih => exact ih.tail (Op.step hrun)

lemma Graph.exact_new (dev : Device) : (new dev).Exact := by
  rintro p (rfl | hp) k
  · cases k <;> rfl
  · cases hp

lemma Clean.exact (h : Clean dev g) : g.Exact := by
  induction h with
  | new => exact exact_new dev
  | step op hg hun hrel hrun ih => exact (Op.exact_iff hg.reachable.inv ih hun hrun).mpr hrel

/-- With exact counts nothing but the leaf consumers is left in the counts of the adapter. -/
lemma Graph.Exact.adapter_count (hx : g.Exact) (hg : g.Inv dev) (k : Kind) :
    g.adapter.counts.count k = (g.consumers.map fun c => c.counts.count k).sum := by
  have hzero : (g.providers.map fun p => g.slack p k).sum = 0 := by
    have hmap := List.map_congr_left fun p hp =>
        exact_iff_slack.mp hx p (mem_providers.mp hp) k
    rw [hmap]
    simp
  rw [hg.adapter_count, hzero]
  omega

lemma Counts.eq_zero {c : Counts} (h : ∀ k, c.count k = 0) : c = Counts.zero := by
  have hr : c.read = 0 := Int64.toInt_inj.mp (h .read)
  have hw : c.write = 0 := Int64.toInt_inj.mp (h .write)
  have he : c.exclusive = 0 := Int64.toInt_inj.mp (h .exclusive)
  cases c
  simp only at hr hw he
  rw [hr, hw, he]
  rfl

/-- As long as no last writer is dropped while the device fails to flush, the counts of every
provider are those of the consumers attached to it, and those of the adapter are zero once all
leaf consumers are gone. The next operation keeps the counts exact exactly when it does not drop
the last writer over a failing flush. -/
theorem Clean.counts_exact (h : Clean dev g) :
    (∀ p, g.Live p → ∀ k, (g.ownCounts p).count k = g.openCount p k) ∧
      (g.consumers = [] → g.adapter.counts = Counts.zero) ∧
      ∀ op g', Op.Unopened g op → op.run g = some g' → (g'.Exact ↔ op.Releases g) := by
  have hg := h.reachable.inv
  refine ⟨h.exact, ?_, fun op g' hun hrun => Op.exact_iff hg h.exact hun hrun⟩
  intro hnone
  refine eq_zero fun k => ?_
  rw [h.exact.adapter_count hg, hnone]
  rfl

/-- A device that never manages to flush. -/
def failingDevice : Device :=
  { blockSize := 4
    blockCount := 100
    answer := fun _ c =>
      match c with
      | .flush => .error .hardwareError
      | _      => .ok ()
    log := [] }

def writerGraph : Graph :=
  { new failingDevice with
    adapter := ⟨failingDevice, ⟨0, 1, 0⟩⟩
    consumers := [⟨.adapter, ⟨0, 1, 0⟩⟩] }

lemma clean_writerGraph : Clean failingDevice writerGraph := by
  have hattach : Clean failingDevice
      { new failingDevice with consumers := [Consumer.attach .adapter] } :=
    .step (.attach .adapter) .new trivial (by simp [Op.Releases, Op.dropped]) rfl
  exact .step (.access 0 ⟨0, 1, 0⟩) hattach trivial (by simp [Op.Releases, Op.dropped]) rfl

/-- The adapter of the graph with one writer counts that writer, and dropping it would not keep
the counts exact. -/
theorem writerGraph_counts :
    writerGraph.adapter.counts.count .write = writerGraph.openCount .adapter .write ∧
      ∀ g', (Op.drop 0).run writerGraph = some g' → ¬ g'.Exact := by
  obtain ⟨hexact, -, hiff⟩ := clean_writerGraph.counts_exact
  refine ⟨hexact .adapter (.inl rfl) .write, fun g' hrun hx => ?_⟩
  exact (hiff (.drop 0) g' trivial hrun).mp hx _ rfl ⟨by decide, by decide, nofun⟩

/-- The writer of a device that does not flush is dropped: no consumer is left and the adapter
still counts a writer. -/
theorem failingDevice_keeps_writer : ∃ g,
    (new failingDevice).runAll [.attach .adapter, .access 0 ⟨0, 1, 0⟩, .drop 0] = some g ∧
      g.consumers = [] ∧ g.partitions = [] ∧ g.adapter.counts = ⟨0, 1, 0⟩ ∧
      g.openCount .adapter .write = 0 :=
  ⟨_, rfl, rfl, rfl, rfl, rfl⟩

end Mars.Block
