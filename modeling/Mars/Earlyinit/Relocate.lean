import Mars.Earlyinit.Mem
import Mars.Lib.Merge

/-!
# Relocating the memory map

Embedding of `clone_and_process_mmap` of `earlyinit/mem.rs`. The memory map of the firmware is
copied to the first normal memory, with adjacent descriptors of one kind joined. A first pass counts
the descriptors, a second one writes them. What the copy takes up is cut from its descriptor.
-/

namespace Mars.Earlyinit

open Lib.Bits Lib.Merge Pm Vm MemoryDescriptor

/-! ### The code -/

/-- A memory map. Its entries stand in a buffer, `desc_size` bytes apart. -/
structure MemoryMap where
  entries : List MemoryDescriptor
  descSize : Nat
  size_lt : entries.length * descSize < 2 ^ 63

/-- `MemoryType::LOADER_CODE` -/
def loaderCode : MemoryType := .other 1

namespace MemoryDescriptor

/-- Normal memory becomes conventional, unless it has data of the boot services. -/
def retype (d : MemoryDescriptor) : MemoryDescriptor :=
  if d.isNormal && d.ty != .bootServicesData then { d with ty := .conventional } else d

def canMerge (a b : MemoryDescriptor) : Bool :=
  if a.physStart + a.pageCount * 4096 != b.physStart then false
  else a.ty == b.ty && a.att == b.att

/-- `last.page_count += current.page_count` -/
def merge (last current : MemoryDescriptor) : MemoryDescriptor :=
  { last with pageCount := last.pageCount + current.pageCount }

end MemoryDescriptor

structure Sizing where
  finalCount : Nat := 0
  firstNormalStart : Option UInt64 := none
  lastProcessed : Option MemoryDescriptor := none

def Sizing.step (s : Sizing) (desc : MemoryDescriptor) : Sizing :=
  let current := desc.retype
  let firstNormalStart :=
    if desc.isNormal && desc.ty != .bootServicesData && s.firstNormalStart.isNone then
      some current.physStart
    else s.firstNormalStart
  match s.lastProcessed with
  | some last =>
    if last.canMerge current then
      { s with firstNormalStart, lastProcessed := some (last.merge current) }
    else
      { finalCount := s.finalCount + 1, firstNormalStart, lastProcessed := some current }
  | none => { s with firstNormalStart, lastProcessed := some current }

structure Relocated where
  desc : MemoryDescriptor
  virtStart : UInt64

/-- What has been written: every `ptr::write`, with the offset of its address from `dest_ptr`. -/
structure Output where
  writeI : Nat := 0
  writes : List (Nat × Relocated) := []

structure Writing where
  output : Output := {}
  merged : Option MemoryDescriptor := none

/-- The descriptor without the pages that the map takes up. -/
def cut (destPa mapPages : UInt64) (desc : MemoryDescriptor) : Option MemoryDescriptor :=
  if desc.physStart ≤ destPa && desc.physStart + desc.pageCount * 4096 > destPa then
    let offsetPages := (destPa - desc.physStart) / 4096
    let totalNeeded := offsetPages + mapPages
    if desc.pageCount > totalNeeded then
      some { desc with
        physStart := desc.physStart + totalNeeded * 4096
        pageCount := desc.pageCount - totalNeeded }
    else none
  else some desc

def Output.punch (destPa mapPages : UInt64) (descSize : Nat) (o : Output)
    (desc : MemoryDescriptor) : Output :=
  match cut destPa mapPages desc with
  | none      => o
  | some desc =>
    let virtStart := UInt64.ofNat (physAddrToDmap desc.start)
    { writes := o.writes ++ [(o.writeI * descSize, ⟨desc, virtStart⟩)]
      writeI := o.writeI + 1 }

def Writing.step (destPa mapPages : UInt64) (descSize : Nat) (s : Writing)
    (desc : MemoryDescriptor) : Writing :=
  let current := desc.retype
  match s.merged with
  | some last =>
    if last.canMerge current then { s with merged := some (last.merge current) }
    else { output := s.output.punch destPa mapPages descSize last, merged := some current }
  | none => { s with merged := some current }

/-- What the function does: where the map goes, how many pages it needs and what is written. -/
structure Clone where
  destPa : UInt64
  finalCount : Nat
  mapPages : Nat
  writes : List (Nat × Relocated)
  /-- The size of the returned map. -/
  finalMapSize : Nat

/-- `align_up` to pages of the firmware. -/
def alignUpUefi (n : Nat) : Nat := (n + uefiPageSize - 1) % 2 ^ 64 &&& complement (uefiPageSize - 1)

/-- The descriptors that both passes go through. -/
def MemoryMap.kept (map : MemoryMap) : List MemoryDescriptor :=
  map.entries.filter (·.ty != loaderCode)

/-- `clone_and_process_mmap`; nothing if it panics since there is no suitable memory. -/
def cloneAndProcessMmap (map : MemoryMap) : Option Clone := do
  let sizing := map.kept.foldl Sizing.step {}
  let finalCount := sizing.finalCount + (if sizing.lastProcessed.isSome then 1 else 0)
  let destPa ← sizing.firstNormalStart
  let mapBytes := finalCount * map.descSize
  let mapPages := alignUpUefi mapBytes / uefiPageSize
  let s := map.kept.foldl (Writing.step destPa (.ofNat mapPages) map.descSize) {}
  let output :=
    match s.merged with
    | some last => s.output.punch destPa (.ofNat mapPages) map.descSize last
    | none      => s.output
  return {
    destPa, finalCount, mapPages
    writes := output.writes
    finalMapSize := output.writeI * map.descSize }

/-! ### The two passes -/

namespace MemoryDescriptor

/-- Memory that can hold the map. -/
def isUsable (d : MemoryDescriptor) : Bool := d.isNormal && d.ty != .bootServicesData

end MemoryDescriptor

namespace MemoryMap

def merged (map : MemoryMap) : List MemoryDescriptor :=
  joinRuns canMerge merge none
    (map.kept.map retype)

end MemoryMap

section Passes

open MemoryDescriptor

lemma Sizing.firstNormalStart_step (s : Sizing) (d : MemoryDescriptor) :
    (s.step d).firstNormalStart =
      s.firstNormalStart.or (if d.isUsable then some d.physStart else none) := by
  have hstart : d.retype.physStart = d.physStart := by
    rw [retype]
    split_ifs <;> rfl
  have hfirst : (s.step d).firstNormalStart =
      if d.isNormal && d.ty != .bootServicesData && s.firstNormalStart.isNone then
        some d.retype.physStart
      else s.firstNormalStart := by
    rw [Sizing.step]
    split
    · split_ifs <;> rfl
    · rfl
  rw [hfirst, hstart, isUsable]
  cases s.firstNormalStart <;> simp

lemma Sizing.firstNormalStart_foldl (xs : List MemoryDescriptor) (s : Sizing) :
    (xs.foldl Sizing.step s).firstNormalStart =
      s.firstNormalStart.or ((xs.find? isUsable).map (·.physStart)) := by
  induction xs generalizing s with
  | nil => simp
  | cons d xs ih =>
    rw [List.foldl_cons, ih, firstNormalStart_step, List.find?_cons]
    cases d.isUsable <;> cases s.firstNormalStart <;> simp

lemma Sizing.count_foldl (xs : List MemoryDescriptor) :
    (xs.foldl Sizing.step {}).finalCount +
        (if (xs.foldl Sizing.step {}).lastProcessed.isSome then 1 else 0) =
      (joinRuns canMerge merge none (xs.map retype)).length := by
  have hstep (s : Sizing) (d : MemoryDescriptor) :
      ((s.step d).finalCount, (s.step d).lastProcessed) =
        stream canMerge merge (fun n _ => n + 1) (s.finalCount, s.lastProcessed) d.retype := by
    rw [Sizing.step, stream]
    cases s.lastProcessed with
    | none => rfl
    | some last =>
      dsimp only
      split_ifs <;> rfl
  have hlength (l : List MemoryDescriptor) (n : Nat) :
      l.foldl (fun n _ => n + 1) n = n + l.length := by
    induction l generalizing n with
    | nil => rfl
    | cons d l ih => rw [List.foldl_cons, ih, List.length_cons, add_assoc, add_comm 1]
  have hfinish := finish_foldl Sizing.step (fun s => (s.finalCount, s.lastProcessed)) retype hstep
    xs {}
  rw [hlength, zero_add] at hfinish
  rw [← hfinish, finish]
  cases (xs.foldl Sizing.step {}).lastProcessed <;> rfl

variable (destPa mapPages : UInt64) (descSize : Nat)

/-- The second pass punches the merged descriptors. -/
lemma Writing.finish_foldl (xs : List MemoryDescriptor) :
    let s := xs.foldl (Writing.step destPa mapPages descSize) {}
    finish (Output.punch destPa mapPages descSize) (s.output, s.merged) =
      (joinRuns canMerge merge none (xs.map retype)).foldl
        (Output.punch destPa mapPages descSize) {} := by
  have hstep (s : Writing) (d : MemoryDescriptor) :
      ((s.step destPa mapPages descSize d).output, (s.step destPa mapPages descSize d).merged) =
        stream canMerge merge (Output.punch destPa mapPages descSize) (s.output, s.merged)
          d.retype := by
    rw [Writing.step, stream]
    cases s.merged with
    | none => rfl
    | some last =>
      dsimp only
      split_ifs <;> rfl
  exact Lib.Merge.finish_foldl (Writing.step destPa mapPages descSize)
    (fun s => (s.output, s.merged)) retype hstep xs {}

/-- The descriptors that remain are written one after the other. -/
lemma Output.foldl_punch (l : List MemoryDescriptor) (o : Output) :
    (l.foldl (Output.punch destPa mapPages descSize) o).writeI =
        o.writeI + (l.filterMap (cut destPa mapPages)).length ∧
      (l.foldl (Output.punch destPa mapPages descSize) o).writes = o.writes ++
        ((l.filterMap (cut destPa mapPages)).zipIdx o.writeI).map fun x =>
          (x.2 * descSize, ⟨x.1, .ofNat (physAddrToDmap x.1.start)⟩) := by
  induction l generalizing o with
  | nil => simp
  | cons d l ih =>
    obtain ⟨hi, hw⟩ := ih (o.punch destPa mapPages descSize d)
    rw [List.foldl_cons, hi, hw, Output.punch]
    cases hcut : cut destPa mapPages d with
    | none =>
      rw [List.filterMap_cons_none hcut]
      exact ⟨rfl, rfl⟩
    | some d' =>
      rw [List.filterMap_cons_some hcut]
      refine ⟨?_, ?_⟩
      · simp only [List.length_cons]
        omega
      · simp [List.zipIdx_cons]

end Passes

/-! ### Merging -/

/-- Descriptors that are not empty, in the order of their addresses, without overlaps. -/
structure SortedMap (l : List MemoryDescriptor) : Prop where
  nonempty : ∀ d ∈ l, 0 < d.pageCount.toNat
  fits : ∀ d ∈ l, d.range.stop ≤ 2 ^ 64
  sorted : l.Pairwise fun a b => a.range.stop ≤ b.range.start

lemma sortedMap_cons {d : MemoryDescriptor} {l : List MemoryDescriptor} :
    SortedMap (d :: l) ↔ 0 < d.pageCount.toNat ∧ d.range.stop ≤ 2 ^ 64 ∧
      (∀ e ∈ l, d.range.stop ≤ e.range.start) ∧ SortedMap l := by
  constructor
  · rintro ⟨hpos, hfits, hsorted⟩
    obtain ⟨hd, hpos⟩ := List.forall_mem_cons.1 hpos
    obtain ⟨hd', hfits⟩ := List.forall_mem_cons.1 hfits
    obtain ⟨hle, hsorted⟩ := List.pairwise_cons.1 hsorted
    exact ⟨hd, hd', hle, hpos, hfits, hsorted⟩
  · rintro ⟨hd, hd', hle, hpos, hfits, hsorted⟩
    exact ⟨List.forall_mem_cons.2 ⟨hd, hpos⟩, List.forall_mem_cons.2 ⟨hd', hfits⟩, hsorted.cons hle⟩

namespace MemoryDescriptor
variable {a b d : MemoryDescriptor} {l : List MemoryDescriptor} {x : Nat}

/-- A page of the descriptor starts at the address. -/
def Describes (d : MemoryDescriptor) (page : Nat) : Prop :=
  ∃ k < d.pageCount.toNat, page = d.start + k * uefiPageSize

instance (d : MemoryDescriptor) (page : Nat) : Decidable (d.Describes page) :=
  inferInstanceAs (Decidable (∃ k < d.pageCount.toNat, page = d.start + k * uefiPageSize))

instance (I : Lib.Intervals.Interval) (x : Nat) : Decidable (I.Contains x) :=
  inferInstanceAs (Decidable (I.start ≤ x ∧ x < I.stop))

lemma range_stop_eq (d : MemoryDescriptor) :
    d.range.stop = d.start + d.pageCount.toNat * uefiPageSize := rfl

lemma Describes.contains (h : d.Describes x) : d.range.Contains x := by
  obtain ⟨k, hk, rfl⟩ := h
  refine ⟨Nat.le_add_right _ _, Nat.add_lt_add_left ?_ _⟩
  exact Nat.mul_lt_mul_of_pos_right hk (by decide)

lemma toNat_stop (d : MemoryDescriptor) :
    (d.physStart + d.pageCount * 4096).toNat = d.range.stop % 2 ^ 64 := by
  rw [UInt64.toNat_add, UInt64.toNat_mul, Nat.add_mod_mod]
  rfl

lemma canMerge_iff (h : SortedMap (a :: b :: l)) :
    a.canMerge b ↔ a.range.stop = b.range.start ∧ a.ty = b.ty ∧ a.att = b.att := by
  have hle : a.range.stop ≤ b.range.start :=
    (List.pairwise_cons.mp h.sorted).1 b (.head _)
  have hlt := b.physStart.toNat_lt
  have hadj : a.physStart + a.pageCount * 4096 = b.physStart ↔ a.range.stop = b.range.start := by
    rw [← UInt64.toNat_inj, toNat_stop, Nat.mod_eq_of_lt (hle.trans_lt hlt)]
    rfl
  rw [canMerge]
  by_cases hstop : a.physStart + a.pageCount * 4096 = b.physStart
  · simp [hstop, hadj.mp hstop]
  · simp [hstop, mt hadj.mpr hstop]

lemma pageCount_merge (h : SortedMap (a :: b :: l)) (hadj : a.range.stop = b.range.start) :
    (a.merge b).pageCount.toNat = a.pageCount.toNat + b.pageCount.toNat := by
  have hfits := h.fits b (.tail _ (.head _))
  rw [range_stop_eq] at hfits hadj
  rw [show b.range.start = b.start from rfl] at hadj
  rw [merge, UInt64.toNat_add]
  apply Nat.mod_eq_of_lt
  rw [uefiPageSize] at hfits hadj
  omega

lemma range_merge (h : SortedMap (a :: b :: l)) (hadj : a.range.stop = b.range.start) :
    (a.merge b).range = ⟨a.range.start, b.range.stop⟩ := by
  have hcount := pageCount_merge h hadj
  rw [range_stop_eq, show b.range.start = b.start from rfl] at hadj
  rw [range, hcount, add_mul, ← add_assoc, range_stop_eq, ← hadj]
  rfl

lemma range_start_merge (a b : MemoryDescriptor) : (a.merge b).range.start = a.range.start := rfl

lemma closed_sortedMap : Closed canMerge merge SortedMap where
  tail a l h := (sortedMap_cons.1 h).2.2.2
  join a b l h hcan := by
    have hadj := ((canMerge_iff h).mp hcan).1
    obtain ⟨ha, -, -, hbl⟩ := sortedMap_cons.1 h
    obtain ⟨-, hb⟩ := sortedMap_cons.1 hbl
    rw [sortedMap_cons, range_merge h hadj, pageCount_merge h hadj]
    exact ⟨Nat.add_pos_left ha _, hb⟩

lemma describes_merge (h : SortedMap (a :: b :: l)) (hadj : a.range.stop = b.range.start)
    {page : Nat} : (a.merge b).Describes page ↔ a.Describes page ∨ b.Describes page := by
  have hcount := pageCount_merge h hadj
  have hstart : b.start = a.start + a.pageCount.toNat * uefiPageSize := hadj.symm
  constructor
  · rintro ⟨k, hk, rfl⟩
    rcases Nat.lt_or_ge k a.pageCount.toNat with hlt | hge
    · exact .inl ⟨k, hlt, rfl⟩
    · refine .inr ⟨k - a.pageCount.toNat, by omega, ?_⟩
      rw [hstart, add_assoc, ← add_mul, Nat.add_sub_cancel' hge]
      rfl
  · rintro (⟨k, hk, rfl⟩ | ⟨k, hk, rfl⟩)
    · exact ⟨k, by omega, rfl⟩
    · refine ⟨a.pageCount.toNat + k, by omega, ?_⟩
      rw [hstart, add_assoc, ← add_mul]
      rfl

lemma not_describes_both (hadj : a.range.stop ≤ b.range.start) {page : Nat} :
    ¬ (a.Describes page ∧ b.Describes page) := by
  rintro ⟨ha, hb⟩
  have hlt := ha.contains.2
  have hle := hb.contains.1
  omega

/-- Merging keeps the number of descriptors of one kind for a page. -/
lemma countP_merge (h : SortedMap (a :: b :: l)) (hcan : a.canMerge b) (page : Nat)
    (q : MemoryType → UInt64 → Prop) [∀ ty att, Decidable (q ty att)] :
    [a.merge b].countP (fun d => d.Describes page ∧ q d.ty d.att) =
      [a, b].countP (fun d => d.Describes page ∧ q d.ty d.att) := by
  obtain ⟨hadj, hty, hatt⟩ := (canMerge_iff h).mp hcan
  have hor : (a.merge b).Describes page ↔ a.Describes page ∨ b.Describes page :=
    describes_merge h hadj
  have hnot : ¬ (a.Describes page ∧ b.Describes page) := not_describes_both hadj.le
  have hq : q (a.merge b).ty (a.merge b).att ↔ q a.ty a.att := Iff.rfl
  by_cases ha : a.Describes page <;> by_cases hb : b.Describes page <;>
    simp_all [List.countP_cons]

end MemoryDescriptor

lemma SortedMap.joinRuns {pending : Option MemoryDescriptor} {xs : List MemoryDescriptor}
    (h : SortedMap (pending.toList ++ xs)) :
    SortedMap (joinRuns canMerge merge pending xs) := by
  induction xs generalizing pending with
  | nil => rwa [List.append_nil] at h
  | cons x xs ih =>
    cases pending with
    | none => exact ih h
    | some last =>
      rw [Lib.Merge.joinRuns]
      split_ifs with hcan
      · exact ih (closed_sortedMap.join last x xs h hcan)
      · have hrest : SortedMap (Lib.Merge.joinRuns _ _ (some x) xs) :=
          ih (closed_sortedMap.tail last (x :: xs) h)
        obtain ⟨hpos, hfits, hle, -⟩ := sortedMap_cons.1 h
        refine sortedMap_cons.2 ⟨hpos, hfits, fun d hd => ?_, hrest⟩
        obtain ⟨z, hz, hstart⟩ := exists_key_of_mem_joinRuns
          (fun d : MemoryDescriptor => d.range.start) range_start_merge hd
        rw [← hstart]
        exact hle z hz

namespace MemoryDescriptor

variable {c d : MemoryDescriptor}

lemma retype_of_usable (h : d.isUsable) : d.retype = { d with ty := .conventional } :=
  if_pos h

lemma retype_of_not_usable (h : d.isUsable = false) : d.retype = d := by
  rw [retype, if_neg]
  exact Bool.eq_false_iff.mp h

lemma range_retype (d : MemoryDescriptor) : d.retype.range = d.range := by
  rw [retype]
  split_ifs <;> rfl

lemma att_retype (d : MemoryDescriptor) : d.retype.att = d.att := by
  rw [retype]
  split_ifs <;> rfl

lemma describes_retype {page : Nat} : d.retype.Describes page ↔ d.Describes page := by
  rw [retype]
  split_ifs <;> rfl

lemma pageCount_retype (d : MemoryDescriptor) : d.retype.pageCount = d.pageCount := by
  rw [retype]
  split_ifs <;> rfl

lemma isUsable_of_conventional (hty : d.ty = .conventional) (hatt : d.isRuntime = false) :
    d.isUsable := by
  simp [isUsable, isNormal, hty, hatt]

/-- The first usable memory is not merged with anything before it. -/
lemma canMerge_usable (hc : c.isUsable = false) (hd : d.isUsable) :
    c.canMerge d.retype = false := by
  rw [Bool.eq_false_iff]
  intro hcan
  have hkind : c.ty = .conventional ∧ c.att = d.att := by
    rw [canMerge, retype_of_usable hd] at hcan
    split_ifs at hcan
    simpa using hcan
  have hruntime : c.isRuntime = false := by
    rw [isRuntime, hkind.2]
    simp only [isUsable, isNormal, Bool.and_eq_true, Bool.not_eq_true'] at hd
    exact hd.1.1
  rw [isUsable_of_conventional hkind.1 hruntime] at hc
  cases hc

end MemoryDescriptor

open MemoryDescriptor in
/-- It starts a descriptor after merging. -/
lemma exists_merged_of_find? {pending : Option MemoryDescriptor} {xs : List MemoryDescriptor}
    {d : MemoryDescriptor} (hpending : ∀ c ∈ pending, c.isUsable = false)
    (h : xs.find? isUsable = some d) :
    ∃ M ∈ joinRuns canMerge merge pending (xs.map retype), M.range.start = d.range.start := by
  induction xs generalizing pending with
  | nil => cases h
  | cons x xs ih =>
    rw [List.find?_cons] at h
    rw [List.map_cons]
    cases hx : x.isUsable with
    | true =>
      rw [hx] at h
      cases h
      obtain ⟨M, hM, hstart⟩ : ∃ M ∈ joinRuns canMerge merge (some d.retype) (xs.map retype),
          M.range.start = d.retype.range.start :=
        exists_mem_joinRuns_some (fun d : MemoryDescriptor => d.range.start) range_start_merge _ _
      rw [range_retype] at hstart
      cases pending with
      | none => exact ⟨M, hM, hstart⟩
      | some c =>
        rw [joinRuns, if_neg (Bool.eq_false_iff.mp (canMerge_usable (hpending c rfl) hx))]
        exact ⟨M, List.mem_cons_of_mem _ hM, hstart⟩
    | false =>
      rw [hx] at h
      rw [retype_of_not_usable hx]
      cases pending with
      | none => exact ih (by rintro c ⟨⟩; exact hx) h
      | some c =>
        rw [joinRuns]
        split_ifs
        · exact ih (by rintro e ⟨⟩; exact hpending c rfl) h
        · obtain ⟨M, hM, hstart⟩ : ∃ M ∈ joinRuns canMerge merge (some x) (xs.map retype),
              M.range.start = d.range.start := ih (by rintro e ⟨⟩; exact hx) h
          exact ⟨M, List.mem_cons_of_mem _ hM, hstart⟩

/-! ### The descriptor with the map -/

section Cut

variable {destPa mapPages : UInt64} {M e : MemoryDescriptor}

lemma cut_of_apart (h : e.range.stop ≤ destPa.toNat ∨ destPa.toNat < e.range.start) :
    cut destPa mapPages e = some e := by
  rw [cut, if_neg]
  simp only [Bool.and_eq_true, decide_eq_true_eq, not_and, UInt64.le_iff_toNat_le, gt_iff_lt,
    UInt64.lt_iff_toNat_lt, e.toNat_stop]
  intro hle
  rcases h with h | h
  · have hlt := destPa.toNat_lt
    rw [Nat.mod_eq_of_lt (h.trans_lt hlt)]
    exact not_lt.mpr h
  · exact absurd hle (not_le.mpr h)

/-- The descriptor that starts where the map is written. If it goes up to the end of the address
space, the code takes it for empty. -/
lemma cut_of_start (hstart : M.physStart = destPa) (hpos : 0 < M.pageCount.toNat)
    (hfits : M.range.stop ≤ 2 ^ 64) :
    (M.range.stop = 2 ^ 64 ∧ cut destPa mapPages M = some M) ∨
    (M.range.stop < 2 ^ 64 ∧ M.pageCount.toNat ≤ mapPages.toNat ∧ cut destPa mapPages M = none) ∨
    (M.range.stop < 2 ^ 64 ∧ mapPages.toNat < M.pageCount.toNat ∧ ∃ r,
      cut destPa mapPages M = some r ∧ r.start = M.start + mapPages.toNat * uefiPageSize ∧
        r.pageCount.toNat = M.pageCount.toNat - mapPages.toNat ∧ r.ty = M.ty ∧ r.att = M.att) := by
  subst hstart
  have hrange : M.range.stop = M.physStart.toNat + M.pageCount.toNat * 4096 := rfl
  rw [cut]
  simp only [UInt64.sub_self, UInt64.zero_div, UInt64.zero_add, UInt64.le_refl, decide_true,
    Bool.true_and, decide_eq_true_eq, gt_iff_lt, UInt64.lt_iff_toNat_lt, M.toNat_stop]
  rcases Nat.lt_or_eq_of_le hfits with hlt | heq
  · rw [Nat.mod_eq_of_lt hlt, if_pos (by omega)]
    right
    split_ifs with hmany
    · refine .inr ⟨hlt, hmany, _, rfl, ?_, ?_, rfl, rfl⟩
      · have hsum : M.physStart.toNat + mapPages.toNat * 4096 < 2 ^ 64 := by omega
        rw [start, UInt64.toNat_add, UInt64.toNat_mul, Nat.add_mod_mod]
        exact Nat.mod_eq_of_lt hsum
      · exact UInt64.toNat_sub_of_le _ _ (UInt64.le_iff_toNat_le.mpr hmany.le)
    · exact .inl ⟨hlt, Nat.le_of_not_lt hmany, rfl⟩
  · rw [heq, Nat.mod_self, if_neg (Nat.not_lt_zero _)]
    exact .inl ⟨rfl, rfl⟩

end Cut

/-! ### The function -/

/-- A map that the function can be called with. -/
structure MemoryMap.Valid (map : MemoryMap) : Prop where
  sorted : SortedMap map.entries
  usable : ∃ d ∈ map.kept, d.isUsable

lemma SortedMap.sublist {l l' : List MemoryDescriptor} (h : SortedMap l) (hsub : l'.Sublist l) :
    SortedMap l' :=
  ⟨fun d hd => h.nonempty d (hsub.subset hd), fun d hd => h.fits d (hsub.subset hd),
    h.sorted.sublist hsub⟩

lemma SortedMap.retype {l : List MemoryDescriptor} (h : SortedMap l) :
    SortedMap (l.map retype) := by
  constructor
  · simpa [pageCount_retype] using h.nonempty
  · simpa [range_retype] using h.fits
  · simpa [List.pairwise_map, range_retype] using h.sorted

lemma MemoryMap.Valid.sorted_kept {map : MemoryMap} (h : map.Valid) :
    SortedMap (map.kept.map retype) :=
  (h.sorted.sublist List.filter_sublist).retype

lemma MemoryMap.Valid.sorted_merged {map : MemoryMap} (h : map.Valid) : SortedMap map.merged :=
  (show SortedMap (none.toList ++ map.kept.map retype) from
    h.sorted_kept).joinRuns

/-- Both passes agree: the map goes to the start of the merged descriptor `M`, and the merged
descriptors are written one after the other, those before and after `M` as they are. -/
structure Clone.Spec (map : MemoryMap) (c : Clone) (before : List MemoryDescriptor)
    (M : MemoryDescriptor) (after : List MemoryDescriptor) : Prop where
  merged : map.merged = before ++ M :: after
  start : M.physStart = c.destPa
  finalCount : c.finalCount = map.merged.length
  mapPages : c.mapPages = (map.merged.length * map.descSize + 4095) / 4096
  writes : c.writes =
    ((before ++ (cut c.destPa (.ofNat c.mapPages) M).toList ++ after).zipIdx).map fun x =>
      (x.2 * map.descSize, ⟨x.1, .ofNat (physAddrToDmap x.1.start)⟩)
  finalMapSize : c.finalMapSize = c.writes.length * map.descSize

/-- What is left of the descriptor with the map. -/
abbrev Clone.rest (c : Clone) (M : MemoryDescriptor) : Option MemoryDescriptor :=
  cut c.destPa (.ofNat c.mapPages) M

lemma filterMap_cut_of_apart {destPa mapPages : UInt64} {l : List MemoryDescriptor}
    (h : ∀ e ∈ l, e.range.stop ≤ destPa.toNat ∨ destPa.toNat < e.range.start) :
    l.filterMap (cut destPa mapPages) = l := by
  induction l with
  | nil => rfl
  | cons e l ih =>
    rw [List.filterMap_cons_some (cut_of_apart (h e (.head _))), ih fun e he => h e (.tail _ he)]

lemma alignUpUefi_div {n : Nat} (hn : n < 2 ^ 63) :
    alignUpUefi n / uefiPageSize = (n + 4095) / 4096 := by
  have hsum : (n + 4095) % 2 ^ 64 = n + 4095 := Nat.mod_eq_of_lt (by omega)
  have hmask := and_complement_mask (x := n + 4095) 12 (by omega)
  rw [alignUpUefi, show n + uefiPageSize - 1 = n + 4095 from rfl, hsum,
    show uefiPageSize - 1 = 2 ^ 12 - 1 from rfl, hmask, show uefiPageSize = 2 ^ 12 from rfl]
  exact Nat.mul_div_cancel _ (by decide)

/-- The run of the function, through the merged descriptors. -/
lemma cloneAndProcessMmap_eq {map : MemoryMap} {d : MemoryDescriptor}
    (hd : map.kept.find? isUsable = some d) :
    let mapPages := alignUpUefi (map.merged.length * map.descSize) / uefiPageSize
    let output := map.merged.foldl (Output.punch d.physStart (.ofNat mapPages) map.descSize) {}
    cloneAndProcessMmap map = some
      { destPa := d.physStart
        finalCount := map.merged.length
        mapPages := mapPages
        writes := output.writes
        finalMapSize := output.writeI * map.descSize } := by
  intro mapPages output
  have hfirst : (map.kept.foldl Sizing.step {}).firstNormalStart = some d.physStart := by
    rw [Sizing.firstNormalStart_foldl, hd]
    rfl
  have hcount : _ = map.merged.length := Sizing.count_foldl map.kept
  have hout : finish _ _ = output :=
    Writing.finish_foldl d.physStart (.ofNat mapPages) map.descSize map.kept
  rw [cloneAndProcessMmap]
  simp only [hfirst, hcount, Option.bind_eq_bind, Option.bind_some]
  rw [← hout, finish]
  cases (map.kept.foldl (Writing.step d.physStart (.ofNat mapPages) map.descSize) {}).merged <;>
    rfl

/-- The sizes of the map are no more than the one of the original. -/
lemma MemoryMap.merged_size_lt (map : MemoryMap) : map.merged.length * map.descSize < 2 ^ 63 := by
  have hle : map.merged.length ≤ map.entries.length := by
    have hjoin : map.merged.length ≤ (none.toList ++ map.kept.map retype).length :=
      length_joinRuns_le none _
    rw [Option.toList_none, List.nil_append, List.length_map] at hjoin
    exact hjoin.trans (List.length_filter_le _ _)
  exact (Nat.mul_le_mul_right _ hle).trans_lt map.size_lt

lemma exists_clone {map : MemoryMap} (h : map.Valid) :
    ∃ c before M after, cloneAndProcessMmap map = some c ∧ c.Spec map before M after := by
  obtain ⟨u, hu, husable⟩ := h.usable
  obtain ⟨d, hd⟩ : ∃ d, map.kept.find? isUsable = some d :=
    Option.isSome_iff_exists.mp (List.find?_isSome.mpr ⟨u, hu, husable⟩)
  obtain ⟨M, hM, hstart⟩ : ∃ M ∈ map.merged, M.range.start = d.range.start :=
    exists_merged_of_find? (by rintro c ⟨⟩) hd
  obtain ⟨before, after, hmerged⟩ := List.append_of_mem hM
  have hstart' := UInt64.toNat_inj.mp hstart
  have hpages := alignUpUefi_div map.merged_size_lt
  refine ⟨_, before, M, after, cloneAndProcessMmap_eq hd, hmerged, hstart', rfl, hpages, ?_, ?_⟩
  · dsimp only
    rw [(Output.foldl_punch ..).2, List.nil_append]
    have hsorted := h.sorted_merged
    rw [hmerged] at hsorted ⊢
    obtain ⟨-, hafter, hcross⟩ := List.pairwise_append.mp hsorted.sorted
    have hpos := hsorted.nonempty M (List.mem_append_right _ (.head _))
    have hdest : M.range.start = d.physStart.toNat := congrArg UInt64.toNat hstart'
    rw [List.filterMap_append, List.filterMap_cons, filterMap_cut_of_apart (l := before) ?_,
      filterMap_cut_of_apart (l := after) ?_]
    · cases cut d.physStart (.ofNat _) M <;> simp
    · intro e he
      have hle := (List.pairwise_cons.mp hafter).1 e he
      have hstop : M.range.stop = M.range.start + M.pageCount.toNat * 4096 := rfl
      right
      omega
    · intro e he
      left
      rw [← hdest]
      exact hcross e he M (.head _)
  · dsimp only
    rw [(Output.foldl_punch ..).1, (Output.foldl_punch ..).2]
    simp

/-! ### Nothing is lost -/

/-- One of the first pages of the merged descriptor at the address of the map. -/
def Clone.InHole (map : MemoryMap) (c : Clone) (page : Nat) : Prop :=
  ∃ M ∈ map.merged, M.physStart = c.destPa ∧ M.Describes page ∧
    page < M.start + c.mapPages * uefiPageSize

/-- The number of written descriptors that describe a page. -/
def Clone.described (c : Clone) (page : Nat) : Nat :=
  c.writes.countP fun w => w.2.desc.Describes page

/-- The result describes the memory of the map. -/
structure Clone.Faithful (map : MemoryMap) (c : Clone) : Prop where
  count : c.writes.length ≤ c.finalCount
  /-- What is written comes from one descriptor. -/
  origin : ∀ w ∈ c.writes, ∀ page, w.2.desc.Describes page →
    map.entries.countP (fun d => d.Describes page) = 1 ∧
      ∃ d ∈ map.entries, d.Describes page ∧ d.ty ≠ loaderCode ∧
        w.2.desc.att = d.att ∧ w.2.desc.ty = d.retype.ty
  /-- Every page but those of the map is described once. -/
  kept : ∀ d ∈ map.entries, d.ty ≠ loaderCode → ∀ page, d.Describes page →
    ¬ c.InHole map page → c.described page = 1
  /-- The pages of the map are not, unless they are at the end of the address space. -/
  hole : ∀ M ∈ map.merged, M.physStart = c.destPa → M.range.stop < 2 ^ 64 →
    ∀ page, c.InHole map page → c.described page = 0

section Counting

variable {l : List MemoryDescriptor} {page : Nat}

lemma SortedMap.countP_le_one (h : SortedMap l) (page : Nat) :
    l.countP (fun d => d.Describes page) ≤ 1 := by
  induction l with
  | nil => exact Nat.zero_le 1
  | cons d l ih =>
    obtain ⟨-, -, hle, htail⟩ := sortedMap_cons.1 h
    rw [List.countP_cons]
    by_cases hd : d.Describes page
    · have hnone : l.countP (fun d => d.Describes page) = 0 := by
        rw [List.countP_eq_zero]
        intro e he hdesc
        exact not_describes_both (hle e he) ⟨hd, of_decide_eq_true hdesc⟩
      simp [hd, hnone]
    · simpa [hd] using ih htail

/-- Merging neither loses nor adds descriptors of a kind for a page. -/
lemma MemoryMap.Valid.countP_merged {map : MemoryMap} (h : map.Valid) (page : Nat)
    (q : MemoryType → UInt64 → Prop) [∀ ty att, Decidable (q ty att)] :
    map.merged.countP (fun d => d.Describes page ∧ q d.ty d.att) =
      map.kept.countP (fun d => d.Describes page ∧ q d.retype.ty d.att) := by
  have hcount : map.merged.countP (fun d => d.Describes page ∧ q d.ty d.att) =
      (map.kept.map retype).countP
        (fun d => d.Describes page ∧ q d.ty d.att) :=
    countP_joinRuns closed_sortedMap
      (fun a b l hl hcan => countP_merge hl hcan page q)
      (show SortedMap (none.toList ++ _) from h.sorted_kept)
  rw [hcount, List.countP_map]
  congr 1
  funext d
  simp [describes_retype, att_retype]

end Counting

namespace Clone.Spec

variable {map : MemoryMap} {c : Clone} {before after : List MemoryDescriptor}
  {M : MemoryDescriptor} {page : Nat}

section

variable (h : c.Spec map before M after)

include h

lemma map_desc : c.writes.map (·.2.desc) = before ++ (c.rest M).toList ++ after := by
  rw [h.writes, List.map_map]
  exact List.zipIdx_map_fst 0 _

lemma mem_merged : M ∈ map.merged := by
  rw [h.merged]
  exact List.mem_append_right _ (.head _)

/-- No other merged descriptor has the address of the map. -/
lemma eq_of_contains (hv : map.Valid) {M' : MemoryDescriptor}
    (hM' : M' ∈ map.merged) (hstart : M'.range.Contains M.range.start) : M' = M := by
  have hsorted := hv.sorted_merged
  have hpos := hsorted.nonempty M h.mem_merged
  have hstop : M.range.stop = M.range.start + M.pageCount.toNat * 4096 := rfl
  obtain ⟨hle, hlt⟩ := hstart
  rw [h.merged] at hM' hsorted
  obtain ⟨-, hafter, hcross⟩ := List.pairwise_append.mp hsorted.sorted
  rcases List.mem_append.mp hM' with hmem | hmem
  · have hapart := hcross M' hmem M (.head _)
    omega
  · rcases List.mem_cons.mp hmem with rfl | hmem
    · rfl
    · have hapart := (List.pairwise_cons.mp hafter).1 M' hmem
      omega

lemma eq_of_start (hv : map.Valid) {M' : MemoryDescriptor}
    (hM' : M' ∈ map.merged) (hstart : M'.physStart = c.destPa) : M' = M := by
  apply h.eq_of_contains hv hM'
  have hpos := hv.sorted_merged.nonempty M' hM'
  have hsame : M.range.start = M'.start := by
    rw [range, h.start, ← hstart]
    rfl
  rw [hsame]
  exact MemoryDescriptor.Describes.contains ⟨0, hpos, by simp⟩

lemma toNat_mapPages : (UInt64.ofNat c.mapPages).toNat = c.mapPages := by
  have hlt := map.merged_size_lt
  rw [UInt64.toNat_ofNat']
  apply Nat.mod_eq_of_lt
  rw [h.mapPages]
  omega

lemma inHole_iff (hv : map.Valid) :
    c.InHole map page ↔ M.Describes page ∧ page < M.start + c.mapPages * uefiPageSize := by
  constructor
  · rintro ⟨M', hM', hstart, hdesc⟩
    rwa [h.eq_of_start hv hM' hstart] at hdesc
  · rintro ⟨hdesc, hlt⟩
    exact ⟨M, h.mem_merged, h.start, hdesc, hlt⟩

lemma cut_cases (hv : map.Valid) :
    (M.range.stop = 2 ^ 64 ∧ c.rest M = some M) ∨
    (M.range.stop < 2 ^ 64 ∧ M.pageCount.toNat ≤ c.mapPages ∧ c.rest M = none) ∨
    (M.range.stop < 2 ^ 64 ∧ c.mapPages < M.pageCount.toNat ∧ ∃ r,
      c.rest M = some r ∧
        r.start = M.start + c.mapPages * uefiPageSize ∧
        r.pageCount.toNat = M.pageCount.toNat - c.mapPages ∧ r.ty = M.ty ∧ r.att = M.att) := by
  have hsorted := hv.sorted_merged
  rw [← h.toNat_mapPages]
  exact cut_of_start h.start (hsorted.nonempty M h.mem_merged) (hsorted.fits M h.mem_merged)

/-- Something is left of the descriptor, of the same kind. Its pages are the ones of the descriptor
without the first ones. -/
lemma of_cut (hv : map.Valid) {r : MemoryDescriptor} (hr : c.rest M = some r) :
    r.ty = M.ty ∧ r.att = M.att ∧ (r.Describes page → M.Describes page) ∧
      (M.Describes page → ¬ c.InHole map page → r.Describes page) ∧
      (M.range.stop < 2 ^ 64 → c.InHole map page → ¬ r.Describes page) := by
  rw [h.inHole_iff hv]
  rcases h.cut_cases hv with
    ⟨hstop, hcut⟩ | ⟨-, -, hcut⟩ | ⟨-, hlt, r', hcut, hstart, hcount, hkind⟩
  · rw [hcut] at hr
    cases hr
    exact ⟨rfl, rfl, id, fun hdesc _ => hdesc, fun hlt => absurd hstop hlt.ne⟩
  · rw [hcut] at hr
    cases hr
  · rw [hcut] at hr
    cases hr
    refine ⟨hkind.1, hkind.2, ?_, ?_, ?_⟩
    · rintro ⟨k, hk, rfl⟩
      refine ⟨c.mapPages + k, by omega, ?_⟩
      rw [hstart, add_assoc, ← add_mul]
    · rintro ⟨k, hk, rfl⟩ hhole
      have hge : c.mapPages ≤ k := by
        by_contra hlt'
        refine hhole ⟨⟨k, hk, rfl⟩, Nat.add_lt_add_left ?_ _⟩
        exact Nat.mul_lt_mul_of_pos_right (Nat.lt_of_not_le hlt') (by decide)
      refine ⟨k - c.mapPages, by omega, ?_⟩
      rw [hstart, add_assoc, ← add_mul, Nat.add_sub_cancel' hge]
    · rintro - ⟨-, hpage⟩ hr
      have hle : r.start ≤ page := hr.contains.1
      rw [hstart] at hle
      exact not_le.mpr hpage hle

/-- If nothing is left, all pages of the descriptor are in the hole. -/
lemma inHole_of_cut (hv : map.Valid) (hcut : c.rest M = none) (hpage : M.Describes page) :
    c.InHole map page := by
  rcases h.cut_cases hv with ⟨-, hsome⟩ | ⟨-, hle, -⟩ | ⟨-, -, r, hsome, -⟩
  · rw [hcut] at hsome
    cases hsome
  · refine (h.inHole_iff hv).mpr ⟨hpage, ?_⟩
    obtain ⟨k, hk, rfl⟩ := hpage
    refine Nat.add_lt_add_left ?_ _
    exact Nat.mul_lt_mul_of_pos_right (hk.trans_le hle) (by decide)
  · rw [hcut] at hsome
    cases hsome

lemma described_eq (page : Nat) : c.described page =
    before.countP (fun d => d.Describes page) +
      (c.rest M).toList.countP (fun d => d.Describes page) +
      after.countP (fun d => d.Describes page) := by
  have hcount : c.described page = (c.writes.map (·.2.desc)).countP fun d => d.Describes page := by
    rw [List.countP_map]
    rfl
  rw [hcount, h.map_desc, List.countP_append, List.countP_append]

lemma countP_merged_eq (page : Nat) :
    map.merged.countP (fun d => d.Describes page) =
      before.countP (fun d => d.Describes page) + (if M.Describes page then 1 else 0) +
        after.countP (fun d => d.Describes page) := by
  rw [h.merged, List.countP_append, List.countP_cons]
  simp only [decide_eq_true_eq]
  omega

/-- A page is described as often as by the merged descriptors, if it is not in the hole. -/
lemma described_of_not_inHole (hv : map.Valid)
    (hhole : ¬ c.InHole map page) :
    c.described page = map.merged.countP fun d => d.Describes page := by
  rw [h.described_eq, h.countP_merged_eq]
  cases hcut : c.rest M with
  | none =>
    have hnot : ¬ M.Describes page := fun hpage => hhole (h.inHole_of_cut hv hcut hpage)
    simp [hnot]
  | some r =>
    obtain ⟨-, -, hle, hge, -⟩ := h.of_cut hv hcut
    have hiff : r.Describes page ↔ M.Describes page := ⟨hle, fun hpage => hge hpage hhole⟩
    simp [hiff, List.countP_cons]

lemma described_of_inHole (hv : map.Valid)
    (hstop : M.range.stop < 2 ^ 64) (hhole : c.InHole map page) : c.described page = 0 := by
  have hle := hv.sorted_merged.countP_le_one page
  rw [h.countP_merged_eq, if_pos ((h.inHole_iff hv).mp hhole).1] at hle
  have hcut : (c.rest M).toList.countP (fun d => d.Describes page) = 0 := by
    cases hcut : c.rest M with
    | none => rfl
    | some r =>
      have hnot := (h.of_cut hv hcut).2.2.2.2 hstop hhole
      simp [hnot]
  rw [h.described_eq, hcut]
  omega

lemma exists_merged (hv : map.Valid) {w : Nat × Relocated}
    (hw : w ∈ c.writes) (hpage : w.2.desc.Describes page) :
    ∃ e ∈ map.merged, e.Describes page ∧ e.ty = w.2.desc.ty ∧ e.att = w.2.desc.att := by
  have hmem : w.2.desc ∈ c.writes.map (·.2.desc) := List.mem_map.mpr ⟨w, hw, rfl⟩
  rw [h.map_desc, List.mem_append, List.mem_append, Option.mem_toList] at hmem
  rcases hmem with (hmem | hcut) | hmem
  · exact ⟨_, h.merged ▸ List.mem_append_left _ hmem, hpage, rfl, rfl⟩
  · obtain ⟨hty, hatt, hdesc, -⟩ := h.of_cut hv hcut
    exact ⟨M, h.mem_merged, hdesc hpage, hty.symm, hatt.symm⟩
  · exact ⟨_, h.merged ▸ List.mem_append_right _ (.tail _ hmem), hpage, rfl, rfl⟩

lemma faithful (hv : map.Valid) : c.Faithful map where
  count := by
    have hlen := congrArg List.length h.map_desc
    have hone : (c.rest M).toList.length ≤ 1 := by
      cases c.rest M <;> simp
    rw [List.length_map, List.length_append, List.length_append] at hlen
    rw [h.finalCount, h.merged, List.length_append, List.length_cons]
    omega
  origin := by
    intro w hw page hpage
    obtain ⟨e, he, hdesc, hty, hatt⟩ := h.exists_merged hv hw hpage
    have hcount := hv.countP_merged page fun ty att => ty = e.ty ∧ att = e.att
    have hpos : 0 < map.merged.countP
        (fun d => d.Describes page ∧ d.ty = e.ty ∧ d.att = e.att) :=
      List.countP_pos_iff.mpr ⟨e, he, by simp [hdesc]⟩
    rw [hcount] at hpos
    obtain ⟨d, hd, hkind⟩ := List.countP_pos_iff.mp hpos
    obtain ⟨hd, hcode⟩ := List.mem_filter.mp hd
    obtain ⟨hdpage, hdty, hdatt⟩ := of_decide_eq_true hkind
    refine ⟨le_antisymm (hv.sorted.countP_le_one page) ?_, d, hd, hdpage, ?_, ?_, ?_⟩
    · exact List.countP_pos_iff.mpr ⟨d, hd, decide_eq_true hdpage⟩
    · simpa using hcode
    · rw [← hatt, hdatt]
    · rw [← hty, hdty]
  kept := by
    intro d hd hcode page hpage hhole
    rw [h.described_of_not_inHole hv hhole]
    have hmem : d ∈ map.kept := List.mem_filter.mpr ⟨hd, by simpa using hcode⟩
    have hcount := hv.countP_merged page fun _ _ => True
    simp only [and_true] at hcount
    refine le_antisymm (hv.sorted_merged.countP_le_one page) ?_
    rw [hcount]
    exact List.countP_pos_iff.mpr ⟨d, hmem, decide_eq_true hpage⟩
  hole := by
    intro M' hM' hstart hstop page hhole
    rw [h.eq_of_start hv hM' hstart] at hstop
    exact h.described_of_inHole hv hstop hhole

end

end Clone.Spec

/-- Merging and relocating the map loses nothing but the pages of the map itself, and adds
nothing. -/
theorem exists_clone_faithful {map : MemoryMap} (hv : map.Valid) :
    ∃ c, cloneAndProcessMmap map = some c ∧ c.Faithful map := by
  obtain ⟨c, before, M, after, hrun, hspec⟩ := exists_clone hv
  exact ⟨c, hrun, hspec.faithful hv⟩

/-- Two adjacent descriptors of normal memory, one of code of the loader and one of data of the boot
services. -/
def smallMap : MemoryMap where
  entries :=
    [⟨.bootServicesCode, 0x1000, 2, 0⟩, ⟨.conventional, 0x3000, 4, 0⟩, ⟨loaderCode, 0x7000, 1, 0⟩,
      ⟨.bootServicesData, 0x8000, 1, 0⟩]
  descSize := 48
  size_lt := by decide

theorem exists_clone_faithful_smallMap : smallMap.Valid ∧
    ∃ c, cloneAndProcessMmap smallMap = some c ∧ c.Faithful smallMap := by
  have hv : smallMap.Valid := by
    refine ⟨⟨?_, ?_, ?_⟩, ?_⟩ <;> decide
  exact ⟨hv, exists_clone_faithful hv⟩

end Mars.Earlyinit
