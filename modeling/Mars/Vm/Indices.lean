import Mars.Vm.Status

/-!
# The two index functions

A cursor selects entries by `entry_index`, the mapper by `calculate_index`. At the root the mapper
looks at bit 47 alone and the cursor at eleven bits, so in the kernel half of the address space they
are at different entries: the cursor never finds the tables that `map_page` has filled.
-/

namespace Mars.Vm

open Paging Lib.NodeTree

variable {AP SH X : Type}

/-! ### Addresses -/

variable {va : UInt64}

/-- Bits 48 to 63 are all zero or all one. -/
def Canonical (va : UInt64) : Prop := va.toNat < 2 ^ 48 ∨ 0xffff * 2 ^ 48 ≤ va.toNat

/-- The index functions agree at every level, which the mapper counts from the root. -/
def SameIndices (va : UInt64) : Prop := ∀ l ≤ 3, entryIndex va (3 - l) = calculateIndex va l

lemma entryIndex_below_root (va : UInt64) {l : Nat} (hl : l ≤ 3) (hne : l ≠ 0) :
    entryIndex va (3 - l) = calculateIndex va l := by
  match l, hl, hne with
  | 1, _, _ => rfl
  | 2, _, _ => rfl
  | 3, _, _ => rfl

lemma entryIndex_root_eq_iff (hva : Canonical va) :
    entryIndex va 3 = calculateIndex va 0 ↔ va.toNat < 2 ^ 48 := by
  have hlt := va.toNat_lt
  simp only [entryIndex, calculateIndex, pageShift, Fin.mk.injEq]
  rcases hva with hva | hva
  · omega
  · omega

lemma sameIndices_iff (hva : Canonical va) : SameIndices va ↔ va.toNat < 2 ^ 48 := by
  rw [← entryIndex_root_eq_iff hva]
  constructor
  · intro h
    exact h 0 (Nat.zero_le 3)
  · intro h l hl
    by_cases hroot : l = 0
    · subst hroot
      exact h
    · exact entryIndex_below_root va hl hroot

/-! ### Ranges -/

variable {start stop : UInt64}

/-- A range of addresses in one half of the address space. -/
def CanonicalRange (start stop : UInt64) : Prop :=
  start < stop ∧ (stop.toNat ≤ 2 ^ 48 ∨ 0xffff * 2 ^ 48 ≤ start.toNat)

lemma CanonicalRange.canonical (h : CanonicalRange start stop) (hle : start ≤ va) (hlt : va < stop)
    : Canonical va := by
  rw [UInt64.le_iff_toNat_le] at hle
  rw [UInt64.lt_iff_toNat_lt] at hlt
  rcases h.2 with hstop | hstart
  · exact .inl (by omega)
  · exact .inr (by omega)

variable {s : AddressSpace X} {B : s.allocator.Spec} {h h' : UserHeap AP SH X} {r : UInt64}
  {c : Cursor}

/-- What a `Cursor::map` that mapped the range to `pa` and the pages after it should leave
behind, at each address of the range. -/
structure Cursor.Records (s : AddressSpace X) (r : UInt64) (c : Cursor) (pa : UInt64) (access : AP)
    (h' : UserHeap AP SH X) (va : UInt64) : Prop where
  index : SameIndices va
  /-- `update_leaf_meta` and `query` end at the table that `map_page` wrote to. -/
  table : Cursor.leafTable s h' va c.coveringLevel c.coveringPa =
    .ok ((h'.tableAt s.translator r (pathOf va)).map s.translator.dmapToPhys)
  status : va.toNat % pageSize = 0 →
    c.query s .none h' va = .ok (.mapped (pa + (va - c.start)) access)

lemma Cursor.Valid.leafTable_eq_pathOf (hc : c.Valid s r h) (hI : h.Inv B.user r)
    (hva : c.Contains va) :
    Cursor.leafTable s h va c.coveringLevel c.coveringPa =
      .ok ((h.tableAt s.translator r (pathOf va)).map s.translator.dmapToPhys) := by
  obtain ⟨t, ht, hpa⟩ := hc.covering
  rw [← hc.spans va hva] at ht
  rw [hpa, leafTable_eq hI hc.level_le ht, route_eq (hc.toNat_lt hva)]

/-! ### Ranges of both halves -/

/-- A `Cursor::map` over a canonical range finds the tables of the mapper and records its status
at every address of the range exactly if the range is in the user half. -/
theorem Cursor.records_iff [Inhabited AP] [Inhabited SH] (B : s.allocator.Spec)
    (hroot : s.root = some r) (hlevel : s.maxLevel = 3) (hI : h.Inv B.user r)
    {start stop pa : UInt64} {attrs : Attributes AP SH} (hrange : CanonicalRange start stop)
    (hstart : start.toNat % pageSize = 0) (hstop : stop.toNat % pageSize = 0)
    (hlock : s.lock h start stop = .ok c) (hmap : c.map s .none h pa attrs = .ok h') :
    (∀ va, Canonical va → (SameIndices va ↔ va.toNat < 2 ^ 48)) ∧
      ((∀ va, start ≤ va → va < stop → c.Records s r pa attrs.access h' va) ↔
        stop.toNat ≤ 2 ^ 48) := by
  refine ⟨fun va hva => sameIndices_iff hva, ?_, ?_⟩
  · intro hall
    have hrec := hall start (UInt64.le_refl start) hrange.1
    have hcanon := hrange.canonical (UInt64.le_refl start) hrange.1
    have hlt := (sameIndices_iff hcanon).1 hrec.index
    rcases hrange.2 with hstop | hstart
    · exact hstop
    · omega
  · intro huser va hle hlt
    obtain ⟨c', hc', rfl, rfl, hvalid⟩ := s.lock_spec hI hroot hlevel huser start
    rw [hlock] at hc'
    cases hc'
    have hva : c.Contains va := ⟨hle, hlt⟩
    have ha : c.Aligned := ⟨hstart, hstop⟩
    have hperforms := hvalid.map_performs hI ha hroot pa attrs
    rw [hmap] at hperforms
    have hcorrect := hperforms.correct hvalid hI ha hroot hlevel trivial
    refine ⟨?_, hperforms.valid.leafTable_eq_pathOf hperforms.inv hva, ?_⟩
    · exact (sameIndices_iff (hrange.canonical hle hlt)).2 (hvalid.toNat_lt hva)
    · exact hcorrect.inside va hva

lemma sampleCursor_map : ∃ h', sampleCursor.map sampleSpace .none sampleHeap 0x80000
    ⟨true, true, false, false, 1⟩ = .ok h' := by
  have hloop : ∃ x, forPages (sampleCursor.mapStep sampleSpace .none ⟨true, true, false, false, 1⟩)
      sampleCursor.steps sampleCursor.start (0x80000, sampleHeap) = .ok x := ⟨_, rfl⟩
  obtain ⟨x, hx⟩ := hloop
  refine ⟨x.2, ?_⟩
  rw [Cursor.map, hx]
  rfl

theorem Cursor.records_sample : ∃ h', sampleCursor.map sampleSpace .none sampleHeap 0x80000
    ⟨true, true, false, false, 1⟩ = .ok h' ∧
      sampleCursor.Records sampleSpace 0x4000 0x80000 true h' 0x8000 := by
  obtain ⟨h', hmap⟩ := sampleCursor_map
  have hrange : CanonicalRange 0x4000 0xc000 := ⟨by decide, .inl (by decide)⟩
  have hiff := (Cursor.records_iff sampleSpec rfl rfl sampleHeap_inv hrange (by decide)
    (by decide) sampleSpace_lock hmap).2
  exact ⟨h', hmap, hiff.2 (by decide) 0x8000 (by decide) (by decide)⟩

/-- The first page of the kernel half is mapped. The page table leads to it, and the cursor that
mapped it reports it as invalid. -/
theorem Cursor.kernel_page_not_recorded :
    entryIndex 0xffff800000000000 3 = 2047 ∧ calculateIndex 0xffff800000000000 0 = 1 ∧
      (do
        let c ← sampleSpace.lock sampleHeap 0xffff800000000000 0xffff800000004000
        let h ← c.map sampleSpace .none sampleHeap 0x80000 ⟨true, true, false, false, 1⟩
        let status ← c.query sampleSpace .none h 0xffff800000000000
        Except.ok (h.walk identity 0x4000 0xffff800000000000, status)) =
      .ok (some ⟨0x80000, ⟨true, true, false, false, 1⟩⟩, .invalid) := by
  decide +kernel

end Mars.Vm
