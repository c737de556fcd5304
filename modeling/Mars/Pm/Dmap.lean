import Mars.Pm.Basic

/-!
# The direct map

When the direct map is set up, `transition_dmap` replaces all pointers of the allocator by their
images from `dmapStart` on, and from then on it works at the new addresses. The memory of a state is
what is seen at the addresses the allocator uses, so the transition first looks at the memory
through the direct map.
-/

namespace Mars.Pm

open Lib Lib.Bits Lib.DList Vm Mem

/-! ### Addresses -/

def dmapStart : Nat := 0xFFFF <<< 48

def physAddrToDmap (physAddr : Nat) : Nat :=
  if isKernelAddress physAddr then physAddr else physAddr ||| dmapStart

def dmapAddrToPhys (dmapAddr : Nat) : Nat := dmapAddr &&& complement dmapStart

/-- The null pointer stays. -/
def toDmap (ptr : Nat) : Nat := if ptr = 0 then 0 else physAddrToDmap ptr

/-- The memory that is seen if the highest 16 bits of addresses do not count. -/
def atDmap (m : Mem) : Mem := fun a => m (dmapAddrToPhys a)

/-! ### `transition_dmap` -/

/-- The pointers in the header of a zone are replaced by their images. -/
def transitionZone (m : Mem) (zone : Nat) : Mem :=
  let m := m.setWord zone (toDmap (zoneMetaArray m zone))
  let m := m.setWord (zone + 8) (toDmap (zoneDataBase m zone))
  m.setWord (zone + 24) (toDmap (zoneNext m zone))

/-- The loop over the zones. A zone is accessed at its image. -/
def transitionZones : (fuel : Nat) → Mem → (currentZonePhys : Nat) → Except Panic Mem
  | 0,        _, _               => .error .diverges
  | fuel + 1, m, currentZonePhys =>
    if currentZonePhys = 0 then .ok m
    else
      let currentZoneDmap := toDmap currentZonePhys
      let nextZone := zoneNext m currentZoneDmap
      transitionZones fuel (transitionZone m currentZoneDmap) nextZone

/-- The pointers in a block are replaced by their images. -/
def transitionBlock (m : Mem) (block : Nat) : Mem :=
  let m := m.setWord (block + 16) (toDmap (blockZone m block))
  let m := setNext m block (toDmap (next m block))
  setPrev m block (toDmap (prev m block))

def transitionBlocks : (fuel : Nat) → Mem → (currentBlockPhys : Nat) → Except Panic Mem
  | 0,        _, _                => .error .diverges
  | fuel + 1, m, currentBlockPhys =>
    if currentBlockPhys = 0 then .ok m
    else
      let currentBlockDmap := toDmap currentBlockPhys
      let nextBlock := next m currentBlockDmap
      transitionBlocks fuel (transitionBlock m currentBlockDmap) nextBlock

namespace State

def transitionArea (fuel : Nat) (s : State) (order : Nat) : Except Panic State := do
  let m ← transitionBlocks fuel s.mem (s.freeArea order)
  .ok { s with
    freeArea := Function.update s.freeArea order (toDmap (s.freeArea order))
    mem := m }

def transitionAreas (fuel : Nat) : (n : Nat) → State → Except Panic State
  | 0,     s => .ok s
  | n + 1, s => do
    let s ← transitionArea fuel s (maxOrder - (n + 1))
    transitionAreas fuel n s

def transitionDmap (debug : Bool) (fuel : Nat) (s : State) : Except Panic State :=
  if debug && s.isDmap then .error .alreadyDmap
  else do
    let m ← transitionZones fuel (atDmap s.mem) s.zoneHead
    let s ← transitionAreas fuel maxOrder
      { s with
        lowestAddress := toDmap s.lowestAddress
        zoneHead := toDmap s.zoneHead
        mem := m }
    .ok { s with isDmap := true }

/-! ### Queries -/

/-- The loop over the zones in `overlapping_range`, for the range from `start` to `stop`. -/
def overlappingFrom (debug : Bool) (m : Mem) (start stop : Nat) :
    (fuel zone : Nat) → Except Panic (Option (Nat × Nat))
  | 0,        _    => .error .diverges
  | fuel + 1, zone =>
    if dmapAddrToPhys zone ≠ 0 then do
      let zoneStart := dmapAddrToPhys (zoneMetaArray m zone)
      let zoneStop := dmapAddrToPhys (← zoneEnd debug m zone)
      if start < zoneStop ∧ zoneStart < stop then .ok (some (zoneStart, zoneStop))
      else overlappingFrom debug m start stop fuel (zoneNext m zone)
    else .ok none

def overlappingRange (debug : Bool) (fuel : Nat) (s : State) (start stop : Nat) :
    Except Panic (Option (Nat × Nat)) :=
  if stop ≤ start then .ok none else overlappingFrom debug s.mem start stop fuel s.zoneHead

/-- The loop over the zones in `max_address`. -/
def maxAddressFrom (debug : Bool) (m : Mem) : (fuel head max : Nat) → Except Panic Nat
  | 0,        _,    _   => .error .diverges
  | fuel + 1, head, max =>
    if head = 0 then .ok max
    else do
      let stop ← zoneEnd debug m head
      maxAddressFrom debug m fuel (zoneNext m head) (if max < stop then stop else max)

def maxAddress (debug : Bool) (fuel : Nat) (s : State) : Except Panic Nat :=
  maxAddressFrom debug s.mem fuel s.zoneHead 0

def minAddress (s : State) : Nat := s.lowestAddress

end State

/-! ### Facts about addresses -/

section Addresses

variable {a i n : Nat} {m : Mem}

lemma dmapStart_eq : dmapStart = 2 ^ 64 - 2 ^ 48 := by decide

lemma isKernelAddress_of_lt (ha : a < 2 ^ 48) : isKernelAddress a = false := by
  have hshift : a >>> 48 = 0 := by
    rw [Nat.shiftRight_eq_div_pow]
    exact Nat.div_eq_of_lt ha
  rw [isKernelAddress, hshift]
  rfl

lemma isKernelAddress_add (ha : a < 2 ^ 48) : isKernelAddress (a + dmapStart) = true := by
  have hshift : (a + dmapStart) >>> 48 = 0xFFFF := by
    rw [Nat.shiftRight_eq_div_pow, dmapStart]
    omega
  rw [isKernelAddress, hshift]
  rfl

lemma physAddrToDmap_of_lt (ha : a < 2 ^ 48) : physAddrToDmap a = a + dmapStart := by
  rw [physAddrToDmap, isKernelAddress_of_lt ha, if_neg Bool.false_ne_true, Nat.or_comm, dmapStart,
    ← Nat.shiftLeft_add_eq_or_of_lt ha, add_comm]

lemma toDmap_zero : toDmap 0 = 0 := rfl

lemma toDmap_of_lt (hpos : a ≠ 0) (ha : a < 2 ^ 48) : toDmap a = a + dmapStart := by
  rw [toDmap, if_neg hpos, physAddrToDmap_of_lt ha]

lemma dmapAddrToPhys_eq (a : Nat) : dmapAddrToPhys a = a % 2 ^ 48 := by
  rw [dmapAddrToPhys, show complement dmapStart = 2 ^ 48 - 1 by decide,
    Nat.and_two_pow_sub_one_eq_mod]

lemma dmapAddrToPhys_of_lt (ha : a < 2 ^ 48) : dmapAddrToPhys a = a := by
  rw [dmapAddrToPhys_eq, Nat.mod_eq_of_lt ha]

lemma dmapAddrToPhys_add (ha : a < 2 ^ 48) : dmapAddrToPhys (a + dmapStart) = a := by
  rw [dmapAddrToPhys_eq, dmapStart_eq]
  omega

lemma dmapAddrToPhys_toDmap (ha : a < 2 ^ 48) : dmapAddrToPhys (toDmap a) = a := by
  by_cases hpos : a = 0
  · rw [hpos]
    rfl
  · rw [toDmap_of_lt hpos ha, dmapAddrToPhys_add ha]

lemma toDmap_lt (ha : a < 2 ^ 48) : toDmap a < 2 ^ 64 := by
  by_cases hpos : a = 0
  · rw [hpos]
    decide
  · rw [toDmap_of_lt hpos ha, dmapStart_eq]
    omega

lemma atDmap_add (ha : a < 2 ^ 48) : atDmap m (a + dmapStart) = m a := by
  rw [atDmap, dmapAddrToPhys_add ha]

end Addresses

/-! ### One round of the loops -/

section Rounds

variable {m : Mem} {a zone block : Nat}

lemma transitionZone_apply (ha : a < zone ∨ zone + zoneSize ≤ a) :
    transitionZone m zone a = m a := by
  rw [zoneSize] at ha
  simp only [transitionZone]
  rw [setWord_of_outside (by omega), setWord_of_outside (by omega),
    setWord_of_outside (by omega)]

lemma transitionZone_fields (m : Mem) (zone : Nat)
    (hmeta : toDmap (zoneMetaArray m zone) < 2 ^ 64)
    (hdata : toDmap (zoneDataBase m zone) < 2 ^ 64) (hnext : toDmap (zoneNext m zone) < 2 ^ 64) :
    zoneMetaArray (transitionZone m zone) zone = toDmap (zoneMetaArray m zone) ∧
    zoneDataBase (transitionZone m zone) zone = toDmap (zoneDataBase m zone) ∧
    zoneTotalPages (transitionZone m zone) zone = zoneTotalPages m zone ∧
    zoneNext (transitionZone m zone) zone = toDmap (zoneNext m zone) := by
  simp only [transitionZone, zoneMetaArray, zoneDataBase, zoneTotalPages, zoneNext] at *
  rw [word_setWord_of_disjoint (a := zone + 8) (b := zone) (by omega),
    word_setWord_of_disjoint (a := zone + 24) (b := zone + 8) (by omega),
    word_setWord_of_disjoint (a := zone + 24) (b := zone) (by omega)]
  refine ⟨?_, ?_, ?_, word_setWord hnext⟩
  · rw [word_setWord_of_disjoint (by omega), word_setWord_of_disjoint (by omega),
      word_setWord hmeta]
  · rw [word_setWord_of_disjoint (by omega), word_setWord hdata]
  · rw [word_setWord_of_disjoint (by omega), word_setWord_of_disjoint (by omega),
      word_setWord_of_disjoint (by omega)]

lemma transitionBlock_apply (ha : a < block ∨ block + 24 ≤ a) :
    transitionBlock m block a = m a := by
  simp only [transitionBlock, setPrev, setNext]
  rw [setWord_of_outside (by omega), setWord_of_outside (by omega),
    setWord_of_outside (by omega)]

lemma transitionBlock_fields (m : Mem) (block : Nat)
    (hnext : toDmap (next m block) < 2 ^ 64)
    (hprev : toDmap (prev m block) < 2 ^ 64) (hzone : toDmap (blockZone m block) < 2 ^ 64) :
    next (transitionBlock m block) block = toDmap (next m block) ∧
    prev (transitionBlock m block) block = toDmap (prev m block) ∧
    blockZone (transitionBlock m block) block = toDmap (blockZone m block) := by
  simp only [transitionBlock, setPrev, setNext, next, prev, blockZone] at *
  rw [word_setWord_of_disjoint (a := block) (b := block + 16) (by omega),
    word_setWord_of_disjoint (a := block + 8) (b := block) (by omega),
    word_setWord_of_disjoint (a := block + 8) (b := block + 16) (by omega)]
  refine ⟨?_, word_setWord hprev, ?_⟩
  · rw [word_setWord_of_disjoint (by omega), word_setWord hnext]
  · rw [word_setWord_of_disjoint (by omega), word_setWord_of_disjoint (by omega),
      word_setWord hzone]

end Rounds

end Mars.Pm
