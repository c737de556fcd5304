import Mars.Lib.PowerMask
import Mars.Pcie.Ecam

/-!
# Base address registers

Embedding of `pcie/src/bar.rs`. A slot is probed by writing ones to it and reading back which bits
are kept. What kind of BAR it is follows from the value before, its size from the value read back.
-/

namespace Mars.Pcie

open Lib Function

inductive BarType where
  | memory32 (address size : BitVec 32) (prefetchable : Bool)
  | memory64 (address size : BitVec 64) (prefetchable : Bool)
  | io (address size : BitVec 32)
deriving DecidableEq

/-- The kind of a slot with the values that were read from it. -/
inductive Slot where
  | io (original mask : BitVec 32)
  | memory32 (original mask : BitVec 32)
  | memory64 (original mask originalHigh maskHigh : BitVec 32)
  | skipped
deriving DecidableEq

namespace Slot

/-- Two registers as one of 64 bits. -/
def join (high low : BitVec 32) : BitVec 64 :=
  (high.setWidth 64 <<< 32) ||| (low.setWidth 64 &&& 0xFFFFFFF0)

/-- The entry that is pushed for a slot. -/
def bar : Slot → Option BarType
  | io original mask =>
    if mask = 0 ∨ mask = ~~~0 then none
    else some (.io (original &&& 0xFFFFFFFC) (~~~(mask &&& 0xFFFFFFFC) + 1))
  | memory32 original mask =>
    if mask = 0 ∨ mask = ~~~0 then none
    else
      let prefetchable := (original >>> 3) &&& 0x1 != 0
      some (.memory32 (original &&& 0xFFFFFFF0) (~~~(mask &&& 0xFFFFFFF0) + 1) prefetchable)
  | memory64 original mask originalHigh maskHigh =>
    let rawMask := join maskHigh mask
    if rawMask = 0 then none
    else
      let prefetchable := (original >>> 3) &&& 0x1 != 0
      some (.memory64 (join originalHigh original) (~~~rawMask + 1) prefetchable)
  | skipped => none

end Slot

def cmdRegOffset : Nat := 0x04

section Probe

variable {σ : Type} (cs : ConfigSpace σ) (ecam : Ecam) (bdf : Bdf)

/-- The value of a slot and the bits of it that can be written. -/
def probeRegister (s : σ) (offset : Nat) : Except Panic ((BitVec 32 × BitVec 32) × σ) := do
  let original ← ecam.readU32 cs s bdf offset
  let s ← ecam.writeU32 cs s bdf offset 0xFFFFFFFF
  let mask ← ecam.readU32 cs s bdf offset
  let s ← ecam.writeU32 cs s bdf offset original
  .ok ((original, mask), s)

/-- The loop over the slots. A round takes one or two of the six slots, so there are six rounds
at most. -/
def probeSlots : (rounds barI : Nat) → σ → Except Panic (List Slot × σ)
  | 0, _, s => .ok ([], s)
  | rounds + 1, barI, s =>
    if barI < 6 then do
      let offset := 0x10 + barI * 4
      let ((original, mask), s) ← probeRegister cs ecam bdf s offset
      let typeBits := (original >>> 1) &&& 0x3
      if original &&& 0x1 ≠ 0 then do
        let (slots, s) ← probeSlots rounds (barI + 1) s
        .ok (.io original mask :: slots, s)
      else if typeBits = 0 then do
        let (slots, s) ← probeSlots rounds (barI + 1) s
        .ok (.memory32 original mask :: slots, s)
      else if typeBits = 2 then
        if 5 ≤ barI then do
          let (slots, s) ← probeSlots rounds (barI + 1) s
          .ok (.skipped :: slots, s)
        else do
          let ((originalHigh, maskHigh), s) ← probeRegister cs ecam bdf s (offset + 4)
          let (slots, s) ← probeSlots rounds (barI + 2) s
          .ok (.memory64 original mask originalHigh maskHigh :: slots, s)
      else do
        let (slots, s) ← probeSlots rounds (barI + 1) s
        .ok (.skipped :: slots, s)
    else .ok ([], s)

/-- The command register is restored by its guard. -/
def probeBars (s : σ) : Except Panic (List BarType × σ) := do
  let originalCommand ← ecam.readU16 cs s bdf cmdRegOffset
  let s ← ecam.writeU16 cs s bdf cmdRegOffset (originalCommand &&& ~~~0x03)
  let (slots, s) ← probeSlots cs ecam bdf 6 0 s
  let s ← ecam.writeU16 cs s bdf cmdRegOffset originalCommand
  .ok (slots.filterMap Slot.bar, s)

end Probe

/-! ### Probing a register file -/

/-- What is read from registers that are the slots up to the last one. -/
def slotsOf : List Register → List Slot
  | []      => []
  | r :: rs =>
    let mask := r.value ||| r.writable
    let typeBits := (r.value >>> 1) &&& 0x3
    if r.value &&& 0x1 ≠ 0 then .io r.value mask :: slotsOf rs
    else if typeBits = 0 then .memory32 r.value mask :: slotsOf rs
    else if typeBits = 2 then
      match rs with
      | []       => [.skipped]
      | r' :: rs =>
        .memory64 r.value mask r'.value (r'.value ||| r'.writable) :: slotsOf rs
    else .skipped :: slotsOf rs

def barRegisters (ecam : Ecam) (bdf : Bdf) (s : RegisterFile) : List Register :=
  (List.range 6).map fun i => ecam.registerAt s bdf (0x10 + i * 4)

section RegisterFile

variable (ecam : Ecam) (bdf : Bdf) (s : RegisterFile)

/-- Ones are kept where the register can be written. -/
lemma Ecam.registerAt_ones (o : Nat) :
    (ecam.registerAt (ecam.writeRegister registerFile s bdf o 0xFFFFFFFF 0xFFFFFFFF) bdf o).value =
      (ecam.registerAt s bdf o).value ||| (ecam.registerAt s bdf o).writable := by
  simp only [Ecam.registerAt, Ecam.writeRegister]
  cases ecam.register bdf o with
  | none => exact BitVec.or_zero.symm
  | some ptr =>
    change (update s ptr ((s ptr).write _ _) ptr).value = _
    rw [update_self]
    refine BitVec.eq_of_getLsbD_eq fun i hi => ?_
    have hones : (0xFFFFFFFF : BitVec 32).getLsbD i = true := by
      exact BitVec.getLsbD_allOnes.trans (decide_eq_true hi)
    simp only [Register.write, BitVec.getLsbD_or, BitVec.getLsbD_and, BitVec.getLsbD_not, hones]
    grind

lemma probeRegister_eq {o : Nat} (ho : o % 4 = 0) :
    probeRegister registerFile ecam bdf s o =
      .ok (((ecam.registerAt s bdf o).value,
        (ecam.registerAt s bdf o).value ||| (ecam.registerAt s bdf o).writable), s) := by
  simp only [probeRegister, Ecam.readU32, Ecam.writeU32, ho, ne_eq, not_true, if_false, bind,
    Except.bind, Ecam.readRegister_eq, Ecam.registerAt_ones, Ecam.writeRegister_restore _ _ rfl]

lemma drop_barRegisters {i : Nat} (hi : i < 6) : (barRegisters ecam bdf s).drop i =
    ecam.registerAt s bdf (0x10 + i * 4) :: (barRegisters ecam bdf s).drop (i + 1) := by
  rw [List.drop_eq_getElem_cons (by simpa [barRegisters] using hi)]
  simp [barRegisters]

lemma setWidth_extractLsb'_and (x : BitVec 32) :
    (x.extractLsb' 0 16).setWidth 32 <<< 0 &&& 0xFFFF <<< 0 = x &&& 0xFFFF <<< 0 := by
  refine BitVec.eq_of_getLsbD_eq fun i _ => ?_
  by_cases hi : i < 16
  · simp [hi, lt_trans hi (by decide : 16 < 32)]
  · rw [BitVec.getLsbD_and, BitVec.getLsbD_and,
      getLsbD_of_lt (show (0xFFFF <<< 0 : BitVec 32).toNat < 2 ^ 16 by decide) (Nat.not_lt.mp hi)]
    simp

lemma probeSlots_eq (rounds : Nat) : ∀ i, 6 ≤ i + rounds →
    probeSlots registerFile ecam bdf rounds i s =
      .ok (slotsOf ((barRegisters ecam bdf s).drop i), s) := by
  induction rounds with
  | zero =>
    intro i hi
    rw [List.drop_eq_nil_of_le (by simpa [barRegisters] using hi)]
    rfl
  | succ rounds ih =>
    intro i hi
    rw [probeSlots]
    by_cases hlt : i < 6
    · rw [if_pos hlt, drop_barRegisters ecam bdf s hlt, slotsOf.eq_def]
      simp only [probeRegister_eq ecam bdf s (show (0x10 + i * 4) % 4 = 0 by omega), bind,
        Except.bind, ih (i + 1) (by omega)]
      split_ifs with hio htype htype' hfive
      · rfl
      · rfl
      · rw [List.drop_eq_nil_of_le (by simp [barRegisters]; omega)]
        rfl
      · have hsecond : 0x10 + i * 4 + 4 = 0x10 + (i + 1) * 4 := by omega
        simp only [hsecond, drop_barRegisters ecam bdf s (show i + 1 < 6 by omega),
          probeRegister_eq ecam bdf s (show (0x10 + (i + 1) * 4) % 4 = 0 by omega),
          ih (i + 2) (by omega)]
      · rfl
    · rw [if_neg hlt, List.drop_eq_nil_of_le (by simp [barRegisters]; omega)]
      rfl

/-- Probing gives the entries for the registers, and leaves these as they were. -/
lemma probeBars_eq : probeBars registerFile ecam bdf s =
    .ok ((slotsOf (barRegisters ecam bdf s)).filterMap Slot.bar, s) := by
  have hregs (enable value : BitVec 32) : barRegisters ecam bdf
      (ecam.writeRegister registerFile s bdf cmdRegOffset enable value) =
        barRegisters ecam bdf s := by
    refine List.map_congr_left fun i _ => Ecam.registerAt_write_of_ne ?_ _ _
    rw [cmdRegOffset]
    omega
  have heven : cmdRegOffset % 2 = 0 := rfl
  simp only [probeBars, Ecam.readU16, Ecam.writeU16, heven, ne_eq, not_true, if_false, bind,
    Except.bind, probeSlots_eq ecam bdf _ 6 0 (Nat.le_refl 6), hregs, List.drop_zero]
  rw [Ecam.writeRegister_restore]
  have hlane : 8 * (cmdRegOffset % 4) = 0 := rfl
  rw [Ecam.readRegister_eq, hlane]
  exact setWidth_extractLsb'_and _

end RegisterFile

/-! ### Legal layouts -/

/-- A BAR of `2 ^ k` bytes, with an address that is a multiple of its size. -/
inductive Bar where
  | empty
  | io (k : Nat) (address : BitVec 32) (hk : 2 ≤ k ∧ k < 32) (h : 2 ^ k ∣ address.toNat)
  | memory32 (k : Nat) (address : BitVec 32) (prefetchable : Bool) (hk : 4 ≤ k ∧ k < 32)
      (h : 2 ^ k ∣ address.toNat)
  | memory64 (k : Nat) (address : BitVec 64) (prefetchable : Bool) (hk : 4 ≤ k ∧ k < 64)
      (h : 2 ^ k ∣ address.toNat)

namespace Bar

def lowHalf (a : BitVec 64) : BitVec 32 := a.setWidth 32

def highHalf (a : BitVec 64) : BitVec 32 := (a >>> 32).setWidth 32

/-- The bits below the address of a memory BAR. -/
def flags (typeBits : BitVec 32) (prefetchable : Bool) : BitVec 32 :=
  typeBits <<< 1 ||| if prefetchable then 8 else 0

/-- The registers of a BAR. Only the bits of the address that are above the size can be written. -/
def registers : Bar → List Register
  | empty => [⟨0, 0⟩]
  | io k a _ _ => [⟨a ||| 1, highMask 32 k⟩]
  | memory32 k a prefetchable _ _ => [⟨a ||| flags 0 prefetchable, highMask 32 k⟩]
  | memory64 k a prefetchable _ _ =>
    [⟨lowHalf a ||| flags 2 prefetchable, lowHalf (highMask 64 k)⟩,
      ⟨highHalf a, highHalf (highMask 64 k)⟩]

def entry : Bar → Option BarType
  | empty => none
  | io k a _ _ => some (.io a (BitVec.twoPow 32 k))
  | memory32 k a prefetchable _ _ => some (.memory32 a (BitVec.twoPow 32 k) prefetchable)
  | memory64 k a prefetchable _ _ => some (.memory64 a (BitVec.twoPow 64 k) prefetchable)

def slot : Bar → Slot
  | empty => .memory32 0 0
  | io k a _ _ => .io (a ||| 1) (highMask 32 k ||| 1)
  | memory32 k a prefetchable _ _ =>
    .memory32 (a ||| flags 0 prefetchable) (highMask 32 k ||| flags 0 prefetchable)
  | memory64 k a prefetchable _ _ =>
    .memory64 (lowHalf a ||| flags 2 prefetchable)
      (lowHalf (highMask 64 k) ||| flags 2 prefetchable) (highHalf a) (highHalf (highMask 64 k))

section Halves

variable {a : BitVec 64} {k : Nat}

lemma getLsbD_lowHalf (a : BitVec 64) (i : Nat) :
    (lowHalf a).getLsbD i = (decide (i < 32) && a.getLsbD i) := BitVec.getLsbD_setWidth ..

lemma clearBelow_lowHalf (ha : ClearBelow k a) : ClearBelow k (lowHalf a) := by
  intro i hi
  rw [getLsbD_lowHalf, ha i hi, Bool.and_false]

lemma lowHalf_or_highMask (ha : ClearBelow k a) :
    lowHalf a ||| lowHalf (highMask 64 k) = lowHalf (highMask 64 k) := by
  rw [lowHalf, lowHalf, ← BitVec.setWidth_or, ha.or_highMask]

lemma highHalf_or_highMask (ha : ClearBelow k a) :
    highHalf a ||| highHalf (highMask 64 k) = highHalf (highMask 64 k) := by
  rw [highHalf, highHalf, ← BitVec.setWidth_or, ← BitVec.ushiftRight_or_distrib, ha.or_highMask]

/-- The two halves of an address, with bits below it. -/
lemma join_halves {c : BitVec 32} (ha : ClearBelow 4 a) (hc : c.toNat < 2 ^ 4) :
    Slot.join (highHalf a) (lowHalf a ||| c) = a := by
  have hlow := congrArg (BitVec.setWidth 64) ((clearBelow_lowHalf ha).or_and_highMask hc)
  rw [BitVec.setWidth_and, show (highMask 32 4).setWidth 64 = 0xFFFFFFF0 by decide] at hlow
  rw [Slot.join, hlow]
  refine BitVec.eq_of_getLsbD_eq fun i hi => ?_
  simp only [BitVec.getLsbD_or, BitVec.getLsbD_shiftLeft, BitVec.getLsbD_setWidth, getLsbD_lowHalf,
    highHalf, BitVec.getLsbD_ushiftRight]
  grind

end Halves

/-- The bits below the address of a memory BAR tell its type. -/
structure IsFlags (typeBits c : BitVec 32) (prefetchable : Bool) : Prop where
  lt : c.toNat < 2 ^ 4
  isIo : c &&& 0x1 = 0
  typeBits : (c >>> 1) &&& 0x3 = typeBits
  prefetchable : ((c >>> 3) &&& 0x1 != 0) = prefetchable

lemma isFlags_zero (p : Bool) : IsFlags 0 (flags 0 p) p := by
  cases p <;> exact ⟨by decide, by decide, by decide, by decide⟩

lemma isFlags_two (p : Bool) : IsFlags 2 (flags 2 p) p := by
  cases p <;> exact ⟨by decide, by decide, by decide, by decide⟩

section Tests

variable {t k : Nat} {a c x typeBits : BitVec 32} {p : Bool}

lemma isIo_or (hx : ClearBelow 1 x) : (x ||| c) &&& 0x1 = c &&& 0x1 := by
  have h := hx.or_shift_and (m := 1) (j := 0) (c := c) (by decide)
  simpa using h

lemma IsFlags.isIo_or (hc : IsFlags typeBits c p) (hx : ClearBelow 4 x) :
    ¬(x ||| c) &&& 0x1 ≠ 0 := by
  rw [Bar.isIo_or (hx.mono (by decide)), hc.isIo]
  exact not_not_intro rfl

lemma IsFlags.typeBits_or (hc : IsFlags typeBits c p) (hx : ClearBelow 4 x) :
    ((x ||| c) >>> 1) &&& 0x3 = typeBits := (hx.or_shift_and (by decide)).trans hc.typeBits

lemma IsFlags.prefetchable_or (hc : IsFlags typeBits c p) (hx : ClearBelow 4 x) :
    (((x ||| c) >>> 3) &&& 0x1 != 0) = p := by
  rw [hx.or_shift_and (by decide), hc.prefetchable]

/-- A BAR of one register, with bits below the address. The bit 1 is not kept. -/
lemma single (ht : 2 ≤ t ∧ t ≤ k) (hk : k < 32) (ha : 2 ^ k ∣ a.toNat) (hc : c.toNat < 2 ^ t)
    (hbit : c.getLsbD 1 = false) :
    ¬(highMask 32 k ||| c = 0 ∨ highMask 32 k ||| c = ~~~0) ∧
    (a ||| c) &&& highMask 32 t = a ∧
    ~~~((highMask 32 k ||| c) &&& highMask 32 t) + 1 = BitVec.twoPow 32 k := by
  have hword := ((clearBelow_highMask 32 k).mono ht.2).or_and_highMask hc
  refine ⟨?_, ((clearBelow_of_dvd ha).mono ht.2).or_and_highMask hc, ?_⟩
  · rintro (hzero | hones)
    · rw [hzero] at hword
      exact highMask_ne_zero hk (hword.symm.trans BitVec.zero_and)
    · have hone := BitVec.getLsbD_or (x := highMask 32 k) (y := c) (i := 1)
      rw [hones, hbit, clearBelow_highMask 32 k 1 (ht.1.trans ht.2)] at hone
      cases hone
  · rw [hword]
    exact not_highMask_add_one 32 k

end Tests

lemma bar_slot (b : Bar) : b.slot.bar = b.entry := by
  cases b with
  | empty => rfl
  | io k a hk h =>
    obtain ⟨hkept, haddr, hsize⟩ :=
      single (c := 1) ⟨Nat.le_refl 2, hk.1⟩ hk.2 h (by decide) (by decide)
    rw [show highMask 32 2 = 0xFFFFFFFC by decide] at haddr hsize
    rw [slot, Slot.bar, if_neg hkept, haddr, hsize, entry]
  | memory32 k a p hk h =>
    have hc := isFlags_zero p
    have hbit : (flags 0 p).getLsbD 1 = false := by cases p <;> rfl
    obtain ⟨hkept, haddr, hsize⟩ := single ⟨by decide, hk.1⟩ hk.2 h hc.lt hbit
    rw [show highMask 32 4 = 0xFFFFFFF0 by decide] at haddr hsize
    rw [slot, Slot.bar, if_neg hkept, haddr, hsize,
      hc.prefetchable_or ((clearBelow_of_dvd h).mono hk.1), entry]
  | memory64 k a p hk h =>
    have ha := (clearBelow_of_dvd h).mono hk.1
    have hc := isFlags_two p
    rw [slot, Slot.bar, join_halves ((clearBelow_highMask 64 k).mono hk.1) hc.lt]
    rw [join_halves ha hc.lt, hc.prefetchable_or (clearBelow_lowHalf ha)]
    refine (if_neg (highMask_ne_zero hk.2)).trans ?_
    rw [entry, ← not_highMask_add_one]
    rfl

lemma slotsOf_registers (b : Bar) (rs : List Register) :
    slotsOf (b.registers ++ rs) = b.slot :: slotsOf rs := by
  cases b with
  | empty =>
    rw [registers, List.singleton_append, slotsOf.eq_def]
    rfl
  | io k a hk h =>
    have ha := clearBelow_of_dvd h
    rw [registers, List.singleton_append, slotsOf.eq_def]
    dsimp only
    rw [isIo_or (ha.mono (by omega)), if_pos (by decide), or_or_of_or_eq ha.or_highMask, slot]
  | memory32 k a p hk h =>
    have ha := clearBelow_of_dvd h
    have hc := isFlags_zero p
    rw [registers, List.singleton_append, slotsOf.eq_def]
    dsimp only
    rw [if_neg (hc.isIo_or (ha.mono hk.1)), if_pos (hc.typeBits_or (ha.mono hk.1)),
      or_or_of_or_eq ha.or_highMask, slot]
  | memory64 k a p hk h =>
    have ha := clearBelow_of_dvd h
    have hlow := clearBelow_lowHalf (ha.mono hk.1)
    have hc := isFlags_two p
    rw [registers, List.cons_append, List.singleton_append, slotsOf.eq_def]
    dsimp only
    rw [if_neg (hc.isIo_or hlow), hc.typeBits_or hlow, if_neg (by decide), if_pos rfl,
      or_or_of_or_eq (lowHalf_or_highMask ha), highHalf_or_highMask ha, slot]

end Bar

lemma slotsOf_flatMap (bars : List Bar) :
    slotsOf (bars.flatMap Bar.registers) = bars.map Bar.slot := by
  induction bars with
  | nil => rfl
  | cons b bars ih => rw [List.flatMap_cons, b.slotsOf_registers, ih, List.map_cons]

/-- The slots of a function with a legal layout are found, and are left as they were. -/
theorem probeBars_layout (ecam : Ecam) (bdf : Bdf) (s : RegisterFile) (bars : List Bar)
    (h : barRegisters ecam bdf s = bars.flatMap Bar.registers) :
    probeBars registerFile ecam bdf s = .ok (bars.filterMap Bar.entry, s) := by
  have hentries : Slot.bar ∘ Bar.slot = Bar.entry := funext Bar.bar_slot
  rw [probeBars_eq, h, slotsOf_flatMap, List.filterMap_map, hentries]

/-- The registers of a function at the base, with 64-bit memory, I/O ports and memory. -/
def sampleBars : List Bar :=
  [.memory64 14 0x4000000000 true (by decide) (by decide), .io 5 0xC020 (by decide) (by decide),
    .memory32 12 0xFEBD1000 false (by decide) (by decide), .empty, .empty]

/-- A register file with the slots of the function at the base. -/
def sampleFile : RegisterFile := fun a =>
  if 0x10 ≤ a then (sampleBars.flatMap Bar.registers).getD ((a - 0x10) / 4) ⟨0, 0⟩ else ⟨0, 0⟩

theorem probeBars_sampleBars :
    probeBars registerFile ⟨0, 0, 0, 255⟩ ⟨0, 0, 0, 0⟩ sampleFile =
      .ok ([.memory64 0x4000000000 0x4000 true, .io 0xC020 0x20, .memory32 0xFEBD1000 0x1000 false],
        sampleFile) :=
  probeBars_layout _ _ _ sampleBars (by decide)

end Mars.Pcie
