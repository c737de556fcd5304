import Mathlib.Data.Nat.Bitwise
import Mathlib.Logic.Function.Basic
import Mathlib.Tactic.Common

/-!
# Configuration space

Embedding of `pcie/src/{address,ecam}.rs`. The configuration space has a register of 32 bits at each
multiple of four bytes after the base, and an access to fewer bytes goes to a part of a register.
`ConfigSpace` says nothing about the answers of the registers. In a `RegisterFile`, each bit of a
register is either hard-wired or keeps what is written.
-/

namespace Mars.Pcie

open Function

structure Bdf where
  segment : BitVec 16
  bus : BitVec 8
  device : BitVec 8
  function : BitVec 8
deriving DecidableEq

structure Ecam where
  physBase : BitVec 64
  segment : BitVec 16
  startBus : BitVec 8
  endBus : BitVec 8

/-- The assertions on the alignment of an access. -/
inductive Panic where
  | unalignedReadU16
  | unalignedReadU32
  | unalignedWriteU16
  | unalignedWriteU32
deriving DecidableEq

namespace Ecam

/-- The function is in the range of the configuration space. -/
def contains (ecam : Ecam) (bdf : Bdf) : Bool :=
  bdf.segment == ecam.segment && (ecam.startBus ≤ bdf.bus && bdf.bus ≤ ecam.endBus)

def functionOffset (ecam : Ecam) (bdf : Bdf) : Nat :=
  (bdf.bus.toNat - ecam.startBus.toNat) <<< 20 ||| bdf.device.toNat <<< 15 |||
    bdf.function.toNat <<< 12

def offsetPtr (ecam : Ecam) (bdf : Bdf) (offset : Nat) : Option Nat :=
  if 0xFFF < offset then none
  else if !ecam.contains bdf then none
  else some ((ecam.physBase.toNat + (ecam.functionOffset bdf ||| offset)) % 2 ^ 64)

end Ecam

/-- Registers that can be read, and written in some of their bits. -/
structure ConfigSpace (σ : Type) where
  read : σ → Nat → BitVec 32
  write : σ → Nat → (enable value : BitVec 32) → σ

section Access

variable {σ : Type} (cs : ConfigSpace σ) (ecam : Ecam) (s : σ) (bdf : Bdf) (offset : Nat)

/-- The address of the register that has the byte at an offset. -/
def Ecam.register : Option Nat := ecam.offsetPtr bdf (offset / 4 * 4)

/-- The register, or ones if there is none. -/
def Ecam.readRegister : BitVec 32 :=
  match ecam.register bdf offset with
  | some ptr => cs.read s ptr
  | none     => 0xFFFFFFFF

def Ecam.writeRegister (enable value : BitVec 32) : σ :=
  match ecam.register bdf offset with
  | some ptr => cs.write s ptr enable value
  | none     => s

def Ecam.readU8 : BitVec 8 :=
  (ecam.readRegister cs s bdf offset).extractLsb' (8 * (offset % 4)) 8

def Ecam.readU16 : Except Panic (BitVec 16) :=
  if offset % 2 ≠ 0 then .error .unalignedReadU16
  else .ok ((ecam.readRegister cs s bdf offset).extractLsb' (8 * (offset % 4)) 16)

def Ecam.readU32 : Except Panic (BitVec 32) :=
  if offset % 4 ≠ 0 then .error .unalignedReadU32
  else .ok (ecam.readRegister cs s bdf offset)

def Ecam.writeU16 (val : BitVec 16) : Except Panic σ :=
  if offset % 2 ≠ 0 then .error .unalignedWriteU16
  else
    let lane := 8 * (offset % 4)
    .ok (ecam.writeRegister cs s bdf offset (0xFFFF <<< lane) (val.setWidth 32 <<< lane))

def Ecam.writeU32 (val : BitVec 32) : Except Panic σ :=
  if offset % 4 ≠ 0 then .error .unalignedWriteU32
  else .ok (ecam.writeRegister cs s bdf offset 0xFFFFFFFF val)

end Access

/-! ### Register files -/

/-- A register of bits that are hard-wired and bits that keep what is written. -/
@[ext] structure Register where
  value : BitVec 32
  writable : BitVec 32
deriving DecidableEq

def Register.write (r : Register) (enable value : BitVec 32) : Register :=
  { r with value :=
      (r.value &&& ~~~(r.writable &&& enable)) ||| (value &&& (r.writable &&& enable)) }

abbrev RegisterFile := Nat → Register

def registerFile : ConfigSpace RegisterFile where
  read := fun s a => (s a).value
  write := fun s a enable value => update s a ((s a).write enable value)

/-- A register is as before once its value is written back. -/
lemma Register.write_write (r : Register) (enable value : BitVec 32) {original : BitVec 32}
    (h : original &&& enable = r.value &&& enable) :
    (r.write enable value).write enable original = r := by
  refine Register.ext (BitVec.eq_of_getLsbD_eq fun i _ => ?_) rfl
  have hbit := congrArg (·.getLsbD i) h
  simp only [Register.write, BitVec.getLsbD_or, BitVec.getLsbD_and, BitVec.getLsbD_not]
  grind

section Restore

variable {ecam : Ecam} {bdf : Bdf} {s : RegisterFile} {o o' : Nat}

/-- The register that has the byte at an offset, or ones if there is none. -/
def Ecam.registerAt (ecam : Ecam) (s : RegisterFile) (bdf : Bdf) (offset : Nat) : Register :=
  match ecam.register bdf offset with
  | some ptr => s ptr
  | none     => ⟨0xFFFFFFFF, 0⟩

lemma Ecam.readRegister_eq :
    ecam.readRegister registerFile s bdf o = (ecam.registerAt s bdf o).value := by
  rw [Ecam.readRegister, Ecam.registerAt]
  cases ecam.register bdf o with
  | none => rfl
  | some ptr => rfl

/-- Writing the value back leaves no trace. -/
lemma Ecam.writeRegister_restore (enable value : BitVec 32) {original : BitVec 32}
    (h : original &&& enable = (ecam.registerAt s bdf o).value &&& enable) :
    ecam.writeRegister registerFile (ecam.writeRegister registerFile s bdf o enable value)
      bdf o enable original = s := by
  rw [Ecam.registerAt] at h
  simp only [Ecam.writeRegister]
  cases hreg : ecam.register bdf o with
  | none => rfl
  | some ptr =>
    rw [hreg] at h
    change update (update s ptr _) ptr ((update s ptr _ ptr).write _ _) = s
    rw [update_self, update_idem, Register.write_write _ _ _ h, update_eq_self]

lemma Ecam.functionOffset_or (ecam : Ecam) (bdf : Bdf) (ho : o < 4096) :
    ecam.functionOffset bdf ||| o = ecam.functionOffset bdf + o := by
  have hshift : ecam.functionOffset bdf =
      ((bdf.bus.toNat - ecam.startBus.toNat) <<< 8 ||| bdf.device.toNat <<< 3 |||
        bdf.function.toNat) <<< 12 := by
    simp only [Ecam.functionOffset, Nat.shiftLeft_or_distrib, ← Nat.shiftLeft_add]
  rw [hshift, Nat.shiftLeft_add_eq_or_of_lt ho]

lemma Ecam.register_inj {ptr : Nat} (h : ecam.register bdf o = some ptr)
    (h' : ecam.register bdf o' = some ptr) : o / 4 = o' / 4 := by
  simp only [Ecam.register, Ecam.offsetPtr] at h h'
  split_ifs at h h' with hle _ hle'
  have hsum := Option.some.inj (h.trans h'.symm)
  rw [functionOffset_or ecam bdf (by omega), functionOffset_or ecam bdf (by omega)] at hsum
  omega

lemma Ecam.registerAt_write_of_ne (h : o / 4 ≠ o' / 4) (enable value : BitVec 32) :
    ecam.registerAt (ecam.writeRegister registerFile s bdf o enable value) bdf o' =
      ecam.registerAt s bdf o' := by
  simp only [Ecam.registerAt, Ecam.writeRegister]
  cases hreg : ecam.register bdf o with
  | none => rfl
  | some ptr =>
    cases hreg' : ecam.register bdf o' with
    | none => rfl
    | some ptr' =>
      refine update_of_ne ?_ _ _
      rintro rfl
      exact h (register_inj hreg hreg')

end Restore

/-! ### Functions are apart -/

/-- The numbers of the device and the function fit into the address. -/
def Bdf.Valid (f : Bdf) : Prop := f.device.toNat < 2 ^ 5 ∧ f.function.toNat < 2 ^ 3

lemma Ecam.register_inj_function {ecam : Ecam} {f g : Bdf} (hf : f.Valid) (hg : g.Valid)
    {o o' ptr : Nat} (h : ecam.register f o = some ptr) (h' : ecam.register g o' = some ptr) :
    f = g := by
  have hoffset (f : Bdf) (hf : f.Valid) : ecam.functionOffset f =
      (((f.bus.toNat - ecam.startBus.toNat) * 2 ^ 5 + f.device.toNat) * 2 ^ 3 +
        f.function.toNat) * 2 ^ 12 := by
    rw [← Nat.shiftLeft_eq, ← Nat.shiftLeft_eq, ← Nat.shiftLeft_eq,
      Nat.shiftLeft_add_eq_or_of_lt hf.1, Nat.shiftLeft_add_eq_or_of_lt hf.2]
    simp only [Ecam.functionOffset, Nat.shiftLeft_or_distrib, ← Nat.shiftLeft_add]
  simp only [Ecam.register, Ecam.offsetPtr] at h h'
  split_ifs at h h' with hle hin hle' hin'
  have hsum := Option.some.inj (h.trans h'.symm)
  rw [functionOffset_or ecam f (by omega), functionOffset_or ecam g (by omega), hoffset f hf,
    hoffset g hg] at hsum
  simp only [contains, Bool.not_eq_true', Bool.not_eq_false, Bool.and_eq_true, beq_iff_eq,
    decide_eq_true_eq, BitVec.le_def] at hin hin'
  obtain ⟨segment, bus, device, function⟩ := f
  obtain ⟨segment', bus', device', function'⟩ := g
  simp only [Bdf.Valid, Bdf.mk.injEq, ← BitVec.toNat_inj] at *
  omega

/-- Whatever is written to other functions, a function keeps its registers. -/
theorem Ecam.registerAt_of_others (ecam : Ecam) (s : RegisterFile) {g : Bdf} (hg : g.Valid)
    (ws : List (Bdf × Nat × BitVec 32 × BitVec 32)) (hws : ∀ w ∈ ws, w.1.Valid ∧ w.1 ≠ g)
    (o : Nat) : ecam.registerAt (ws.foldl (fun s w =>
      ecam.writeRegister registerFile s w.1 w.2.1 w.2.2.1 w.2.2.2) s) g o =
        ecam.registerAt s g o := by
  induction ws generalizing s with
  | nil => rfl
  | cons w ws ih =>
    obtain ⟨⟨hw, hne⟩, hws⟩ := List.forall_mem_cons.1 hws
    rw [List.foldl_cons, ih _ hws]
    simp only [Ecam.registerAt, Ecam.writeRegister]
    cases hreg : ecam.register w.1 w.2.1 with
    | none => rfl
    | some ptr =>
      cases hreg' : ecam.register g o with
      | none => rfl
      | some ptr' =>
        refine update_of_ne ?_ _ _
        rintro rfl
        exact hne (register_inj_function hw hg hreg hreg')

theorem registerAt_of_sibling :
    let ecam : Ecam := ⟨0, 0, 0, 255⟩
    ecam.registerAt (ecam.writeRegister registerFile (fun _ => ⟨0, 0xFFFF⟩) ⟨0, 0, 0, 1⟩ 4 0xFFFF 7)
      ⟨0, 0, 0, 0⟩ 4 = ⟨0, 0xFFFF⟩ :=
  Ecam.registerAt_of_others _ _ (by simp [Bdf.Valid]) [(⟨0, 0, 0, 1⟩, 4, 0xFFFF, 7)]
    (by simp [Bdf.Valid]) 4

end Mars.Pcie
