import Mars.Lib.Fields
import Mars.Pm.Dmap

/-!
# The commands for the ITS

Embedding of the functions `push_mapd` to `push_inv` of `klib/src/interrupt/gicv3/mod.rs` and of
the registers they fill in. The layout of the architecture is given on its own, so that the words
can be decoded again.

Commands name a redistributor by its address or by its number. The address is translated in the
wrong direction, so a redistributor that should be named by its address never is.
-/

namespace Mars.Gic

open Lib Pm

structure Words where
  w0 : BitVec 64
  w1 : BitVec 64
  w2 : BitVec 64
  w3 : BitVec 64
deriving DecidableEq

/-! ### Registers -/

namespace ItsCmdWord0

def cmd : Field 64 := ⟨0, 8, by decide⟩

def deviceId : Field 64 := ⟨32, 32, by decide⟩

end ItsCmdWord0

namespace ItsMapdWord1

def size : Field 64 := ⟨0, 5, by decide⟩

end ItsMapdWord1

namespace ItsMapdWord2

def ittAddr : Field 64 := ⟨8, 44, by decide⟩

def valid : Field 64 := ⟨63, 1, by decide⟩

end ItsMapdWord2

namespace ItsMapcWord2

def icid : Field 64 := ⟨0, 16, by decide⟩

def rdBase : Field 64 := ⟨16, 36, by decide⟩

def valid : Field 64 := ⟨63, 1, by decide⟩

end ItsMapcWord2

namespace ItsMaptiWord1

def eventId : Field 64 := ⟨0, 32, by decide⟩

def pIntId : Field 64 := ⟨32, 32, by decide⟩

end ItsMaptiWord1

namespace ItsMaptiWord2

def icid : Field 64 := ⟨0, 16, by decide⟩

end ItsMaptiWord2

namespace ItsInvallWord2

def icid : Field 64 := ⟨0, 16, by decide⟩

end ItsInvallWord2

namespace ItsSyncWord2

def rdBase : Field 64 := ⟨16, 36, by decide⟩

end ItsSyncWord2

namespace ItsDiscardWord1

def eventId : Field 64 := ⟨0, 32, by decide⟩

end ItsDiscardWord1

namespace ItsInvWord1

def eventId : Field 64 := ⟨0, 32, by decide⟩

end ItsInvWord1

namespace GicrTyper

def processorNumber : Field 64 := ⟨8, 16, by decide⟩

end GicrTyper

namespace GitsTyper

def pta : Field 64 := ⟨19, 1, by decide⟩

end GitsTyper

/-! ### The words that are written -/

def boolBits (b : Bool) : BitVec 64 := if b then 1#64 else 0#64

def pushMapd (deviceId : BitVec 32) (ittAddr : BitVec 64) (numEventsLog2 : BitVec 32)
    (valid : Bool) : Words :=
  let size := if 0 < numEventsLog2 then numEventsLog2 - 1 else 0
  { w0 := ItsCmdWord0.deviceId.modify (ItsCmdWord0.cmd.modify 0#64 0x08#64) (deviceId.setWidth 64)
    w1 := ItsMapdWord1.size.modify 0#64 ((size.setWidth 8).setWidth 64)
    w2 := ItsMapdWord2.valid.modify (ItsMapdWord2.ittAddr.modify 0#64 (ittAddr >>> 8))
      (boolBits valid)
    w3 := 0#64 }

def pushMapc (icid : BitVec 32) (rdbaseVal : BitVec 64) (valid : Bool) : Words :=
  { w0 := ItsCmdWord0.cmd.modify 0#64 0x09#64
    w1 := 0#64
    w2 := ItsMapcWord2.valid.modify (ItsMapcWord2.rdBase.modify
      (ItsMapcWord2.icid.modify 0#64 ((icid.setWidth 16).setWidth 64)) rdbaseVal) (boolBits valid)
    w3 := 0#64 }

def pushMapti (deviceId eventId lpiId icid : BitVec 32) : Words :=
  { w0 := ItsCmdWord0.deviceId.modify (ItsCmdWord0.cmd.modify 0#64 0x0A#64) (deviceId.setWidth 64)
    w1 := ItsMaptiWord1.pIntId.modify (ItsMaptiWord1.eventId.modify 0#64 (eventId.setWidth 64))
      (lpiId.setWidth 64)
    w2 := ItsMaptiWord2.icid.modify 0#64 ((icid.setWidth 16).setWidth 64)
    w3 := 0#64 }

def pushInvall (icid : BitVec 32) : Words :=
  { w0 := ItsCmdWord0.cmd.modify 0#64 0x0D#64
    w1 := 0#64
    w2 := ItsInvallWord2.icid.modify 0#64 ((icid.setWidth 16).setWidth 64)
    w3 := 0#64 }

def pushSync (rdbaseVal : BitVec 64) : Words :=
  { w0 := ItsCmdWord0.cmd.modify 0#64 0x05#64
    w1 := 0#64
    w2 := ItsSyncWord2.rdBase.modify 0#64 rdbaseVal
    w3 := 0#64 }

def pushDiscard (deviceId eventId : BitVec 32) : Words :=
  { w0 := ItsCmdWord0.deviceId.modify (ItsCmdWord0.cmd.modify 0#64 0x0F#64) (deviceId.setWidth 64)
    w1 := ItsDiscardWord1.eventId.modify 0#64 (eventId.setWidth 64)
    w2 := 0#64
    w3 := 0#64 }

def pushInv (deviceId eventId : BitVec 32) : Words :=
  { w0 := ItsCmdWord0.deviceId.modify (ItsCmdWord0.cmd.modify 0#64 0x0C#64) (deviceId.setWidth 64)
    w1 := ItsInvWord1.eventId.modify 0#64 (eventId.setWidth 64)
    w2 := 0#64
    w3 := 0#64 }

/-- A redistributor: the pointer to its registers and its type register. -/
structure Redistributor where
  ptr : Nat
  typer : BitVec 64

/-- `rdbase_for_redist`, for the type register of the ITS. -/
def rdbaseForRedist (its : Option (BitVec 64)) (redistributors : List Redistributor)
    (index : Nat) : Option (BitVec 64) := do
  let its ← its
  let redist ← redistributors[index]?
  let physAddr := physAddrToDmap redist.ptr
  let procNum := GicrTyper.processorNumber.lift redist.typer
  let pta := GitsTyper.pta.lift its != 0
  some (if pta then BitVec.ofNat 64 (physAddr >>> 16) else procNum)

/-! ### The layout of the architecture -/

/-- The commands as the ITS understands them. A redistributor has 36 bits, the address of a table
is given without its lowest 8 bits. -/
inductive ItsCommand where
  | mapd (deviceId : BitVec 32) (size : BitVec 5) (ittAddr : BitVec 44) (valid : Bool)
  | mapc (icid : BitVec 16) (rdbase : BitVec 36) (valid : Bool)
  | mapti (deviceId eventId lpiId : BitVec 32) (icid : BitVec 16)
  | inv (deviceId eventId : BitVec 32)
  | discard (deviceId eventId : BitVec 32)
  | invall (icid : BitVec 16)
  | sync (rdbase : BitVec 36)
deriving DecidableEq

/-- The words of a command. Bits that no argument has are zero. -/
def ItsCommand.encode : ItsCommand → Words
  | .mapd deviceId size ittAddr valid =>
    ⟨place 64 0x08#8 0 ||| place 64 deviceId 32, place 64 size 0,
      place 64 ittAddr 8 ||| place 64 (.ofBool valid) 63, 0#64⟩
  | .mapc icid rdbase valid =>
    ⟨place 64 0x09#8 0, 0#64,
      place 64 icid 0 ||| place 64 rdbase 16 ||| place 64 (.ofBool valid) 63, 0#64⟩
  | .mapti deviceId eventId lpiId icid =>
    ⟨place 64 0x0A#8 0 ||| place 64 deviceId 32, place 64 eventId 0 ||| place 64 lpiId 32,
      place 64 icid 0, 0#64⟩
  | .inv deviceId eventId =>
    ⟨place 64 0x0C#8 0 ||| place 64 deviceId 32, place 64 eventId 0, 0#64, 0#64⟩
  | .discard deviceId eventId =>
    ⟨place 64 0x0F#8 0 ||| place 64 deviceId 32, place 64 eventId 0, 0#64, 0#64⟩
  | .invall icid  => ⟨place 64 0x0D#8 0, 0#64, place 64 icid 0, 0#64⟩
  | .sync rdbase  => ⟨place 64 0x05#8 0, 0#64, place 64 rdbase 16, 0#64⟩

def readCommand (w : Words) : Option ItsCommand :=
  let deviceId := takeBits 32 w.w0 32
  let eventId := takeBits 32 w.w1 0
  let icid := takeBits 16 w.w2 0
  let rdbase := takeBits 36 w.w2 16
  let valid := (takeBits 1 w.w2 63).getLsbD 0
  match (takeBits 8 w.w0 0).toNat with
  | 0x05 => some (.sync rdbase)
  | 0x08 => some (.mapd deviceId (takeBits 5 w.w1 0) (takeBits 44 w.w2 8) valid)
  | 0x09 => some (.mapc icid rdbase valid)
  | 0x0A => some (.mapti deviceId eventId (takeBits 32 w.w1 32) icid)
  | 0x0C => some (.inv deviceId eventId)
  | 0x0D => some (.invall icid)
  | 0x0F => some (.discard deviceId eventId)
  | _    => none

/-- The command of the words, if all other bits are zero. -/
def decode (w : Words) : Option ItsCommand := (readCommand w).filter (·.encode = w)

lemma readCommand_encode (c : ItsCommand) : readCommand c.encode = some c := by
  cases c <;> simp [readCommand, ItsCommand.encode, takeBits_or, takeBits_place,
    takeBits_place_of_apart]

/-- The words determine the command. -/
lemma decode_eq_some_iff {w : Words} {c : ItsCommand} : decode w = some c ↔ w = c.encode := by
  constructor
  · intro h
    exact (of_decide_eq_true (Option.filter_eq_some_iff.1 h).2).symm
  · rintro rfl
    exact Option.filter_eq_some_iff.2 ⟨readCommand_encode c, decide_eq_true rfl⟩

/-! ### What the calls write -/

section Push

variable (deviceId eventId lpiId icid : BitVec 32) (rdbaseVal : BitVec 64) (valid : Bool)

lemma boolBits_setWidth (valid : Bool) : (boolBits valid).setWidth 1 = .ofBool valid := by
  cases valid <;> rfl

lemma word0_eq (opcode : BitVec 64) :
    ItsCmdWord0.deviceId.modify (ItsCmdWord0.cmd.modify 0#64 opcode) (deviceId.setWidth 64) =
      place 64 (opcode.setWidth 8) 0 ||| place 64 deviceId 32 := by
  rw [modify_zero, (clear_place (.inr (by decide))).modify]
  simp [ItsCmdWord0.deviceId, ItsCmdWord0.cmd]

lemma pushMapd_eq (ittAddr : BitVec 64) (numEventsLog2 : BitVec 32) (h : 0 < numEventsLog2) :
    pushMapd deviceId ittAddr numEventsLog2 valid =
      (ItsCommand.mapd deviceId ((numEventsLog2 - 1).setWidth 5) ((ittAddr >>> 8).setWidth 44)
        valid).encode := by
  have hw2 : ItsMapdWord2.valid.modify (ItsMapdWord2.ittAddr.modify 0#64 (ittAddr >>> 8))
      (boolBits valid) =
        place 64 ((ittAddr >>> 8).setWidth 44) 8 ||| place 64 (.ofBool valid) 63 := by
    rw [modify_zero, (clear_place (.inr (by decide))).modify, ← boolBits_setWidth]
    rfl
  have hw1 : ItsMapdWord1.size.modify 0#64 (((numEventsLog2 - 1).setWidth 8).setWidth 64) =
      place 64 ((numEventsLog2 - 1).setWidth 5) 0 := by
    rw [modify_zero]
    simp [ItsMapdWord1.size, BitVec.setWidth_setWidth_of_le]
  rw [pushMapd, if_pos h, word0_eq, hw1, hw2]
  rfl

lemma pushMapc_eq : pushMapc icid rdbaseVal valid =
    (ItsCommand.mapc (icid.setWidth 16) (rdbaseVal.setWidth 36) valid).encode := by
  have hw2 : ItsMapcWord2.valid.modify (ItsMapcWord2.rdBase.modify
      (ItsMapcWord2.icid.modify 0#64 ((icid.setWidth 16).setWidth 64)) rdbaseVal)
        (boolBits valid) =
      place 64 (icid.setWidth 16) 0 ||| place 64 (rdbaseVal.setWidth 36) 16 |||
        place 64 (.ofBool valid) 63 := by
    rw [modify_zero, (clear_place (.inr (by decide))).modify,
      ((clear_place (.inr (by decide))).or (clear_place (.inr (by decide)))).modify,
      ← boolBits_setWidth]
    simp [ItsMapcWord2.icid, ItsMapcWord2.rdBase, ItsMapcWord2.valid,
      BitVec.setWidth_setWidth_of_le]
  rw [pushMapc, hw2, modify_zero]
  rfl

lemma pushMapti_eq : pushMapti deviceId eventId lpiId icid =
    (ItsCommand.mapti deviceId eventId lpiId (icid.setWidth 16)).encode := by
  have hw1 : ItsMaptiWord1.pIntId.modify
      (ItsMaptiWord1.eventId.modify 0#64 (eventId.setWidth 64)) (lpiId.setWidth 64) =
        place 64 eventId 0 ||| place 64 lpiId 32 := by
    rw [modify_zero, (clear_place (.inr (by decide))).modify]
    simp [ItsMaptiWord1.pIntId, ItsMaptiWord1.eventId]
  have hw2 : ItsMaptiWord2.icid.modify 0#64 ((icid.setWidth 16).setWidth 64) =
      place 64 (icid.setWidth 16) 0 := by
    rw [modify_zero]
    simp [ItsMaptiWord2.icid]
  rw [pushMapti, word0_eq, hw1, hw2]
  rfl

lemma pushInvall_eq : pushInvall icid = (ItsCommand.invall (icid.setWidth 16)).encode := by
  rw [pushInvall, modify_zero, modify_zero]
  simp [ItsCommand.encode, ItsCmdWord0.cmd, ItsInvallWord2.icid]

lemma pushSync_eq : pushSync rdbaseVal = (ItsCommand.sync (rdbaseVal.setWidth 36)).encode := by
  rw [pushSync, modify_zero, modify_zero]
  simp [ItsCommand.encode, ItsCmdWord0.cmd, ItsSyncWord2.rdBase]

lemma pushDiscard_eq :
    pushDiscard deviceId eventId = (ItsCommand.discard deviceId eventId).encode := by
  rw [pushDiscard, word0_eq, modify_zero]
  simp [ItsCommand.encode, ItsDiscardWord1.eventId]

lemma pushInv_eq : pushInv deviceId eventId = (ItsCommand.inv deviceId eventId).encode := by
  rw [pushInv, word0_eq, modify_zero]
  simp [ItsCommand.encode, ItsInvWord1.eventId]

end Push

/-! ### What is asked for -/

/-- A redistributor whose registers are accessed through the direct map. -/
structure DmapRedist where
  phys : Nat
  typer : BitVec 64
  lt : phys < 2 ^ 48
  aligned : 2 ^ 16 ∣ phys

def DmapRedist.redistributor (r : DmapRedist) : Redistributor := ⟨physAddrToDmap r.phys, r.typer⟩

/-- The calls, where a redistributor is given instead of the number that stands for it. -/
inductive PushRequest where
  | mapd (deviceId : BitVec 32) (ittAddr : BitVec 64) (numEventsLog2 : BitVec 32) (valid : Bool)
  | mapc (icid : BitVec 32) (redist : DmapRedist) (valid : Bool)
  | mapti (deviceId eventId lpiId icid : BitVec 32)
  | inv (deviceId eventId : BitVec 32)
  | discard (deviceId eventId : BitVec 32)
  | invall (icid : BitVec 32)
  | sync (redist : DmapRedist)

namespace PushRequest

def InRange : PushRequest → Prop
  | .mapd _ ittAddr numEventsLog2 _ =>
    ittAddr.toNat < 2 ^ 52 ∧ 2 ^ 8 ∣ ittAddr.toNat ∧ 1 ≤ numEventsLog2.toNat ∧
      numEventsLog2.toNat ≤ 32
  | .mapc icid _ _    => icid.toNat < 2 ^ 16
  | .mapti _ _ _ icid => icid.toNat < 2 ^ 16
  | .invall icid      => icid.toNat < 2 ^ 16
  | _                 => True

def words (its : BitVec 64) : PushRequest → Option Words
  | .mapd deviceId ittAddr numEventsLog2 valid =>
    some (pushMapd deviceId ittAddr numEventsLog2 valid)
  | .mapc icid redist valid =>
    (rdbaseForRedist (some its) [redist.redistributor] 0).map (pushMapc icid · valid)
  | .mapti deviceId eventId lpiId icid => some (pushMapti deviceId eventId lpiId icid)
  | .inv deviceId eventId     => some (pushInv deviceId eventId)
  | .discard deviceId eventId => some (pushDiscard deviceId eventId)
  | .invall icid              => some (pushInvall icid)
  | .sync redist              =>
    (rdbaseForRedist (some its) [redist.redistributor] 0).map pushSync

/-- The ITS wants the addresses of redistributors, not their numbers. -/
def usesAddresses (its : BitVec 64) : Bool := its.getLsbD 19

/-- What stands for a redistributor: its address without the lowest 16 bits, or its number. -/
def rdbase (its : BitVec 64) (redist : DmapRedist) : Nat :=
  if usesAddresses its then redist.phys >>> 16 else (takeBits 16 redist.typer 8).toNat

def Asks (its : BitVec 64) : PushRequest → ItsCommand → Prop
  | .mapd deviceId ittAddr numEventsLog2 valid, c =>
    ∃ size itt, c = .mapd deviceId size itt valid ∧ size.toNat + 1 = numEventsLog2.toNat ∧
      itt.toNat * 2 ^ 8 = ittAddr.toNat
  | .mapc icid redist valid, c =>
    ∃ id rd, c = .mapc id rd valid ∧ id.toNat = icid.toNat ∧ rd.toNat = rdbase its redist
  | .mapti deviceId eventId lpiId icid, c =>
    ∃ id, c = .mapti deviceId eventId lpiId id ∧ id.toNat = icid.toNat
  | .inv deviceId eventId, c     => c = .inv deviceId eventId
  | .discard deviceId eventId, c => c = .discard deviceId eventId
  | .invall icid, c              => ∃ id, c = .invall id ∧ id.toNat = icid.toNat
  | .sync redist, c              => ∃ rd, c = .sync rd ∧ rd.toNat = rdbase its redist

/-- The words are decoded to what was asked for. -/
def Carried (its : BitVec 64) (r : PushRequest) : Prop :=
  ∃ w c, r.words its = some w ∧ decode w = some c ∧ r.Asks its c

def NamesRedist : PushRequest → Prop
  | .mapc .. => True
  | .sync .. => True
  | _        => False

variable {its : BitVec 64} {r : PushRequest}

lemma carried_iff_of_encode {w : Words} {c : ItsCommand} (hw : r.words its = some w)
    (hc : w = c.encode) : r.Carried its ↔ r.Asks its c := by
  constructor
  · rintro ⟨w', c', hw', hc', hasks⟩
    obtain rfl := Option.some.inj (hw.symm.trans hw')
    rw [decode_eq_some_iff.2 hc] at hc'
    rw [Option.some.inj hc']
    exact hasks
  · intro hasks
    exact ⟨w, c, hw, decode_eq_some_iff.2 hc, hasks⟩

/-- A pointer into the direct map is left as it is. -/
lemma physAddrToDmap_physAddrToDmap {phys : Nat} (h : phys < 2 ^ 48) :
    physAddrToDmap (physAddrToDmap phys) = phys + dmapStart := by
  have hshift : (phys + dmapStart) >>> 48 = 0xFFFF := by
    rw [Nat.shiftRight_eq_div_pow, dmapStart_eq]
    omega
  have hkernel : isKernelAddress (phys + dmapStart) = true := by
    rw [isKernelAddress, hshift]
    rfl
  rw [physAddrToDmap_of_lt h, physAddrToDmap, if_pos hkernel]

lemma rdbaseForRedist_eq (its : BitVec 64) (redist : DmapRedist) :
    rdbaseForRedist (some its) [redist.redistributor] 0 =
      some (if usesAddresses its then BitVec.ofNat 64 ((redist.phys + dmapStart) >>> 16)
        else GicrTyper.processorNumber.lift redist.typer) := by
  have hpta : (GitsTyper.pta.lift its != 0) = usesAddresses its := Field.lift_bne_zero rfl its
  have hphys : physAddrToDmap redist.redistributor.ptr = redist.phys + dmapStart :=
    physAddrToDmap_physAddrToDmap redist.lt
  rw [rdbaseForRedist]
  simp only [Option.bind_eq_bind, Option.bind_some, List.getElem?_cons_zero, hpta, hphys]
  rfl

lemma processorNumber_toNat (typer : BitVec 64) :
    ((GicrTyper.processorNumber.lift typer).setWidth 36).toNat = (takeBits 16 typer 8).toNat := by
  rw [Field.lift_eq_takeBits, BitVec.setWidth_setWidth_of_le _ (by decide)]
  exact BitVec.toNat_setWidth_of_le (by decide)

/-- It stands for the redistributor if the ITS wants numbers, and only then. -/
lemma rdbase_eq_iff {v : BitVec 64} {redist : DmapRedist}
    (hv : rdbaseForRedist (some its) [redist.redistributor] 0 = some v) :
    (v.setWidth 36).toNat = rdbase its redist ↔ usesAddresses its = false := by
  rw [rdbaseForRedist_eq] at hv
  obtain rfl := Option.some.inj hv
  have hlt := redist.lt
  rw [rdbase]
  cases usesAddresses its with
  | false => simpa using processorNumber_toNat redist.typer
  | true =>
    -- the bits of `dmapStart` are left in the highest bits of the field
    have hbits : ((BitVec.ofNat 64 ((redist.phys + dmapStart) >>> 16)).setWidth 36).toNat =
        redist.phys >>> 16 + 15 * 2 ^ 32 := by
      rw [BitVec.toNat_setWidth, BitVec.toNat_ofNat, Nat.shiftRight_eq_div_pow,
        Nat.shiftRight_eq_div_pow, dmapStart_eq]
      omega
    rw [if_pos rfl, if_pos rfl, hbits]
    constructor
    · intro heq
      omega
    · intro heq
      cases heq

lemma icid_toNat {icid : BitVec 32} (h : icid.toNat < 2 ^ 16) :
    (icid.setWidth 16).toNat = icid.toNat := by
  rw [BitVec.toNat_setWidth, Nat.mod_eq_of_lt h]

lemma carried_mapc_iff {icid : BitVec 32} {redist : DmapRedist} {valid : Bool}
    (h : icid.toNat < 2 ^ 16) :
    (mapc icid redist valid).Carried its ↔ usesAddresses its = false := by
  obtain ⟨v, hv⟩ : ∃ v, rdbaseForRedist (some its) [redist.redistributor] 0 = some v :=
    ⟨_, rdbaseForRedist_eq its redist⟩
  have hw : (mapc icid redist valid).words its = some (pushMapc icid v valid) := by
    rw [words, hv]
    rfl
  rw [carried_iff_of_encode hw (pushMapc_eq ..)]
  constructor
  · rintro ⟨id, rd, heq, -, hrd⟩
    cases heq
    exact (rdbase_eq_iff hv).1 hrd
  · intro hpta
    exact ⟨_, _, rfl, icid_toNat h, (rdbase_eq_iff hv).2 hpta⟩

lemma carried_sync_iff {redist : DmapRedist} :
    (sync redist).Carried its ↔ usesAddresses its = false := by
  obtain ⟨v, hv⟩ : ∃ v, rdbaseForRedist (some its) [redist.redistributor] 0 = some v :=
    ⟨_, rdbaseForRedist_eq its redist⟩
  have hw : (sync redist).words its = some (pushSync v) := by
    rw [words, hv]
    rfl
  rw [carried_iff_of_encode hw (pushSync_eq ..)]
  constructor
  · rintro ⟨rd, heq, hrd⟩
    cases heq
    exact (rdbase_eq_iff hv).1 hrd
  · intro hpta
    exact ⟨_, rfl, (rdbase_eq_iff hv).2 hpta⟩

/-- The commands carry what was asked, unless a redistributor is named by its address. -/
theorem carried_iff (h : r.InRange) :
    r.Carried its ↔ (r.NamesRedist → usesAddresses its = false) := by
  cases r with
  | mapd deviceId ittAddr numEventsLog2 valid =>
    obtain ⟨hlt, hdvd, hpos, hle⟩ := h
    rw [carried_iff_of_encode rfl (pushMapd_eq _ _ _ _ (by bv_omega))]
    have hsize : ((numEventsLog2 - 1).setWidth 5).toNat + 1 = numEventsLog2.toNat := by
      bv_omega
    have hitt : ((ittAddr >>> 8).setWidth 44).toNat * 2 ^ 8 = ittAddr.toNat := by
      rw [BitVec.toNat_setWidth, BitVec.toNat_ushiftRight, Nat.shiftRight_eq_div_pow,
        Nat.mod_eq_of_lt (by omega), Nat.div_mul_cancel hdvd]
    exact ⟨fun _ hnames => hnames.elim, fun _ => ⟨_, _, rfl, hsize, hitt⟩⟩
  | mapc icid redist valid =>
    rw [carried_mapc_iff h]
    simp [NamesRedist]
  | mapti deviceId eventId lpiId icid =>
    rw [carried_iff_of_encode rfl (pushMapti_eq ..)]
    simp [Asks, NamesRedist, icid_toNat h]
  | inv deviceId eventId =>
    rw [carried_iff_of_encode rfl (pushInv_eq ..)]
    simp [Asks, NamesRedist]
  | discard deviceId eventId =>
    rw [carried_iff_of_encode rfl (pushDiscard_eq ..)]
    simp [Asks, NamesRedist]
  | invall icid =>
    rw [carried_iff_of_encode rfl (pushInvall_eq ..)]
    simp [Asks, NamesRedist, icid_toNat h]
  | sync redist =>
    rw [carried_sync_iff]
    simp [NamesRedist]

def redist3 : DmapRedist := ⟨0x80A0000, 0x300#64, by decide, by decide⟩

lemma inRange_redist3 : (mapc 3#32 redist3 true).InRange := by
  rw [InRange]
  decide

theorem carried_mapc_number : (mapc 3#32 redist3 true).InRange ∧
    (mapc 3#32 redist3 true).Carried 0#64 :=
  ⟨inRange_redist3, (carried_iff inRange_redist3).2 fun _ => by decide⟩

/-- It is not named by its address when the ITS wants addresses. -/
theorem not_carried_mapc_address : (mapc 3#32 redist3 true).InRange ∧
    ¬ (mapc 3#32 redist3 true).Carried (1#64 <<< 19) := by
  refine ⟨inRange_redist3, fun hcarried => ?_⟩
  have hpta := (carried_mapc_iff (by decide)).1 hcarried
  exact absurd hpta (by decide)

end PushRequest

end Mars.Gic
