import Mars.Gic.Msi
import Mars.Lib.Fields

/-!
# Registers of the distributor and of the redistributors

Embedding of `enable_interrupt`, `disable_interrupt`, `set_priority` and `set_affinity` of
`klib/src/interrupt/gicv3/mod.rs`, with the offsets of `GicdRegisters` and `GicrRegisters`, and what
a write does according to the architecture. The loops that wait for a write are left out.
-/

namespace Mars.Gic

open Lib

/-! ### Writes -/

/-- A register that is written: its offset, its size in bytes and the value. A redistributor is
given by its index; `prop` is a byte of the table with the properties of LPIs. -/
inductive RegWrite where
  | gicd (offset size value : Nat)
  | gicr (redist offset size value : Nat)
  | prop (index : Nat) (value : BitVec 8)
deriving DecidableEq

inductive RegPanic where
  | indexOutOfBounds
deriving DecidableEq

structure RegArray where
  base : Nat
  size : Nat
  len : Nat

def RegArray.offset (a : RegArray) (i : Nat) : Except RegPanic Nat :=
  if i < a.len then .ok (a.base + a.size * i) else .error .indexOutOfBounds

namespace GicdRegisters

def isetEnable : RegArray := ⟨0x0100, 4, 32⟩

def iclearEnable : RegArray := ⟨0x0180, 4, 32⟩

def ipriority : RegArray := ⟨0x0400, 1, 1024⟩

def irouter : RegArray := ⟨0x6100, 8, 992⟩

end GicdRegisters

namespace GicrRegisters

def isetEnable0 : Nat := 0x10100

def iclearEnable0 : Nat := 0x10180

def ipriority : RegArray := ⟨0x10400, 1, 32⟩

end GicrRegisters

namespace LpiProp

def enabled : Field 8 := ⟨0, 1, by decide⟩

def priority : Field 8 := ⟨2, 6, by decide⟩

end LpiProp

/-! ### The calls -/

/-- What the calls use of `GicV3`, on one CPU. The last two fields are how `push_inv` and
`push_sync` will end. -/
structure GicPort where
  redistributors : Nat
  cpu : Nat
  cpu_lt : cpu < redistributors
  lpiPropTable : Option Nat
  /-- The bytes of the table. -/
  prop : Nat → BitVec 8
  its : Bool
  lpiToEvent : Nat → Option (Nat × Nat × Nat)
  pushInv : Except InterruptError Unit
  pushSync : Except InterruptError Unit

/-- How a call returns and what it has written. -/
structure RegOutcome where
  result : Except InterruptError Unit
  writes : List RegWrite

/-- `(LPI_START..=MAX_LPI_ID).contains(&int_id)` -/
def IsLpi (intId : Nat) : Prop := LPI_START ≤ intId ∧ intId ≤ MAX_LPI_ID

instance : DecidablePred IsLpi := fun _ => inferInstanceAs (Decidable (_ ∧ _))

namespace GicPort

variable (s : GicPort)

/-- The commands at the end of `update_lpi_prop`. -/
def invalidateLpi (intId : Nat) : Except InterruptError Unit :=
  if s.its then
    match s.lpiToEvent intId with
    | none              => .ok ()
    | some (_, _, icid) => do
      s.pushInv
      if icid < s.redistributors then s.pushSync else .ok ()
  else .ok ()

def updateLpiProp (intId : Nat) (updateFn : BitVec 8 → BitVec 8) : RegOutcome :=
  match s.lpiPropTable with
  | none   => ⟨.ok (), []⟩
  | some _ =>
    let index := intId - LPI_START
    ⟨s.invalidateLpi intId, [.prop index (updateFn (s.prop index))]⟩

def enableInterrupt (intId : Nat) : Except RegPanic RegOutcome :=
  if intId < 32 then
    .ok ⟨.ok (), [.gicr s.cpu GicrRegisters.isetEnable0 4 (1 <<< intId)]⟩
  else if intId < 1020 then do
    let offset ← GicdRegisters.isetEnable.offset (intId / 32)
    .ok ⟨.ok (), [.gicd offset 4 (1 <<< (intId % 32))]⟩
  else if IsLpi intId then .ok (s.updateLpiProp intId fun b => LpiProp.enabled.modify b 1)
  else .ok ⟨.error .invalidInterruptId, []⟩

def disableInterrupt (intId : Nat) : Except RegPanic RegOutcome :=
  if intId < 32 then
    .ok ⟨.ok (), [.gicr s.cpu GicrRegisters.iclearEnable0 4 (1 <<< intId)]⟩
  else if intId < 1020 then do
    let offset ← GicdRegisters.iclearEnable.offset (intId / 32)
    .ok ⟨.ok (), [.gicd offset 4 (1 <<< (intId % 32))]⟩
  else if IsLpi intId then .ok (s.updateLpiProp intId fun b => LpiProp.enabled.modify b 0)
  else .ok ⟨.error .invalidInterruptId, []⟩

def setPriority (intId : Nat) (priority : BitVec 8) : Except RegPanic RegOutcome :=
  if intId < 32 then do
    let offset ← GicrRegisters.ipriority.offset intId
    .ok ⟨.ok (), [.gicr s.cpu offset 1 priority.toNat]⟩
  else if intId < 1020 then do
    let offset ← GicdRegisters.ipriority.offset intId
    .ok ⟨.ok (), [.gicd offset 1 priority.toNat]⟩
  else if IsLpi intId then
    .ok (s.updateLpiProp intId fun b => LpiProp.priority.modify b (priority >>> 2))
  else .ok ⟨.error .invalidInterruptId, []⟩

def setAffinity (_s : GicPort) (intId : Nat) (affinity : BitVec 64) : Except RegPanic RegOutcome :=
  if intId < 32 then .ok ⟨.error .notSupported, []⟩
  else if 1020 ≤ intId then .ok ⟨.error .invalidInterruptId, []⟩
  else do
    let offset ← GicdRegisters.irouter.offset intId
    .ok ⟨.ok (), [.gicd offset 8 affinity.toNat]⟩

end GicPort

/-- The calls, but for the interrupt. -/
inductive RegOp where
  | enable
  | disable
  | priority (value : BitVec 8)
  | affinity (value : BitVec 64)

def RegOp.run (s : GicPort) (intId : Nat) : RegOp → Except RegPanic RegOutcome
  | .enable         => s.enableInterrupt intId
  | .disable        => s.disableInterrupt intId
  | .priority value => s.setPriority intId value
  | .affinity value => s.setAffinity intId value

/-! ### The architecture -/

/-- An interrupt. SGIs and PPIs belong to a redistributor. -/
inductive Interrupt where
  | ppi (redist id : Nat)
  | spi (id : Nat)
  | lpi (id : Nat)
deriving DecidableEq

def Interrupt.Valid : Interrupt → Prop
  | .ppi _ id => id < 32
  | .spi id   => 32 ≤ id ∧ id < 1020
  | .lpi id   => IsLpi id

/-- How an interrupt is configured; `route` is for SPIs. -/
structure IntConfig where
  enabled : Bool
  priority : BitVec 8
  route : BitVec 64

/-- What a write to the distributor does to an SPI. -/
def IntConfig.gicd (c : IntConfig) (id offset size value : Nat) : IntConfig where
  enabled :=
    if size = 4 ∧ offset = 0x100 + 4 * (id / 32) ∧ value.testBit (id % 32) then true
    else if size = 4 ∧ offset = 0x180 + 4 * (id / 32) ∧ value.testBit (id % 32) then false
    else c.enabled
  priority := if size = 1 ∧ offset = 0x400 + id then BitVec.ofNat 8 value else c.priority
  route := if size = 8 ∧ offset = 0x6000 + 8 * id then BitVec.ofNat 64 value else c.route

/-- What a write to a redistributor does to one of its SGIs and PPIs. -/
def IntConfig.gicr (c : IntConfig) (id offset size value : Nat) : IntConfig where
  enabled :=
    if size = 4 ∧ offset = 0x10100 ∧ value.testBit id then true
    else if size = 4 ∧ offset = 0x10180 ∧ value.testBit id then false
    else c.enabled
  priority := if size = 1 ∧ offset = 0x10400 + id then BitVec.ofNat 8 value else c.priority
  route := c.route

/-- What a write does to the configuration of the interrupts. -/
def RegWrite.apply (config : Interrupt → IntConfig) : RegWrite → Interrupt → IntConfig
  | .gicd offset size value, .spi id          => (config (.spi id)).gicd id offset size value
  | .gicr redist offset size value, .ppi r id =>
    if r = redist then (config (.ppi r id)).gicr id offset size value else config (.ppi r id)
  | .prop index value, .lpi id                =>
    if id = 8192 + index then ⟨value.getLsbD 0, value &&& 0xFC#8, (config (.lpi id)).route⟩
    else config (.lpi id)
  | _, i                                      => config i

/-- The interrupt with the id, on the CPU of the call. -/
def GicPort.interrupt (s : GicPort) (intId : Nat) : Interrupt :=
  if intId < 32 then .ppi s.cpu intId else if intId < 1020 then .spi intId else .lpi intId

/-- The write that the architecture has for the call. -/
def RegOp.architectural (s : GicPort) (intId : Nat) : RegOp → RegWrite
  | .enable =>
    match s.interrupt intId with
    | .ppi r id => .gicr r 0x10100 4 (2 ^ id)
    | .spi id   => .gicd (0x100 + 4 * (id / 32)) 4 (2 ^ (id % 32))
    | .lpi id   => .prop (id - 8192) (s.prop (id - 8192) ||| 1#8)
  | .disable =>
    match s.interrupt intId with
    | .ppi r id => .gicr r 0x10180 4 (2 ^ id)
    | .spi id   => .gicd (0x180 + 4 * (id / 32)) 4 (2 ^ (id % 32))
    | .lpi id   => .prop (id - 8192) (s.prop (id - 8192) &&& 0xFE#8)
  | .priority value =>
    match s.interrupt intId with
    | .ppi r id => .gicr r (0x10400 + id) 1 value.toNat
    | .spi id   => .gicd (0x400 + id) 1 value.toNat
    | .lpi id   => .prop (id - 8192) ((s.prop (id - 8192) &&& 0x03#8) ||| (value &&& 0xFC#8))
  | .affinity value => .gicd (0x6000 + 8 * intId) 8 value.toNat

/-- The call fails without a write, or makes the write of the architecture, and no other interrupt
is configured. -/
def RegOp.Exact (s : GicPort) (intId : Nat) (op : RegOp) : Prop :=
  ∃ out, op.run s intId = .ok out ∧
    ((∃ e, out.result = .error e ∧ out.writes = []) ∨
      (out.result = .ok () ∧ out.writes = [op.architectural s intId])) ∧
    ∀ config i, i.Valid → i ≠ s.interrupt intId →
      out.writes.foldl (fun c w => w.apply c) config i = config i

/-- The commands for the ITS succeed if there are any. -/
def GicPort.CommandsSucceed (s : GicPort) (intId : Nat) : Prop :=
  s.its = true → ∀ deviceId eventId icid, s.lpiToEvent intId = some (deviceId, eventId, icid) →
    s.pushInv = .ok () ∧ (icid < s.redistributors → s.pushSync = .ok ())

def RegOp.Sound (s : GicPort) (intId : Nat) : RegOp → Prop
  | .affinity _ => intId < 32 ∨ 1020 ≤ intId
  | _           => IsLpi intId → s.lpiPropTable ≠ none ∧ s.CommandsSucceed intId

/-! ### LPIs -/

section Lpi

lemma enabled_modify_one (b : BitVec 8) : LpiProp.enabled.modify b 1 = b ||| 1#8 := by
  revert b
  decide

lemma enabled_modify_zero (b : BitVec 8) : LpiProp.enabled.modify b 0 = b &&& 0xFE#8 := by
  revert b
  decide

lemma priority_modify (b value : BitVec 8) :
    LpiProp.priority.modify b (value >>> 2) = (b &&& 0x03#8) ||| (value &&& 0xFC#8) := by
  have hmask : LpiProp.priority.mask = 0xFC#8 := by decide
  have hones : LpiProp.priority.ones = 0x3F#8 := by decide
  have hlower : ∀ v : BitVec 8, ((v >>> 2) &&& 0x3F#8) <<< 2 = v &&& 0xFC#8 := by decide
  rw [Field.modify, Field.lower, hmask, hones]
  exact congrArg ((b &&& 0x03#8) ||| ·) (hlower value)

lemma GicPort.invalidateLpi_eq_ok_iff {s : GicPort} {intId : Nat} :
    s.invalidateLpi intId = .ok () ↔ s.CommandsSucceed intId := by
  rw [invalidateLpi, CommandsSucceed]
  cases s.its with
  | false => simp
  | true =>
    cases s.lpiToEvent intId with
    | none => simp
    | some e =>
      obtain ⟨deviceId, eventId, icid⟩ := e
      cases s.pushInv with
      | error err => simp [bind, Except.bind]
      | ok u =>
        by_cases hlt : icid < s.redistributors
        · simp [bind, Except.bind, hlt]
        · simp [bind, Except.bind, hlt]

end Lpi

/-! ### Which interrupts a write configures -/

section Isolation

/-- The write configures no other interrupt. -/
def RegWrite.Isolates (w : RegWrite) (target : Interrupt) : Prop :=
  ∀ config i, i.Valid → i ≠ target → w.apply config i = config i

variable {redist id : Nat}

lemma isolates_gicr {offset size value : Nat}
    (h : ∀ (c : IntConfig) id', id ≠ id' → c.gicr id' offset size value = c) :
    (RegWrite.gicr redist offset size value).Isolates (.ppi redist id) := by
  rintro config (⟨r, id'⟩ | id' | id') hvalid hne
  · rw [RegWrite.apply]
    split_ifs with hr
    · exact h _ id' (by rintro rfl; exact hne (by rw [hr]))
    · rfl
  · rfl
  · rfl

lemma isolates_gicr_enable {offset : Nat} :
    (RegWrite.gicr redist offset 4 (2 ^ id)).Isolates (.ppi redist id) :=
  isolates_gicr fun c id' hid => by simp [IntConfig.gicr, hid]

lemma isolates_gicr_priority {value : Nat} :
    (RegWrite.gicr redist (0x10400 + id) 1 value).Isolates (.ppi redist id) :=
  isolates_gicr fun c id' hid => by simp [IntConfig.gicr, hid]

lemma eq_of_div_mod {id' : Nat} (hdiv : id / 32 = id' / 32) (hmod : id % 32 = id' % 32) :
    id = id' := by
  rw [← Nat.div_add_mod id 32, hdiv, hmod, Nat.div_add_mod]

lemma isolates_gicd_enable (hid : id < 1020) {offset : Nat}
    (hoffset : offset = 0x100 ∨ offset = 0x180) :
    (RegWrite.gicd (offset + 4 * (id / 32)) 4 (2 ^ (id % 32))).Isolates (.spi id) := by
  rintro config (⟨r, id'⟩ | id' | id') hvalid hne
  · rfl
  · obtain ⟨hlow, hhigh⟩ := hvalid
    have hne' : id ≠ id' := by
      rintro rfl
      exact hne rfl
    -- the offset is in the other array, or the bit is another one
    have hbit : ∀ base, base = 0x100 ∨ base = 0x180 →
        ¬ (offset + 4 * (id / 32) = base + 4 * (id' / 32) ∧ id % 32 = id' % 32) := by
      rintro base hbase ⟨heq, hmod⟩
      have hdiv : id / 32 = id' / 32 := by omega
      exact hne' (eq_of_div_mod hdiv hmod)
    have h1 := hbit 0x100 (.inl rfl)
    have h2 := hbit 0x180 (.inr rfl)
    simp only [RegWrite.apply, IntConfig.gicd, Nat.testBit_two_pow, decide_eq_true_eq, true_and]
    rw [if_neg h1, if_neg h2]
    simp
  · rfl

lemma isolates_gicd_priority {value : Nat} :
    (RegWrite.gicd (0x400 + id) 1 value).Isolates (.spi id) := by
  rintro config (⟨r, id'⟩ | id' | id') hvalid hne
  · rfl
  · have hid : id ≠ id' := by
      rintro rfl
      exact hne rfl
    simp [RegWrite.apply, IntConfig.gicd, hid]
  · rfl

lemma isolates_prop (index : Nat) (value : BitVec 8) :
    (RegWrite.prop index value).Isolates (.lpi (8192 + index)) := by
  rintro config (⟨r, id'⟩ | id' | id') hvalid hne
  · rfl
  · rfl
  · have hid : id' ≠ 8192 + index := by
      rintro rfl
      exact hne rfl
    simp [RegWrite.apply, hid]

end Isolation

/-! ### The calls -/

section Calls

variable {s : GicPort} {intId : Nat} {op : RegOp}

lemma RegOp.exact_of_write (hrun : op.run s intId = .ok ⟨.ok (), [op.architectural s intId]⟩)
    (hiso : (op.architectural s intId).Isolates (s.interrupt intId)) : op.Exact s intId :=
  ⟨_, hrun, .inr ⟨rfl, rfl⟩, fun config i hi hne => hiso config i hi hne⟩

lemma RegOp.exact_of_error {e : InterruptError} (hrun : op.run s intId = .ok ⟨.error e, []⟩) :
    op.Exact s intId :=
  ⟨_, hrun, .inl ⟨e, rfl, rfl⟩, fun _ _ _ _ => rfl⟩

lemma IsLpi.interrupt (h : IsLpi intId) : s.interrupt intId = .lpi intId := by
  have hle : 8192 ≤ intId := h.1
  rw [GicPort.interrupt, if_neg (by omega), if_neg (by omega)]

/-- An LPI is configured if there is a table, and without an error if the commands succeed. -/
lemma RegOp.exact_lpi_iff (h : IsLpi intId) {f : BitVec 8 → BitVec 8}
    (hrun : op.run s intId = .ok (s.updateLpiProp intId f))
    (harch : op.architectural s intId =
      .prop (intId - LPI_START) (f (s.prop (intId - LPI_START)))) :
    op.Exact s intId ↔ s.lpiPropTable ≠ none ∧ s.CommandsSucceed intId := by
  rw [← GicPort.invalidateLpi_eq_ok_iff]
  have hiso : (op.architectural s intId).Isolates (s.interrupt intId) := by
    have hid : 8192 + (intId - LPI_START) = intId := Nat.add_sub_cancel' h.1
    have hprop := isolates_prop (intId - LPI_START) (f (s.prop (intId - LPI_START)))
    rw [hid] at hprop
    rw [harch, h.interrupt]
    exact hprop
  cases htable : s.lpiPropTable with
  | none =>
    have hout : s.updateLpiProp intId f = ⟨.ok (), []⟩ := by rw [GicPort.updateLpiProp, htable]
    refine ⟨?_, fun hnot => absurd rfl hnot.1⟩
    rintro ⟨out, hok, hcases, -⟩
    rw [hrun, hout] at hok
    obtain rfl := Except.ok.inj hok
    rcases hcases with ⟨e, he, -⟩ | ⟨-, hwrites⟩
    · cases he
    · cases hwrites
  | some table =>
    have hout : s.updateLpiProp intId f =
        ⟨s.invalidateLpi intId, [op.architectural s intId]⟩ := by
      rw [GicPort.updateLpiProp, htable, harch]
    constructor
    · rintro ⟨out, hok, hcases, -⟩
      rw [hrun, hout] at hok
      obtain rfl := Except.ok.inj hok
      rcases hcases with ⟨e, -, hwrites⟩ | ⟨hresult, -⟩
      · cases hwrites
      · exact ⟨by simp, hresult⟩
    · rintro ⟨-, hok⟩
      rw [hout, hok] at hrun
      exact exact_of_write hrun hiso

lemma RegOp.exact_of_lt (hlt : intId < 1020) (hop : ∀ value, op ≠ .affinity value) :
    op.Exact s intId := by
  by_cases hpriv : intId < 32
  · have htarget : s.interrupt intId = .ppi s.cpu intId := if_pos hpriv
    cases op with
    | enable =>
      refine exact_of_write ?_ ?_
      · simp [run, GicPort.enableInterrupt, architectural, htarget, hpriv, Nat.shiftLeft_eq,
          GicrRegisters.isetEnable0]
      · rw [architectural, htarget]
        exact isolates_gicr_enable
    | disable =>
      refine exact_of_write ?_ ?_
      · simp [run, GicPort.disableInterrupt, architectural, htarget, hpriv, Nat.shiftLeft_eq,
          GicrRegisters.iclearEnable0]
      · rw [architectural, htarget]
        exact isolates_gicr_enable
    | priority value =>
      refine exact_of_write ?_ ?_
      · simp [run, GicPort.setPriority, architectural, htarget, hpriv, GicrRegisters.ipriority,
          RegArray.offset, bind, Except.bind]
      · rw [architectural, htarget]
        exact isolates_gicr_priority
    | affinity value => exact absurd rfl (hop value)
  · have htarget : s.interrupt intId = .spi intId := by
      rw [GicPort.interrupt, if_neg hpriv, if_pos hlt]
    have hindex : intId / 32 < 32 := by omega
    have hlen : intId < 1024 := by omega
    cases op with
    | enable =>
      refine exact_of_write ?_ ?_
      · simp [run, GicPort.enableInterrupt, architectural, htarget, hpriv, hlt, hindex,
          Nat.shiftLeft_eq, GicdRegisters.isetEnable, RegArray.offset, bind, Except.bind]
      · rw [architectural, htarget]
        exact isolates_gicd_enable hlt (.inl rfl)
    | disable =>
      refine exact_of_write ?_ ?_
      · simp [run, GicPort.disableInterrupt, architectural, htarget, hpriv, hlt, hindex,
          Nat.shiftLeft_eq, GicdRegisters.iclearEnable, RegArray.offset, bind, Except.bind]
      · rw [architectural, htarget]
        exact isolates_gicd_enable hlt (.inr rfl)
    | priority value =>
      refine exact_of_write ?_ ?_
      · simp [run, GicPort.setPriority, architectural, htarget, hpriv, hlt, hlen,
          GicdRegisters.ipriority, RegArray.offset, bind, Except.bind]
      · rw [architectural, htarget]
        exact isolates_gicd_priority
    | affinity value => exact absurd rfl (hop value)

/-- The array of routers starts at the interrupt 32, the index at 0. -/
lemma RegOp.not_exact_affinity {value : BitVec 64} (hlow : 32 ≤ intId) (hhigh : intId < 1020) :
    ¬ (affinity value).Exact s intId := by
  have hpriv : ¬ intId < 32 := by omega
  have hspi : ¬ 1020 ≤ intId := by omega
  rintro ⟨out, hok, hcases, -⟩
  rw [run, GicPort.setAffinity, if_neg hpriv, if_neg hspi, RegArray.offset] at hok
  split_ifs at hok with hindex
  · obtain rfl := Except.ok.inj hok
    rcases hcases with ⟨e, he, -⟩ | ⟨-, hwrites⟩
    · cases he
    · rw [architectural, List.cons.injEq, RegWrite.gicd.injEq, GicdRegisters.irouter] at hwrites
      dsimp only at hwrites
      omega
  · cases hok

/-- The calls that are made for LPIs too, where `f` changes the properties of an LPI. -/
lemma RegOp.exact_iff_of_update (hop : ∀ value, op ≠ .affinity value) (f : BitVec 8 → BitVec 8)
    (hlpi : IsLpi intId → op.run s intId = .ok (s.updateLpiProp intId f) ∧
      op.architectural s intId = .prop (intId - LPI_START) (f (s.prop (intId - LPI_START))))
    (herr : 1020 ≤ intId → ¬ IsLpi intId →
      op.run s intId = .ok ⟨.error .invalidInterruptId, []⟩) :
    op.Exact s intId ↔ (IsLpi intId → s.lpiPropTable ≠ none ∧ s.CommandsSucceed intId) := by
  by_cases h : IsLpi intId
  · rw [exact_lpi_iff h (hlpi h).1 (hlpi h).2]
    exact ⟨fun hok _ => hok, fun hok => hok h⟩
  · refine ⟨fun _ hnot => absurd hnot h, fun _ => ?_⟩
    rcases Nat.lt_or_ge intId 1020 with hlt | hge
    · exact exact_of_lt hlt hop
    · exact exact_of_error (herr hge h)

/-- A call that configures an interrupt does so, and no other one, unless it sets an affinity or
there is no table for LPIs or a command fails. -/
theorem RegOp.exact_iff_sound (op : RegOp) (s : GicPort) (intId : Nat) :
    op.Exact s intId ↔ op.Sound s intId := by
  have hnot : IsLpi intId → ¬ intId < 32 ∧ ¬ intId < 1020 := by
    rintro ⟨hle, -⟩
    have hle' : 8192 ≤ intId := hle
    omega
  cases op with
  | enable =>
    refine exact_iff_of_update (by simp) (fun b => LpiProp.enabled.modify b 1) ?_ ?_
    · intro h
      refine ⟨?_, ?_⟩
      · rw [run, GicPort.enableInterrupt, if_neg (hnot h).1, if_neg (hnot h).2, if_pos h]
      · rw [architectural, h.interrupt, enabled_modify_one]
        rfl
    · intro hge h
      rw [run, GicPort.enableInterrupt, if_neg (by omega), if_neg (by omega), if_neg h]
  | disable =>
    refine exact_iff_of_update (by simp) (fun b => LpiProp.enabled.modify b 0) ?_ ?_
    · intro h
      refine ⟨?_, ?_⟩
      · rw [run, GicPort.disableInterrupt, if_neg (hnot h).1, if_neg (hnot h).2, if_pos h]
      · rw [architectural, h.interrupt, enabled_modify_zero]
        rfl
    · intro hge h
      rw [run, GicPort.disableInterrupt, if_neg (by omega), if_neg (by omega), if_neg h]
  | priority value =>
    refine exact_iff_of_update (by simp) (fun b => LpiProp.priority.modify b (value >>> 2)) ?_ ?_
    · intro h
      refine ⟨?_, ?_⟩
      · rw [run, GicPort.setPriority, if_neg (hnot h).1, if_neg (hnot h).2, if_pos h]
      · rw [architectural, h.interrupt, priority_modify]
        rfl
    · intro hge h
      rw [run, GicPort.setPriority, if_neg (by omega), if_neg (by omega), if_neg h]
  | affinity value =>
    constructor
    · intro hexact
      by_contra hbad
      rw [Sound, not_or, Nat.not_lt, Nat.not_le] at hbad
      exact not_exact_affinity hbad.1 hbad.2 hexact
    · rintro (hlt | hge)
      · exact exact_of_error (e := .notSupported) (if_pos hlt)
      · refine exact_of_error (e := .invalidInterruptId) ?_
        rw [run, GicPort.setAffinity, if_neg (by omega), if_pos hge]

def firstPort : GicPort :=
  ⟨1, 0, by decide, none, fun _ => 0, false, fun _ => none, .ok (), .ok ()⟩

/-- The affinity of the interrupt 40 becomes that of the interrupt 72. -/
theorem setAffinity_routes_other : ¬ (RegOp.affinity 3#64).Exact firstPort 40 ∧
    ∃ out, (RegOp.affinity 3#64).run firstPort 40 = .ok out ∧ out.result = .ok () ∧
      ∀ config : Interrupt → IntConfig,
        (out.writes.foldl (fun c w => w.apply c) config (.spi 72)).route = 3#64 ∧
        (out.writes.foldl (fun c w => w.apply c) config (.spi 40)) = config (.spi 40) := by
  refine ⟨RegOp.not_exact_affinity (by decide) (by decide), _, rfl, rfl, fun config => ?_⟩
  exact ⟨rfl, rfl⟩

end Calls

end Mars.Gic
