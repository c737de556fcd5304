import Mars.Gic.Msi
import Mars.Lib.Ring

/-!
# The command queue of the ITS

`push_cmd` writes a command to the next slot of a ring, moves the write pointer on and waits for the
ITS to come to the same place. There is one call at a time, but the ITS reads at its own pace: a
call can give up while its command is still in the ring.
-/

namespace Mars.Gic

open Function Lib

/-- A value written to the field `Offset`, which has 15 bits. -/
def offsetField (v : Nat) : Nat := v % 2 ^ 16 % 2 ^ 15

lemma offsetField_of_lt {v : Nat} (h : v < 2 ^ 15) : offsetField v = v := by
  rw [offsetField, Nat.mod_mod_of_dvd _ (by decide), Nat.mod_eq_of_lt h]

def maxSpins : Nat := 1000000

def maxRetries : Nat := 3

/-- Where a call of `push_cmd` is; `next` is its `next_write_offset`. -/
inductive PushPc where
  | readCreadr
  | check (currentCreadr : Nat)
  | store (next : Nat)
  | setWriteOffset (next : Nat)
  | setCwriter (next : Nat)
  /-- In the loop, with the rounds that are left and the retries so far. -/
  | pollOffset (next spins retries : Nat)
  | pollStalled (next spins retries : Nat)
  | done (result : Except InterruptError Unit)

structure PushCall (ι C : Type) where
  cpu : ι
  cmd : C
  pc : PushPc

/-- The queue, the registers of the ITS and the call that holds the lock. The lists record the
commands given to the ITS, the commands it has executed, and the calls that have returned. -/
structure CmdRing (ι C : Type) where
  slots : Nat → C
  writeOffset : Nat
  numEntries : Nat
  cwriter : Nat
  creadr : Nat
  stalled : Bool
  call : Option (PushCall ι C)
  pushed : List C
  consumed : List C
  returned : List (C × Except InterruptError Unit)

namespace CmdRing

variable {ι C : Type}

def advance (s : CmdRing ι C) (c : PushCall ι C) : CmdRing ι C :=
  match c.pc with
  | .readCreadr => { s with call := some { c with pc := .check s.creadr } }
  | .check currentCreadr =>
    let next := (s.writeOffset + 1) % s.numEntries
    let pc := if next = currentCreadr then .done (.error .commandQueueFull) else .store next
    { s with call := some { c with pc } }
  | .store next =>
    { s with
      slots := update s.slots s.writeOffset c.cmd
      call := some { c with pc := .setWriteOffset next } }
  | .setWriteOffset next =>
    { s with
      writeOffset := next
      call := some { c with pc := .setCwriter next } }
  | .setCwriter next =>
    { s with
      cwriter := offsetField next
      pushed := s.pushed ++ [c.cmd]
      call := some { c with pc := .pollOffset next maxSpins 0 } }
  | .pollOffset _ 0 _ => { s with call := some { c with pc := .done (.error .commandTimeout) } }
  | .pollOffset next (spins + 1) retries =>
    let pc := if s.creadr = next then .done (.ok ()) else .pollStalled next spins retries
    { s with call := some { c with pc } }
  | .pollStalled next spins retries =>
    let pc :=
      if s.stalled then
        -- the flag `Retry` is set, which the offset does not depend on
        if retries < maxRetries then .pollOffset next spins (retries + 1)
        else .done (.error .hardwareStalled)
      else .pollOffset next spins retries
    { s with call := some { c with pc } }
  | .done result =>
    { s with
      call := none
      returned := s.returned ++ [(c.cmd, result)] }

/-- The ITS executes the command at its read pointer. -/
def consume (s : CmdRing ι C) : CmdRing ι C :=
  { s with
    consumed := s.consumed ++ [s.slots s.creadr]
    creadr := (s.creadr + 1) % s.numEntries }

inductive Step (s : CmdRing ι C) : CmdRing ι C → Prop
  | enter (cpu : ι) (cmd : C) (h : s.call = none) :
      Step s { s with call := some ⟨cpu, cmd, .readCreadr⟩ }
  | advance {c : PushCall ι C} (h : s.call = some c) : Step s (s.advance c)
  | consume (h : s.creadr ≠ s.cwriter) : Step s s.consume
  | setStalled (b : Bool) : Step s { s with stalled := b }

inductive Reach (n : Nat) : CmdRing ι C → Prop
  | start (slots : Nat → C) (stalled : Bool) :
      Reach n ⟨slots, 0, n, 0, 0, stalled, none, [], [], []⟩
  | step {s s' : CmdRing ι C} (h : Reach n s) (hs : Step s s') : Reach n s'

/-! ### What the ring guarantees -/

/-- The command of a call that returned, unless the queue was full. -/
def accepted : C × Except InterruptError Unit → Option C
  | (_, .error .commandQueueFull) => none
  | (cmd, _)                      => some cmd

/-- The command of the call that runs, if the ITS can see it. -/
def inFlight (s : CmdRing ι C) : List C :=
  match s.call with
  | none   => []
  | some c =>
    match c.pc with
    | .pollOffset _ _ _            => [c.cmd]
    | .pollStalled _ _ _           => [c.cmd]
    | .done result                 => (accepted (c.cmd, result)).toList
    | _                            => []

structure Safe (s : CmdRing ι C) : Prop where
  /-- The ITS has executed the first commands, in order, and the others are in their slots. -/
  ring : ∃ pending, s.pushed = s.consumed ++ pending ∧
    pending.length = Ring.dist s.numEntries s.creadr s.cwriter ∧
    ∀ j (hj : j < pending.length), s.slots ((s.creadr + j) % s.numEntries) = pending[j]
  /-- These are the commands of the calls that did not find the queue full. -/
  pushed : s.pushed = s.returned.filterMap accepted ++ s.inFlight
  /-- A command is not written to a slot of a command that has not been executed. -/
  store : ∀ c next, s.call = some c → c.pc = .store next →
    ∀ j < Ring.dist s.numEntries s.creadr s.cwriter,
      (s.creadr + j) % s.numEntries ≠ s.writeOffset
  writeOffset_lt : s.writeOffset < s.numEntries
  /-- The driver and the register agree, but for the time between the two assignments. -/
  writeOffset_eq : (∀ c next, s.call = some c → c.pc ≠ .setCwriter next) →
    s.writeOffset = s.cwriter
  /-- A call that succeeds has had its command executed. -/
  ok : ∀ c, s.call = some c → c.pc = .done (.ok ()) →
    s.consumed = s.pushed ∧ s.pushed.getLast? = some c.cmd

/-! ### The invariant -/

/-- There is room for one more command, which goes before the slot `next`. -/
def Room (s : CmdRing ι C) (next : Nat) : Prop :=
  next = (s.cwriter + 1) % s.numEntries ∧
    Ring.dist s.numEntries s.creadr s.cwriter + 1 < s.numEntries

/-- What holds when a call with the command is at the given place. -/
def At (s : CmdRing ι C) (cmd : C) : PushPc → Prop
  | .readCreadr            => True
  | .check currentCreadr   => currentCreadr < s.numEntries ∧
      Ring.dist s.numEntries s.creadr s.cwriter ≤ Ring.dist s.numEntries currentCreadr s.cwriter
  | .store next            => s.Room next
  | .setWriteOffset next   => s.Room next ∧ s.slots s.cwriter = cmd
  | .setCwriter next       => s.Room next ∧ s.slots s.cwriter = cmd ∧ s.writeOffset = next
  | .pollOffset next _ _   => next = s.cwriter
  | .pollStalled next _ _  => next = s.cwriter
  | .done (.ok _)          => s.creadr = s.cwriter
  | .done (.error _)       => True

structure Inv (n : Nat) (s : CmdRing ι C) : Prop where
  numEntries : s.numEntries = n
  cwriter_lt : s.cwriter < n
  creadr_lt : s.creadr < n
  ring : ∃ pending, s.pushed = s.consumed ++ pending ∧
    pending.length = Ring.dist n s.creadr s.cwriter ∧ Ring.Holds n s.slots s.creadr pending
  pushed : s.pushed = s.returned.filterMap accepted ++ s.inFlight
  writeOffset : (∀ c next, s.call = some c → c.pc ≠ .setCwriter next) → s.writeOffset = s.cwriter
  place : ∀ c, s.call = some c → s.At c.cmd c.pc

variable {n : Nat} {s s' : CmdRing ι C} {c : PushCall ι C}

lemma inv_start (hn : 0 < n) (slots : Nat → C) (stalled : Bool) :
    Inv n (⟨slots, 0, n, 0, 0, stalled, none, [], [], []⟩ : CmdRing ι C) where
  numEntries := rfl
  cwriter_lt := hn
  creadr_lt := hn
  ring := ⟨[], rfl, (Ring.dist_self hn).symm, trivial⟩
  pushed := rfl
  writeOffset := fun _ => rfl
  place := by simp

lemma Inv.consume (h : Inv n s) (hne : s.creadr ≠ s.cwriter) : Inv n s.consume := by
  obtain ⟨pending, hpushed, hlength, hholds⟩ := h.ring
  have hdist := Ring.dist_succ_left h.creadr_lt h.cwriter_lt hne
  have hn := h.numEntries
  have hlt : (s.creadr + 1) % n < n := Nat.mod_lt _ (Nat.zero_lt_of_lt h.creadr_lt)
  refine ⟨hn, h.cwriter_lt, ?_, ?_, h.pushed, h.writeOffset, fun c hc => ?_⟩
  · simpa only [CmdRing.consume, hn] using hlt
  · cases pending with
    | nil =>
      rw [List.length_nil] at hlength
      omega
    | cons x rest =>
      obtain ⟨hx, hrest⟩ := hholds
      rw [List.length_cons] at hlength
      refine ⟨rest, ?_, ?_, ?_⟩
      · simp only [CmdRing.consume, hpushed, hx, List.append_assoc, List.singleton_append]
      · simp only [CmdRing.consume, hn]
        omega
      · simpa only [CmdRing.consume, hn] using hrest
  · have hplace := h.place c hc
    obtain ⟨cpu, cmd, pc⟩ := c
    cases pc with
    | readCreadr => trivial
    | check currentCreadr =>
      simp only [At, CmdRing.consume, hn] at hplace ⊢
      exact ⟨hplace.1, by omega⟩
    | store next =>
      simp only [At, Room, CmdRing.consume, hn] at hplace ⊢
      exact ⟨hplace.1, by omega⟩
    | setWriteOffset next =>
      simp only [At, Room, CmdRing.consume, hn] at hplace ⊢
      exact ⟨⟨hplace.1.1, by omega⟩, hplace.2⟩
    | setCwriter next =>
      simp only [At, Room, CmdRing.consume, hn] at hplace ⊢
      exact ⟨⟨hplace.1.1, by omega⟩, hplace.2⟩
    | pollOffset next spins retries => exact hplace
    | pollStalled next spins retries => exact hplace
    | done result =>
      cases result with
      | ok _ => exact absurd hplace hne
      | error e => trivial

lemma Inv.setCall (h : Inv n s) (hwrite : s.writeOffset = s.cwriter) {call : Option (PushCall ι C)}
    (hplace : ∀ c, call = some c → s.At c.cmd c.pc)
    (hflight : ({ s with call } : CmdRing ι C).inFlight = s.inFlight) :
    Inv n { s with call } where
  numEntries := h.numEntries
  cwriter_lt := h.cwriter_lt
  creadr_lt := h.creadr_lt
  ring := h.ring
  pushed := by
    rw [hflight]
    exact h.pushed
  writeOffset := fun _ => hwrite
  place := by
    intro c hc
    have hat := hplace c hc
    revert hat
    cases c.pc with
    | done result => cases result <;> exact id
    | _ => exact id

/-- The command is written behind the ones that the ITS can see. -/
lemma Inv.store (h : Inv n s) (hc : s.call = some c) (hwrite : s.writeOffset = s.cwriter)
    {next : Nat} (hpc : c.pc = .store next) : Inv n (s.advance c) := by
  obtain ⟨pending, hpushed, hlength, hholds⟩ := h.ring
  have hroom : s.Room next := by
    have hplace := h.place c hc
    rwa [hpc] at hplace
  have hstep : s.advance c =
      { s with
        slots := update s.slots s.cwriter c.cmd
        call := some { c with pc := .setWriteOffset next } } := by
    simp only [advance, hpc, hwrite]
  rw [hstep]
  refine ⟨h.numEntries, h.cwriter_lt, h.creadr_lt, ⟨pending, hpushed, hlength, ?_⟩, ?_,
    fun _ => hwrite, ?_⟩
  · exact hholds.update h.creadr_lt h.cwriter_lt (Nat.le_of_eq hlength)
  · simpa only [inFlight, hc, hpc] using h.pushed
  · rintro c' ⟨⟩
    exact ⟨hroom, update_self ..⟩

/-- The ITS sees the command. Here the offset must fit in its field. -/
lemma Inv.publish (hn : n ≤ 2 ^ 15) (h : Inv n s) (hc : s.call = some c) {next : Nat}
    (hpc : c.pc = .setCwriter next) : Inv n (s.advance c) := by
  obtain ⟨pending, hpushed, hlength, hholds⟩ := h.ring
  have hplace := h.place c hc
  rw [hpc] at hplace
  obtain ⟨⟨hnext, hroom⟩, hslot, hwrite⟩ := hplace
  rw [h.numEntries] at hnext hroom
  have hlt : next < n := by
    rw [hnext]
    exact Nat.mod_lt _ (Nat.zero_lt_of_lt h.cwriter_lt)
  have hfield := offsetField_of_lt (Nat.lt_of_lt_of_le hlt hn)
  have hstep : s.advance c =
      { s with
        cwriter := next
        pushed := s.pushed ++ [c.cmd]
        call := some { c with pc := .pollOffset next maxSpins 0 } } := by
    simp only [advance, hpc, hfield]
  rw [hstep]
  refine ⟨h.numEntries, hlt, h.creadr_lt, ⟨pending ++ [c.cmd], ?_, ?_, ?_⟩, ?_, fun _ => hwrite, ?_⟩
  · rw [hpushed, List.append_assoc]
  · rw [hnext, Ring.dist_succ_right h.creadr_lt h.cwriter_lt hroom, ← hlength]
    exact List.length_append
  · exact hholds.snoc h.creadr_lt h.cwriter_lt hlength hslot
  · have hrest : s.pushed = s.returned.filterMap accepted := by
      simpa only [inFlight, hc, hpc, List.append_nil] using h.pushed
    rw [hrest]
    rfl
  · rintro c' ⟨⟩
    rfl

lemma Inv.advance (hn : n ≤ 2 ^ 15) (h : Inv n s) (hc : s.call = some c) : Inv n (s.advance c) := by
  have hplace := h.place c hc
  have hwrite (hpc : ∀ next, c.pc ≠ .setCwriter next) : s.writeOffset = s.cwriter := by
    refine h.writeOffset fun c' next hc' => ?_
    rw [hc] at hc'
    cases hc'
    exact hpc next
  obtain ⟨cpu, cmd, pc⟩ := c
  cases pc with
  | readCreadr =>
    refine h.setCall (hwrite (by simp)) ?_ (by simp only [inFlight, hc])
    rintro c' ⟨⟩
    exact ⟨h.numEntries ▸ h.creadr_lt, Nat.le_refl _⟩
  | check currentCreadr =>
    have hwr := hwrite (by simp)
    obtain ⟨hlt, hle⟩ := hplace
    rw [h.numEntries] at hlt hle
    refine h.setCall hwr ?_ ?_
    · rintro c' ⟨⟩
      split_ifs with hfull
      · trivial
      · rw [hwr, h.numEntries, Ring.succ_mod_eq_iff hlt h.cwriter_lt] at hfull
        have := Ring.dist_lt hlt s.cwriter
        refine ⟨by rw [hwr], ?_⟩
        rw [h.numEntries]
        omega
    · simp only [inFlight, hc]
      split_ifs <;> rfl
  | store next => exact h.store hc (hwrite (by simp)) rfl
  | setWriteOffset next =>
    obtain ⟨hroom, hslot⟩ := hplace
    refine ⟨h.numEntries, h.cwriter_lt, h.creadr_lt, h.ring, ?_, ?_, ?_⟩
    · simpa only [inFlight, hc, advance] using h.pushed
    · intro hne
      exact absurd rfl (hne _ next rfl)
    · rintro c' ⟨⟩
      exact ⟨hroom, hslot, rfl⟩
  | setCwriter next => exact h.publish hn hc rfl
  | pollOffset next spins retries =>
    have hwr := hwrite (by simp)
    cases spins with
    | zero =>
      refine h.setCall hwr ?_ (by simp only [inFlight, hc]; rfl)
      rintro c' ⟨⟩
      trivial
    | succ spins =>
      refine h.setCall hwr ?_ ?_
      · rintro c' ⟨⟩
        split_ifs with hend
        · exact hend.trans hplace
        · exact hplace
      · simp only [inFlight, hc]
        split_ifs <;> rfl
  | pollStalled next spins retries =>
    have hwr := hwrite (by simp)
    refine h.setCall hwr ?_ ?_
    · rintro c' ⟨⟩
      split_ifs
      · exact hplace
      · trivial
      · exact hplace
    · simp only [inFlight, hc]
      split_ifs <;> rfl
  | done result =>
    refine ⟨h.numEntries, h.cwriter_lt, h.creadr_lt, h.ring, ?_, fun _ => hwrite (by simp),
      ?_⟩
    · have hpushed := h.pushed
      simp only [inFlight, hc, advance] at hpushed ⊢
      rw [hpushed, List.filterMap_append, List.append_nil]
      cases haccepted : accepted (cmd, result) <;> simp [haccepted]
    · rintro c' ⟨⟩

lemma Inv.step (hn : n ≤ 2 ^ 15) (h : Inv n s) (hs : Step s s') : Inv n s' := by
  cases hs with
  | enter cpu cmd hcall =>
    refine h.setCall (h.writeOffset (by simp [hcall])) ?_ (by simp only [inFlight, hcall])
    rintro c ⟨⟩
    trivial
  | advance hc => exact h.advance hn hc
  | consume hne => exact h.consume hne
  | setStalled b =>
    refine ⟨h.numEntries, h.cwriter_lt, h.creadr_lt, h.ring, h.pushed, h.writeOffset, ?_⟩
    intro c hc
    have hat := h.place c hc
    revert hat
    cases c.pc with
    | done result => cases result <;> exact id
    | _ => exact id

lemma Reach.inv (hn : 0 < n) (hn' : n ≤ 2 ^ 15) (h : Reach n s) : Inv n s := by
  induction h with
  | start slots stalled => exact inv_start hn slots stalled
  | step _ hs ih => exact ih.step hn' hs

/-! ### Calls on an empty ring -/

section Pushes

variable {slots : Nat → C} {k : Nat} {stalled : Bool} {pushed consumed : List C}
  {returned : List (C × Except InterruptError Unit)}

/-- A call on an empty ring gives its command to the ITS. -/
lemma Reach.publish (cpu : ι) (cmd : C) (hk : k + 1 < n)
    (h : Reach n (⟨slots, k, n, k, k, stalled, none, pushed, consumed, returned⟩ : CmdRing ι C)) :
    Reach n ⟨update slots k cmd, k + 1, n, offsetField (k + 1), k, stalled,
      some ⟨cpu, cmd, .pollOffset (k + 1) maxSpins 0⟩, pushed ++ [cmd], consumed, returned⟩ := by
  have hread := (h.step (.enter cpu cmd rfl)).step (.advance rfl)
  have hcheck := hread.step (.advance rfl)
  simp only [advance, Nat.mod_eq_of_lt hk, Nat.succ_ne_self, if_false] at hcheck
  have hstore := hcheck.step (.advance rfl)
  have hset := hstore.step (.advance rfl)
  have hpublish := hset.step (.advance rfl)
  exact hpublish

lemma Reach.complete {cpu : ι} {cmd : C}
    (h : Reach n ⟨slots, k + 1, n, k + 1, k, stalled,
      some ⟨cpu, cmd, .pollOffset (k + 1) maxSpins 0⟩, pushed, consumed, returned⟩)
    (hk : k + 1 < n) :
    Reach n ⟨slots, k + 1, n, k + 1, k + 1, stalled, some ⟨cpu, cmd, .done (.ok ())⟩, pushed,
      consumed ++ [slots k], returned⟩ := by
  have hconsume := h.step (.consume (Nat.succ_ne_self k).symm)
  simp only [consume, Nat.mod_eq_of_lt hk] at hconsume
  have hpoll := hconsume.step (.advance rfl)
  simpa only [advance, maxSpins, if_true] using hpoll

end Pushes

/-! ### Safety of every run -/

/-- The ring is safe at every moment of every run whose number of entries fits in the registers. -/
theorem Reach.ring_safe (hn : 2 ≤ n) (hn' : n ≤ 2 ^ 15) (h : Reach n s) : s.Safe := by
  have hinv := h.inv (by omega) hn'
  have hnum := hinv.numEntries
  have hwrite : s.writeOffset = s.cwriter ∨
      ∃ next, s.writeOffset = next ∧ next = (s.cwriter + 1) % n := by
    by_cases hpc : ∀ c next, s.call = some c → c.pc ≠ .setCwriter next
    · exact .inl (hinv.writeOffset hpc)
    · push Not at hpc
      obtain ⟨c, next, hc, hpc⟩ := hpc
      have hplace := hinv.place c hc
      rw [hpc] at hplace
      obtain ⟨⟨hnext, -⟩, -, hwr⟩ := hplace
      exact .inr ⟨next, hwr, hnum ▸ hnext⟩
  obtain ⟨pending, hpushed, hlength, hholds⟩ := hinv.ring
  refine ⟨⟨pending, hpushed, hnum.symm ▸ hlength, ?_⟩, hinv.pushed, ?_, ?_, hinv.writeOffset, ?_⟩
  · intro j hj
    rw [hnum]
    exact hholds.slot hinv.creadr_lt hj
  · intro c next hc hpc j hj
    have hwr : s.writeOffset = s.cwriter := by
      refine hinv.writeOffset fun c' next' hc' => ?_
      rw [hc] at hc'
      cases hc'
      simp [hpc]
    rw [hnum] at hj ⊢
    rw [hwr]
    exact Ring.add_mod_ne hinv.creadr_lt hinv.cwriter_lt hj
  · rw [hnum]
    rcases hwrite with hwr | ⟨next, hwr, hnext⟩
    · exact hwr ▸ hinv.cwriter_lt
    · rw [hwr, hnext]
      exact Nat.mod_lt _ (by omega)
  · intro c hc hpc
    have hplace := hinv.place c hc
    rw [hpc] at hplace
    have hempty : pending = [] := by
      rw [hplace, Ring.dist_self hinv.cwriter_lt] at hlength
      exact List.eq_nil_of_length_eq_zero hlength
    refine ⟨by rw [hpushed, hempty, List.append_nil], ?_⟩
    have hflight : s.inFlight = [c.cmd] := by simp [inFlight, hc, hpc, accepted]
    rw [hinv.pushed, hflight, List.getLast?_concat]

theorem safe_of_one_call : (⟨update (fun _ => 0) 0 7, 1, 2048, 1, 1, false,
    some ⟨0, 7, .done (.ok ())⟩, [7], [7], []⟩ : CmdRing Nat Nat).Safe := by
  have hpublish := Reach.publish (0 : Nat) 7 (by decide)
    (Reach.start (fun _ => 0) false : Reach 2048 _)
  exact Reach.ring_safe (by decide) (by decide) (hpublish.complete (by decide))

/-- Each of the first `2 ^ 15 - 1` calls can find the ring empty. -/
lemma exists_reach_idle (n k : Nat) (hk : k < 2 ^ 15) (hn : k < n) :
    ∃ slots pushed consumed returned, Reach n
      (⟨slots, k, n, k, k, false, none, pushed, consumed, returned⟩ : CmdRing Nat Nat) := by
  induction k with
  | zero => exact ⟨_, _, _, _, .start (fun _ => 0) false⟩
  | succ k ih =>
    obtain ⟨slots, pushed, consumed, returned, h⟩ := ih (by omega) (by omega)
    have hpublish := Reach.publish 0 0 hn h
    rw [offsetField_of_lt hk] at hpublish
    have hreturn := (hpublish.complete hn).step (.advance rfl)
    exact ⟨_, _, _, _, hreturn⟩

/-- With more entries than the field `Offset` has values, the register wraps round first. -/
theorem not_safe_of_wide : ∃ s : CmdRing Nat Nat, Reach (2 ^ 15 + 1) s ∧
    s.writeOffset = 2 ^ 15 ∧ s.cwriter = 0 ∧ ¬ s.Safe := by
  obtain ⟨slots, pushed, consumed, returned, h⟩ :=
    exists_reach_idle (2 ^ 15 + 1) (2 ^ 15 - 1) (by decide) (by decide)
  refine ⟨_, h.publish 0 0 (by decide), rfl, rfl, fun hsafe => ?_⟩
  have heq := hsafe.writeOffset_eq (by rintro c next ⟨⟩; simp)
  exact absurd heq (show 2 ^ 15 ≠ 0 by decide)

end CmdRing

end Mars.Gic
