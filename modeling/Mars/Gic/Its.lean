import Mars.Gic.Msi
import Mars.Lib.Tokens

/-!
# The driver and the ITS

The MSI calls of `GicV3` with the commands that they give to the ITS. A call is cut at the places
where it takes or gives back a lock; `msi_map_event` holds the lock of the LPI allocator from its
first step on. A command can be refused, or time out and be executed later.
-/

namespace Mars.Gic

open Function Lib LpiAllocator

inductive ItsCmd where
  | mapd (deviceId : Nat) (valid : Bool)
  | mapti (deviceId eventId lpiId icid : Nat)
  | discard (deviceId eventId : Nat)
  | sync (rdbase : Nat)

/-- The ITS executes a command; `table` is its translation of events to LPIs. The table that `MAPD`
gives to a device has no events. -/
def ItsCmd.exec (table : Nat × Nat → Option Nat) : ItsCmd → Nat × Nat → Option Nat
  | .mapd d _        => fun k => if k.1 = d then none else table k
  | .mapti d e lpi _ => update table (d, e) (some lpi)
  | .discard d e     => update table (d, e) none
  | .sync _          => table

/-- Where a call is. The first place of each call has its arguments; `register` also has the memory
that the allocator returns for the table. -/
inductive MsiPc where
  | register (itt : Option Nat) (deviceId numEventsLog2 : Nat)
  | registerInsert (deviceId : Nat) (itt : IttAllocation)
  | unregister (deviceId : Nat)
  | unregisterRemove (deviceId : Nat)
  | map (deviceId eventId : Nat) (lpiId : Option Nat) (cpu : Nat)
  | mapPush (deviceId eventId lpi icid : Nat)
  | mapInsertEvent (deviceId eventId lpi icid : Nat)
  | mapInsertLpi (deviceId eventId lpi icid : Nat)
  | unmap (deviceId eventId : Nat)
  /-- In the loop over the redistributors, with those that are left. -/
  | unmapSync (deviceId eventId : Nat) (rdbases : List Nat)
  | unmapRemoveLpi (deviceId eventId lpi : Nat)
  | unmapFree (deviceId eventId lpi : Nat)
  | unmapHandler (lpi : Nat)
  | done (result : Except InterruptError (Option Nat))

namespace MsiPc

def holdsAlloc : MsiPc → Prop
  | .mapPush ..        => True
  | .mapInsertEvent .. => True
  | .mapInsertLpi ..   => True
  | _                  => False

/-- The next step takes the lock of the LPI allocator. -/
def takesAlloc : MsiPc → Prop
  | .map ..       => True
  | .unmapFree .. => True
  | _             => False

/-- The event and the LPI of a call that has taken the LPI out of the allocator or out of the map
of events, and has not put it into the other. -/
def carries : MsiPc → Option ((Nat × Nat) × Nat)
  | .mapPush d e lpi _        => some ((d, e), lpi)
  | .mapInsertEvent d e lpi _ => some ((d, e), lpi)
  | .unmapRemoveLpi d e lpi   => some ((d, e), lpi)
  | .unmapFree d e lpi        => some ((d, e), lpi)
  | _                         => none

end MsiPc

def GicV3.Call.start : GicV3.Call → MsiPc
  | .register itt d n => .register itt d n
  | .unregister d     => .unregister d
  | .map d e lpi cpu  => .map d e lpi cpu
  | .unmap d e        => .unmap d e

/-- The driver, the ITS with the commands that it has not executed, and the calls of the CPUs. -/
structure MsiSystem (ι H : Type) where
  gic : GicV3 H
  /-- What `rdbase_for_redist` returns for the redistributors. -/
  rdbases : List Nat
  table : Nat × Nat → Option Nat
  queue : List ItsCmd
  calls : ι → Option MsiPc

namespace MsiSystem

variable {ι H : Type}

def start (ittEntrySize : Nat) (rdbases : List Nat) : MsiSystem ι H :=
  { gic := .new ittEntrySize
    rdbases := rdbases
    table := fun _ => none
    queue := []
    calls := fun _ => none }

/-- `push_cmd`. It succeeds after the ITS has come to the end of the queue. On the way the queue and
the table are as after `stalled` and some steps of the ITS. -/
def push (s : MsiSystem ι H) (cmd : ItsCmd) :
    PushOutcome → Except InterruptError Unit × MsiSystem ι H
  | .ok      =>
    (.ok (), { s with table := (s.queue ++ [cmd]).foldl ItsCmd.exec s.table, queue := [] })
  | .full    => (.error .commandQueueFull, s)
  | .stalled => (.error .hardwareStalled, { s with queue := s.queue ++ [cmd] })
  | .timeout => (.error .commandTimeout, { s with queue := s.queue ++ [cmd] })

variable [DecidableEq ι]

def goto (s : MsiSystem ι H) (i : ι) (pc : MsiPc) : MsiSystem ι H :=
  { s with calls := update s.calls i (some pc) }

/-- `push_cmd` with the operator `?`. -/
def pushThen (s : MsiSystem ι H) (i : ι) (o : PushOutcome) (cmd : ItsCmd) (next : MsiPc) :
    MsiSystem ι H :=
  match s.push cmd o with
  | (.ok _, t)    => t.goto i next
  | (.error e, t) => t.goto i (.done (.error e))

/-- One step of the call of the CPU `i`; `o` is the outcome of the command, if there is one. -/
def advance (s : MsiSystem ι H) (i : ι) (o : PushOutcome) : MsiPc → MsiSystem ι H
  | .register itt d n =>
    let ittSize := s.gic.ittSize n
    if !s.gic.its then s.goto i (.done (.error .msiNotSupported))
    else if 2 ^ 63 - 256 < ittSize then s.goto i (.done (.error .outOfMemory))
    else
      match itt with
      | none     => s.goto i (.done (.error .notSupported))
      | some ptr => s.pushThen i o (.mapd d true) (.registerInsert d ⟨ptr, ittSize⟩)
  | .registerInsert d itt =>
    { s with gic.deviceItts := update s.gic.deviceItts d (some itt) }.goto i
      (.done (.ok none))
  | .unregister d =>
    if s.gic.its then s.pushThen i o (.mapd d false) (.unregisterRemove d)
    else s.goto i (.unregisterRemove d)
  | .unregisterRemove d =>
    { s with gic.deviceItts := update s.gic.deviceItts d none }.goto i (.done (.ok none))
  | .map d e (some id) cpu =>
    match s.gic.lpiAlloc.reserve id with
    | none       => s.goto i (.done (.error .lpiAlreadyUsed))
    | some alloc => { s with gic.lpiAlloc := alloc }.goto i (.mapPush d e id cpu)
  | .map d e none cpu =>
    match s.gic.lpiAlloc.alloc with
    | (none, alloc)     =>
      { s with gic.lpiAlloc := alloc }.goto i (.done (.error .noAvailableLpi))
    | (some lpi, alloc) => { s with gic.lpiAlloc := alloc }.goto i (.mapPush d e lpi cpu)
  | .mapPush d e lpi icid =>
    if s.gic.its then s.pushThen i o (.mapti d e lpi icid) (.mapInsertEvent d e lpi icid)
    else
      { s with gic.lpiAlloc := s.gic.lpiAlloc.free lpi }.goto i (.done (.error .msiNotSupported))
  | .mapInsertEvent d e lpi icid =>
    { s with gic.eventMappings := update s.gic.eventMappings (d, e) (some lpi) }.goto i
      (.mapInsertLpi d e lpi icid)
  | .mapInsertLpi d e lpi icid =>
    { s with gic.lpiToEvent := update s.gic.lpiToEvent lpi (some (d, e, icid)) }.goto i
      (.done (.ok (some lpi)))
  | .unmap d e =>
    if s.gic.its then s.pushThen i o (.discard d e) (.unmapSync d e s.rdbases)
    else s.goto i (.done (.ok none))
  | .unmapSync d e (rdbase :: rdbases) => s.pushThen i o (.sync rdbase) (.unmapSync d e rdbases)
  | .unmapSync d e [] =>
    match s.gic.eventMappings (d, e) with
    | none     => s.goto i (.done (.ok none))
    | some lpi =>
      { s with gic.eventMappings := update s.gic.eventMappings (d, e) none }.goto i
        (.unmapRemoveLpi d e lpi)
  | .unmapRemoveLpi d e lpi =>
    { s with gic.lpiToEvent := update s.gic.lpiToEvent lpi none }.goto i
      (.unmapFree d e lpi)
  | .unmapFree _ _ lpi =>
    { s with gic.lpiAlloc := s.gic.lpiAlloc.free lpi }.goto i (.unmapHandler lpi)
  | .unmapHandler lpi =>
    { s with gic.lpiHandlers := update s.gic.lpiHandlers lpi none }.goto i
      (.done (.ok none))
  | .done _ => { s with calls := update s.calls i none }

inductive Action (ι : Type) where
  | enter (i : ι) (call : GicV3.Call)
  | advance (i : ι) (o : PushOutcome)
  /-- The ITS executes the first command of the queue. -/
  | execute

inductive Step (s : MsiSystem ι H) : Action ι → MsiSystem ι H → Prop
  | enter (i : ι) (call : GicV3.Call) (h : s.calls i = none) :
      Step s (.enter i call) (s.goto i call.start)
  | advance (i : ι) (o : PushOutcome) {pc : MsiPc} (h : s.calls i = some pc)
      (hlock : pc.takesAlloc → ∀ j pc', s.calls j = some pc' → ¬ pc'.holdsAlloc) :
      Step s (.advance i o) (s.advance i o pc)
  | execute {cmd : ItsCmd} {rest : List ItsCmd} (h : s.queue = cmd :: rest) :
      Step s .execute { s with table := cmd.exec s.table, queue := rest }

/-- The states of the runs in which every action is allowed. -/
inductive Reach (allowed : MsiSystem ι H → Action ι → Prop) : MsiSystem ι H → Prop
  | start (ittEntrySize : Nat) (rdbases : List Nat) : Reach allowed (start ittEntrySize rdbases)
  | step {s s' : MsiSystem ι H} {a : Action ι} (h : Reach allowed s) (ha : allowed s a)
      (hs : Step s a s') : Reach allowed s'

section Run

variable {allowed : MsiSystem ι H → Action ι → Prop} {s : MsiSystem ι H}

lemma Reach.enter (h : Reach allowed s) (i : ι) (call : GicV3.Call)
    (ha : allowed s (.enter i call)) (hi : s.calls i = none) :
    Reach allowed (s.goto i call.start) :=
  h.step ha (.enter i call hi)

lemma Reach.advance (h : Reach allowed s) (i : ι) (o : PushOutcome)
    (ha : allowed s (.advance i o)) {pc : MsiPc} (hi : s.calls i = some pc)
    (hlock : pc.takesAlloc → ∀ j pc', s.calls j = some pc' → ¬ pc'.holdsAlloc) :
    Reach allowed (s.advance i o pc) :=
  h.step ha (.advance i o hi hlock)

end Run

/-! ### The commands -/

variable {cmd : ItsCmd}

/-- What every entry of the table has, if every `MAPTI` brings it along. -/
lemma exec_of_forall {P : Nat × Nat → Nat → Prop} {table : Nat × Nat → Option Nat}
    (ht : ∀ k l, table k = some l → P k l)
    (hcmd : ∀ d e l icid, cmd = .mapti d e l icid → P (d, e) l) :
    ∀ k l, cmd.exec table k = some l → P k l := by
  intro k l hk
  cases cmd with
  | mapd d valid =>
    by_cases hkd : k.1 = d
    · simp [ItsCmd.exec, hkd] at hk
    · exact ht k l ((if_neg hkd).symm.trans hk)
  | mapti d e lpi icid =>
    by_cases hkd : k = (d, e)
    · subst hkd
      rw [ItsCmd.exec, update_self, Option.some.injEq] at hk
      exact hk ▸ hcmd d e lpi icid rfl
    · rw [ItsCmd.exec, update_of_ne hkd] at hk
      exact ht k l hk
  | discard d e => exact ht k l (Tokens.update_none_le table (d, e) k l hk).2
  | sync rdbase => exact ht k l hk

lemma foldl_exec_of_forall {P : Nat × Nat → Nat → Prop} {table : Nat × Nat → Option Nat}
    {cmds : List ItsCmd} (ht : ∀ k l, table k = some l → P k l)
    (hcmds : ∀ d e l icid, .mapti d e l icid ∈ cmds → P (d, e) l) :
    ∀ k l, cmds.foldl ItsCmd.exec table k = some l → P k l := by
  induction cmds generalizing table with
  | nil => exact ht
  | cons cmd cmds ih =>
    refine ih (exec_of_forall ht ?_) ?_
    · rintro d e l icid rfl
      exact hcmds d e l icid (.head _)
    · exact fun d e l icid hmem => hcmds d e l icid (.tail _ hmem)

/-! ### Who has an LPI

The driver gives an LPI back after it has taken it out of the map of events, and then the LPI must
be in no command and in no other place. Each LPI in use belongs to the event it was taken for. -/

/-- Where the driver keeps an LPI: in the map of events, or in a call. -/
inductive Place (ι : Type) where
  | event (k : Nat × Nat)
  | call (i : ι)
deriving DecidableEq

/-- The LPI in a place, with the event it belongs to. -/
def holds (s : MsiSystem ι H) : Place ι → Option ((Nat × Nat) × Nat)
  | .event k => (s.gic.eventMappings k).map (k, ·)
  | .call i  => (s.calls i).bind MsiPc.carries

/-- The LPI is in use, for the event. -/
def Owns (s : MsiSystem ι H) (owner : Nat → Nat × Nat) (x : (Nat × Nat) × Nat) : Prop :=
  s.gic.lpiAlloc.Used x.2 ∧ owner x.2 = x.1

structure Inv (owner : Nat → Nat × Nat) (s : MsiSystem ι H) : Prop where
  its : s.gic.its = true
  wf : s.gic.lpiAlloc.HintInv
  table : ∀ k l, s.table k = some l → s.Owns owner (k, l)
  queue : ∀ d e l icid, .mapti d e l icid ∈ s.queue → s.Owns owner ((d, e), l)
  held : Tokens.All (s.Owns owner) s.holds
  once : Tokens.Once s.holds

variable {s s' : MsiSystem ι H} {owner : Nat → Nat × Nat} {i : ι}
variable {pc : MsiPc}

omit [DecidableEq ι] in
lemma inv_start (ittEntrySize : Nat) (rdbases : List Nat) :
    Inv owner (start ittEntrySize rdbases : MsiSystem ι H) := by
  have hnone : ∀ p, (start ittEntrySize rdbases : MsiSystem ι H).holds p = none := by
    rintro (k | i) <;> rfl
  refine ⟨rfl, hintInv_new (by decide), ?_, ?_, ?_, ?_⟩
  · rintro k l ⟨⟩
  · rintro d e l icid ⟨⟩
  · intro p x hx
    rw [hnone] at hx
    cases hx
  · intro p q x hx
    rw [hnone] at hx
    cases hx

lemma holds_goto (s : MsiSystem ι H) (i : ι) (pc : MsiPc) :
    (s.goto i pc).holds = update s.holds (.call i) pc.carries := by
  funext p
  cases p with
  | event k => rfl
  | call j =>
    by_cases hj : j = i
    · subst hj
      simp [holds, goto]
    · simp [holds, goto, hj]

lemma holds_setEvents (s : MsiSystem ι H) (k : Nat × Nat) (l : Option Nat) :
    ({ s with gic.eventMappings := update s.gic.eventMappings k l } :
      MsiSystem ι H).holds = update s.holds (.event k) (l.map (k, ·)) := by
  funext p
  cases p with
  | event k' =>
    by_cases hk : k' = k
    · subst hk
      simp [holds]
    · simp [holds, hk]
  | call j => rfl

omit [DecidableEq ι] in
/-- Nothing of interest changes but the places, which have no more than before. -/
lemma Inv.of_le (h : Inv owner s) (hits : s'.gic.its = s.gic.its)
    (halloc : s'.gic.lpiAlloc = s.gic.lpiAlloc) (htable : s'.table = s.table)
    (hqueue : s'.queue = s.queue) (hholds : ∀ p x, s'.holds p = some x → s.holds p = some x) :
    Inv owner s' := by
  have howns : s'.Owns owner = s.Owns owner := by
    funext x
    rw [Owns, Owns, halloc]
  refine ⟨hits.trans h.its, halloc ▸ h.wf, ?_, ?_, ?_, h.once.of_le hholds⟩
  · rw [htable, howns]
    exact h.table
  · rw [hqueue, howns]
    exact h.queue
  · rw [howns]
    exact h.held.of_le hholds

lemma holds_goto_le (hpc : ∀ x, pc.carries = some x → s.holds (.call i) = some x) (p : Place ι)
    (x : (Nat × Nat) × Nat) (hp : (s.goto i pc).holds p = some x) : s.holds p = some x := by
  rw [holds_goto] at hp
  by_cases hpi : p = .call i
  · rw [hpi, update_self] at hp
    rw [hpi]
    exact hpc x hp
  · rwa [update_of_ne hpi] at hp

lemma Inv.goto (h : Inv owner s) (hpc : ∀ x, pc.carries = some x → s.holds (.call i) = some x) :
    Inv owner (s.goto i pc) :=
  h.of_le rfl rfl rfl rfl (holds_goto_le hpc)

lemma Inv.done (h : Inv owner s) (i : ι) (r : Except InterruptError (Option Nat)) :
    Inv owner (s.goto i (.done r)) :=
  h.goto (by simp [MsiPc.carries])

omit [DecidableEq ι] in
lemma Inv.push (h : Inv owner s) (o : PushOutcome)
    (hcmd : ∀ d e l icid, cmd = .mapti d e l icid → s.Owns owner ((d, e), l)) :
    Inv owner (s.push cmd o).2 := by
  have hqueue : ∀ d e l icid, .mapti d e l icid ∈ s.queue ++ [cmd] →
      s.Owns owner ((d, e), l) := by
    intro d e l icid hmem
    rcases List.mem_append.mp hmem with hmem | hmem
    · exact h.queue d e l icid hmem
    · exact hcmd d e l icid (List.mem_singleton.mp hmem).symm
  cases o with
  | ok =>
    have htable := foldl_exec_of_forall (P := fun k l => s.Owns owner (k, l)) h.table hqueue
    exact ⟨h.its, h.wf, htable, fun _ _ _ _ hmem => absurd hmem List.not_mem_nil, h.held, h.once⟩
  | full => exact h
  | stalled => exact ⟨h.its, h.wf, h.table, hqueue, h.held, h.once⟩
  | timeout => exact ⟨h.its, h.wf, h.table, hqueue, h.held, h.once⟩

omit [DecidableEq ι] in
lemma push_calls (s : MsiSystem ι H) (cmd : ItsCmd) (o : PushOutcome) :
    (s.push cmd o).2.calls = s.calls := by
  cases o <;> rfl

lemma Inv.pushThen (h : Inv owner s) (o : PushOutcome) {next : MsiPc}
    (hcmd : ∀ d e l icid, cmd = .mapti d e l icid → s.Owns owner ((d, e), l))
    (hnext : ∀ x, next.carries = some x → s.holds (.call i) = some x) :
    Inv owner (s.pushThen i o cmd next) := by
  have hpush := h.push o hcmd
  have hcalls := push_calls s cmd o
  rw [MsiSystem.pushThen]
  rcases hp : s.push cmd o with ⟨r, t⟩
  rw [hp] at hpush hcalls
  cases r with
  | ok _ =>
    refine hpush.goto fun x hx => ?_
    rw [holds, hcalls]
    exact hnext x hx
  | error e => exact hpush.done i _

/-! ### The steps that move an LPI -/

variable {d e l : Nat}

lemma Inv.take (h : Inv owner s) {icid : Nat} {a : LpiAllocator} (ha : a.HintInv)
    (hfree : ¬ s.gic.lpiAlloc.Used l) (hmarks : s.gic.lpiAlloc.Marks l true a) :
    Inv (update owner l (d, e)) ({ s with gic.lpiAlloc := a }.goto i (.mapPush d e l icid)) := by
  have hkeep : ∀ x, s.Owns owner x →
      ({ s with gic.lpiAlloc := a }.goto i (.mapPush d e l icid)).Owns
        (update owner l (d, e)) x := by
    rintro x ⟨hused, howner⟩
    have hne : x.2 ≠ l := by
      rintro rfl
      exact hfree hused
    refine ⟨?_, by rw [update_of_ne hne, howner]⟩
    exact (hmarks.used x.2).mpr (by rwa [if_neg hne])
  have hholds := holds_goto { s with gic.lpiAlloc := a } i (.mapPush d e l icid)
  refine ⟨h.its, ha, fun k l' hk => hkeep _ (h.table k l' hk),
    fun d' e' l' icid' hmem => hkeep _ (h.queue d' e' l' icid' hmem), ?_, ?_⟩
  · rw [hholds]
    refine Tokens.All.put (h.held.mono hkeep) ⟨?_, update_self ..⟩
    exact (hmarks.used l).mpr (by rw [if_pos rfl])
  · rw [hholds]
    exact h.once.put fun p _ hp => hfree (h.held p _ hp).1

lemma Inv.insertEvent (h : Inv owner s) {icid : Nat} (hi : s.holds (.call i) = some ((d, e), l)) :
    Inv owner ({ s with
      gic.eventMappings := update s.gic.eventMappings (d, e) (some l) }.goto i
        (.mapInsertLpi d e l icid)) := by
  have hholds := holds_goto { s with
    gic.eventMappings := update s.gic.eventMappings (d, e) (some l) } i
      (.mapInsertLpi d e l icid)
  rw [holds_setEvents, update_comm (by simp)] at hholds
  refine ⟨h.its, h.wf, h.table, h.queue, ?_, ?_⟩
  · rw [hholds]
    exact h.held.move hi _
  · rw [hholds]
    exact h.once.move hi _

lemma Inv.removeEvent (h : Inv owner s) (hl : s.gic.eventMappings (d, e) = some l) :
    Inv owner ({ s with
      gic.eventMappings := update s.gic.eventMappings (d, e) none }.goto i
        (.unmapRemoveLpi d e l)) := by
  have hholds := holds_goto { s with
    gic.eventMappings := update s.gic.eventMappings (d, e) none } i
      (.unmapRemoveLpi d e l)
  rw [holds_setEvents] at hholds
  have hevent : s.holds (.event (d, e)) = some ((d, e), l) := by
    rw [holds, hl]
    rfl
  refine ⟨h.its, h.wf, h.table, h.queue, ?_, ?_⟩
  · rw [hholds]
    exact h.held.move hevent _
  · rw [hholds]
    exact h.once.move hevent _

/-- The call gives its LPI back. The ITS must not translate the event to it, now or later. -/
lemma Inv.free (h : Inv owner s) (hi : s.holds (.call i) = some ((d, e), l))
    (htable : s.table (d, e) ≠ some l) (hqueue : ∀ icid, .mapti d e l icid ∉ s.queue) :
    Inv owner ({ s with gic.lpiAlloc := s.gic.lpiAlloc.free l }.goto i (.unmapHandler l)) := by
  have howner : owner l = (d, e) := (h.held _ _ hi).2
  have hmarks := free_spec h.wf.toWf l
  have hkeep : ∀ x, s.Owns owner x → x ≠ ((d, e), l) →
      ({ s with gic.lpiAlloc := s.gic.lpiAlloc.free l }.goto i (.unmapHandler l)).Owns
        owner x := by
    rintro ⟨k, l'⟩ ⟨hused, hk⟩ hx
    have hne : l' ≠ l := by
      rintro rfl
      exact hx (Prod.ext (hk.symm.trans howner) rfl)
    exact ⟨(hmarks.used l').mpr (by rwa [if_neg hne]), hk⟩
  have hholds := holds_goto { s with gic.lpiAlloc := s.gic.lpiAlloc.free l } i (.unmapHandler l)
  have hdrop := Tokens.update_none_le s.holds (.call i)
  refine ⟨h.its, h.wf.free l, ?_, ?_, ?_, ?_⟩
  · intro k l' hk
    refine hkeep _ (h.table k l' hk) ?_
    rintro ⟨⟩
    exact htable hk
  · intro d' e' l' icid hmem
    refine hkeep _ (h.queue d' e' l' icid hmem) ?_
    rintro ⟨⟩
    exact hqueue icid hmem
  · rw [hholds]
    intro p x hp
    obtain ⟨hpi, hp⟩ := hdrop p x hp
    refine hkeep x (h.held p x hp) ?_
    rintro rfl
    exact hpi (h.once p _ _ hp hi)
  · rw [hholds]
    exact h.once.of_le fun p x hp => (hdrop p x hp).2

/-! ### Every step -/

/-- The LPI that the call is about to give back is not, and will not be, the translation of the
event it was taken from. -/
def FreesClear (s : MsiSystem ι H) (pc : MsiPc) : Prop :=
  ∀ d e l, pc = .unmapFree d e l →
    s.table (d, e) ≠ some l ∧ ∀ icid, .mapti d e l icid ∉ s.queue

lemma Inv.advance (h : Inv owner s) (o : PushOutcome) (hi : s.calls i = some pc)
    (hfree : s.FreesClear pc) : ∃ owner', Inv owner' (s.advance i o pc) := by
  have hholds : s.holds (.call i) = pc.carries := by
    rw [holds, hi]
    rfl
  cases pc with
  | register itt d n =>
    refine ⟨owner, ?_⟩
    unfold advance
    dsimp only
    split_ifs
    · exact h.done i _
    · exact h.done i _
    · cases itt with
      | none => exact h.done i _
      | some ptr => exact h.pushThen o (by simp) (by simp [MsiPc.carries])
  | registerInsert d itt =>
    exact ⟨owner, (h.done i _).of_le rfl rfl rfl rfl fun _ _ => id⟩
  | unregister d =>
    refine ⟨owner, ?_⟩
    rw [advance, if_pos h.its]
    exact h.pushThen o (by simp) (by simp [MsiPc.carries])
  | unregisterRemove d =>
    exact ⟨owner, (h.done i _).of_le rfl rfl rfl rfl fun _ _ => id⟩
  | map d e lpiId cpu =>
    cases lpiId with
    | some id =>
      rw [advance]
      cases hres : s.gic.lpiAlloc.reserve id with
      | none => exact ⟨owner, h.done i _⟩
      | some a =>
        obtain ⟨hunused, hmarks⟩ := reserve_spec h.wf.toWf hres
        exact ⟨_, h.take (h.wf.reserve hres) hunused hmarks⟩
    | none =>
      rw [advance]
      rcases halloc : s.gic.lpiAlloc.alloc with ⟨r, a⟩
      obtain ⟨hwf, ⟨rfl, -, hsame⟩ | ⟨id, rfl, -, hunused, hmarks⟩⟩ := h.wf.alloc_spec halloc
      · -- no mark has changed
        refine ⟨owner, h.its, hwf, ?_, ?_, ?_, ?_⟩
        · exact fun k l hk => ⟨(hsame l).mpr (h.table k l hk).1, (h.table k l hk).2⟩
        · exact fun d e l icid hmem =>
            ⟨(hsame l).mpr (h.queue d e l icid hmem).1, (h.queue d e l icid hmem).2⟩
        · exact (h.done i _).held.mono fun x hx => ⟨(hsame x.2).mpr hx.1, hx.2⟩
        · exact (h.done i _).once
      · exact ⟨_, h.take hwf hunused hmarks⟩
  | mapPush d e lpi icid =>
    refine ⟨owner, ?_⟩
    rw [advance, if_pos h.its]
    refine h.pushThen o ?_ fun x hx => hholds.trans hx
    rintro _ _ _ _ ⟨⟩
    exact h.held _ _ hholds
  | mapInsertEvent d e lpi icid => exact ⟨owner, h.insertEvent hholds⟩
  | mapInsertLpi d e lpi icid =>
    exact ⟨owner, (h.done i _).of_le rfl rfl rfl rfl fun _ _ => id⟩
  | unmap d e =>
    refine ⟨owner, ?_⟩
    rw [advance, if_pos h.its]
    exact h.pushThen o (by simp) (by simp [MsiPc.carries])
  | unmapSync d e rdbases =>
    refine ⟨owner, ?_⟩
    cases rdbases with
    | nil =>
      rw [advance]
      cases hl : s.gic.eventMappings (d, e) with
      | none => exact h.done i _
      | some l => exact h.removeEvent hl
    | cons rdbase rdbases => exact h.pushThen o (by simp) (by simp [MsiPc.carries])
  | unmapRemoveLpi d e lpi =>
    have hgoto : Inv owner (s.goto i (.unmapFree d e lpi)) :=
      h.goto fun x hx => hholds.trans hx
    exact ⟨owner, hgoto.of_le rfl rfl rfl rfl fun _ _ => id⟩
  | unmapFree d e lpi =>
    obtain ⟨htable, hqueue⟩ := hfree d e lpi rfl
    exact ⟨owner, h.free hholds htable hqueue⟩
  | unmapHandler lpi =>
    exact ⟨owner, (h.done i _).of_le rfl rfl rfl rfl fun _ _ => id⟩
  | done r =>
    refine ⟨owner, h.of_le rfl rfl rfl rfl fun p x hp => ?_⟩
    cases p with
    | event k => exact hp
    | call j =>
      by_cases hj : j = i
      · simp [holds, advance, hj] at hp
      · simpa [holds, advance, hj] using hp

lemma Inv.step (h : Inv owner s) {a : Action ι} (hs : Step s a s')
    (hfree : ∀ i o pc, a = .advance i o → s.calls i = some pc → s.FreesClear pc) :
    ∃ owner', Inv owner' s' := by
  cases hs with
  | enter i call hi =>
    refine ⟨owner, h.goto ?_⟩
    cases call <;> simp [GicV3.Call.start, MsiPc.carries]
  | advance i o hi hlock => exact h.advance o hi (hfree i o _ rfl hi)
  | execute hq =>
    refine ⟨owner, h.its, h.wf, ?_, ?_, h.held, h.once⟩
    · refine exec_of_forall (P := fun k l => s.Owns owner (k, l)) h.table ?_
      rintro d e l icid rfl
      exact h.queue d e l icid (by simp [hq])
    · exact fun d e l icid hmem => h.queue d e l icid (by simp [hq, hmem])

end MsiSystem

end Mars.Gic
