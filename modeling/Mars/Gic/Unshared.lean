import Mars.Gic.Its
import Mathlib.Data.List.Infix

/-!
# LPIs are not shared

The ITS must not translate two events to one LPI, or an event to an LPI that the allocator may give
away again. One call at a time keeps to this even if commands are refused or time out. Several
calls at a time do not, if an event is mapped while another CPU is unmapping it.
-/

namespace Mars.Gic

open Function

/-- The event of a call to unmap it, once the ITS has executed `DISCARD`. -/
def MsiPc.discarded : MsiPc → Option (Nat × Nat)
  | .unmapSync d e _      => some (d, e)
  | .unmapRemoveLpi d e _ => some (d, e)
  | .unmapFree d e _      => some (d, e)
  | _                     => none

/-- The steps of the calls of the CPUs that change what the ITS or the driver has for an event. -/
inductive Mark (ι : Type) where
  | discard (i : ι) (k : Nat × Nat)
  | mapti (i : ι) (k : Nat × Nat)
  | insert (i : ι) (k : Nat × Nat)
  | remove (i : ι) (k : Nat × Nat)
deriving DecidableEq

def MsiPc.mark {ι : Type} (i : ι) : MsiPc → Option (Mark ι)
  | .unmap d e            => some (.discard i (d, e))
  | .mapPush d e ..       => some (.mapti i (d, e))
  | .mapInsertEvent d e .. => some (.insert i (d, e))
  | .unmapSync d e []     => some (.remove i (d, e))
  | _                     => none

def GicV3.Call.OfEvent : GicV3.Call → Prop
  | .map ..   => True
  | .unmap .. => True
  | _         => False

/-- What a call is about to do with an event. -/
inductive MsiSystem.Role where
  | unmaps (k : Nat × Nat)
  | inserts (k : Nat × Nat) (l : Nat)
  | frees (k : Nat × Nat) (l : Nat)

def MsiPc.role : MsiPc → Option MsiSystem.Role
  | .unmapSync d e _        => some (.unmaps (d, e))
  | .mapInsertEvent d e l _ => some (.inserts (d, e) l)
  | .unmapRemoveLpi d e l   => some (.frees (d, e) l)
  | .unmapFree d e l        => some (.frees (d, e) l)
  | _                       => none

namespace MsiSystem

structure Unshared (table : Nat × Nat → Option Nat) (alloc : LpiAllocator) : Prop where
  injective : ∀ k k' l, table k = some l → table k' = some l → k = k'
  used : ∀ k l, table k = some l → alloc.Used l

variable {ι H : Type} [DecidableEq ι] {s s' : MsiSystem ι H} {owner : Nat → Nat × Nat} {i j : ι}
  {k : Nat × Nat} {l : Nat} {pc : MsiPc} {m : Mark ι} {marks : List (Mark ι)}

omit [DecidableEq ι] in
lemma Inv.unshared_of_prefix (h : Inv owner s) {cmds : List ItsCmd} (hcmds : cmds <+: s.queue) :
    Unshared (cmds.foldl ItsCmd.exec s.table) s.gic.lpiAlloc := by
  have htable := foldl_exec_of_forall (P := fun k l => s.Owns owner (k, l)) h.table
    fun d e l icid hmem => h.queue d e l icid (hcmds.subset hmem)
  refine ⟨fun k k' l hk hk' => ?_, fun k l hk => (htable k l hk).1⟩
  exact (htable k l hk).2.symm.trans (htable k' l hk').2

/-! ### One call at a time -/

/-- A call starts after the one before has returned. -/
def Sequential (s : MsiSystem ι H) : Action ι → Prop
  | .enter _ _ => ∀ i, s.calls i = none
  | _          => True

/-- The ITS has nothing to do and does not translate the event. -/
def Discarded (s : MsiSystem ι H) (pc : MsiPc) : Prop :=
  ∀ k, pc.discarded = some k → s.queue = [] ∧ s.table k = none

omit [DecidableEq ι] in
lemma discarded_of_none (h : pc.discarded = none) : s.Discarded pc := by
  intro k hk
  rw [h] at hk
  cases hk

/-- Where `push_cmd` leaves the call and the ITS. -/
lemma pushThen_spec (s : MsiSystem ι H) (i : ι) (o : PushOutcome) (cmd : ItsCmd) (next : MsiPc) :
    ∃ pc, (s.pushThen i o cmd next).calls = update s.calls i (some pc) ∧
      ((∃ e, pc = .done (.error e)) ∨
        pc = next ∧ (s.pushThen i o cmd next).queue = [] ∧
          (s.pushThen i o cmd next).table = (s.queue ++ [cmd]).foldl ItsCmd.exec s.table) := by
  cases o with
  | ok => exact ⟨next, rfl, .inr ⟨rfl, rfl, rfl⟩⟩
  | full => exact ⟨_, rfl, .inl ⟨_, rfl⟩⟩
  | stalled => exact ⟨_, rfl, .inl ⟨_, rfl⟩⟩
  | timeout => exact ⟨_, rfl, .inl ⟨_, rfl⟩⟩

/-- Only the call of `i` moves, and if it gets past `DISCARD`, the ITS has executed it. -/
def Moves (s : MsiSystem ι H) (i : ι) (s' : MsiSystem ι H) : Prop :=
  ∃ next, s'.calls = update s.calls i next ∧ ∀ pc, next = some pc → s'.Discarded pc

lemma moves_goto (hpc : pc.discarded = none) : s.Moves i (s.goto i pc) := by
  refine ⟨some pc, rfl, ?_⟩
  rintro _ ⟨⟩
  exact discarded_of_none hpc

lemma moves_pushThen (o : PushOutcome) {cmd : ItsCmd} {next : MsiPc}
    (hnext : ∀ k, next.discarded = some k →
      (s.queue ++ [cmd]).foldl ItsCmd.exec s.table k = none) :
    s.Moves i (s.pushThen i o cmd next) := by
  obtain ⟨pc, hcalls, hpc⟩ := pushThen_spec s i o cmd next
  refine ⟨some pc, hcalls, ?_⟩
  rintro _ ⟨⟩
  rcases hpc with ⟨e, rfl⟩ | ⟨rfl, hqueue, htable⟩
  · exact discarded_of_none rfl
  · intro k hk
    exact ⟨hqueue, by rw [htable, hnext k hk]⟩

/-- A call goes on without the ITS, gives it a command, or returns. -/
lemma advance_cases (s : MsiSystem ι H) (i : ι) (o : PushOutcome) (pc : MsiPc) :
    (∃ gic next, s.advance i o pc = { s with gic }.goto i next ∧
      ∀ k, next.discarded = some k → pc.discarded = some k) ∨
    (∃ cmd next, s.advance i o pc = s.pushThen i o cmd next ∧ ∀ k, next.discarded = some k →
      cmd = .discard k.1 k.2 ∨ pc.discarded = some k ∧ ∃ rdbase, cmd = .sync rdbase) ∨
    s.advance i o pc = { s with calls := update s.calls i none } := by
  have h {P : Nat × Nat → Prop} (k) : none = some k → P k := by simp
  cases pc with
  | register itt d n =>
    unfold advance
    dsimp only
    split_ifs
    · exact .inl ⟨_, _, rfl, h⟩
    · exact .inl ⟨_, _, rfl, h⟩
    · cases itt with
      | none => exact .inl ⟨_, _, rfl, h⟩
      | some ptr => exact .inr (.inl ⟨_, _, rfl, h⟩)
  | unregister d =>
    rw [advance]
    split_ifs
    · exact .inr (.inl ⟨_, _, rfl, h⟩)
    · exact .inl ⟨_, _, rfl, h⟩
  | map d e lpiId cpu =>
    cases lpiId with
    | some id =>
      rw [advance]
      cases s.gic.lpiAlloc.reserve id <;> exact .inl ⟨_, _, rfl, h⟩
    | none =>
      rw [advance]
      rcases s.gic.lpiAlloc.alloc with ⟨_ | l, a⟩ <;> exact .inl ⟨_, _, rfl, h⟩
  | mapPush d e lpi icid =>
    rw [advance]
    split_ifs
    · exact .inr (.inl ⟨_, _, rfl, h⟩)
    · exact .inl ⟨_, _, rfl, h⟩
  | unmap d e =>
    rw [advance]
    split_ifs
    · exact .inr (.inl ⟨_, _, rfl, by rintro _ ⟨⟩; exact .inl rfl⟩)
    · exact .inl ⟨_, _, rfl, h⟩
  | unmapSync d e rdbases =>
    cases rdbases with
    | nil =>
      rw [advance]
      cases s.gic.eventMappings (d, e) with
      | none => exact .inl ⟨_, _, rfl, h⟩
      | some l => exact .inl ⟨_, _, rfl, fun _ => id⟩
    | cons rdbase rdbases => exact .inr (.inl ⟨_, _, rfl, fun _ hk => .inr ⟨hk, _, rfl⟩⟩)
  | unmapRemoveLpi d e lpi => exact .inl ⟨_, _, rfl, fun _ => id⟩
  | done r => exact .inr (.inr rfl)
  | _ => exact .inl ⟨_, _, rfl, h⟩

lemma moves_advance (s : MsiSystem ι H) (i : ι) (o : PushOutcome) (h : s.Discarded pc) :
    s.Moves i (s.advance i o pc) := by
  rcases s.advance_cases i o pc with ⟨gic, next, heq, hnext⟩ | ⟨cmd, next, heq, hnext⟩ | heq
  · rw [heq]
    refine ⟨some next, rfl, ?_⟩
    rintro _ ⟨⟩ k hk
    exact h k (hnext k hk)
  · rw [heq]
    refine moves_pushThen o fun k hk => ?_
    rcases hnext k hk with rfl | ⟨hpc, rdbase, rfl⟩
    · rw [List.foldl_append]
      exact update_self ..
    · obtain ⟨hqueue, htable⟩ := h k hpc
      rw [hqueue]
      exact htable
  · rw [heq]
    exact ⟨none, rfl, by simp⟩

/-- There is at most one call, and the ITS has executed a `DISCARD` that it has got past. -/
structure Alone (s : MsiSystem ι H) : Prop where
  one : ∀ i j, (s.calls i).isSome = true → (s.calls j).isSome = true → i = j
  discarded : ∀ i pc, s.calls i = some pc → s.Discarded pc

lemma Moves.alone (hmove : s.Moves i s') (hi : ∀ j, (s.calls j).isSome = true → j = i) :
    s'.Alone := by
  obtain ⟨next, hcalls, hnext⟩ := hmove
  have hone : ∀ j, (s'.calls j).isSome = true → j = i := by
    intro j hj
    by_contra hne
    rw [hcalls, update_of_ne hne] at hj
    exact hne (hi j hj)
  refine ⟨fun j j' hj hj' => (hone j hj).trans (hone j' hj').symm, ?_⟩
  intro j pc hj
  obtain rfl := hone j (by rw [hj]; rfl)
  rw [hcalls, update_self] at hj
  exact hnext pc hj

lemma Alone.step (h : s.Alone) {a : Action ι} (ha : s.Sequential a) (hs : Step s a s') :
    s'.Alone := by
  cases hs with
  | enter i call hi =>
    have hmove : s.Moves i (s.goto i call.start) := moves_goto (by cases call <;> rfl)
    refine hmove.alone fun j hj => ?_
    rw [ha j] at hj
    cases hj
  | advance i o hi hlock =>
    have hmove := moves_advance s i o (h.discarded i _ hi)
    exact hmove.alone fun j hj => h.one j i hj (by rw [hi]; rfl)
  | execute hq =>
    refine ⟨h.one, fun i pc hi k hk => ?_⟩
    rw [(h.discarded i pc hi k hk).1] at hq
    cases hq

lemma Reach.sequential (h : Reach Sequential s) : s.Alone ∧ ∃ owner, Inv owner s := by
  induction h with
  | start n rdbases =>
    refine ⟨⟨?_, ?_⟩, fun _ => (0, 0), inv_start n rdbases⟩
    · rintro i j ⟨⟩
    · rintro i pc ⟨⟩
  | step _ ha hs ih =>
    obtain ⟨halone, owner, hinv⟩ := ih
    refine ⟨halone.step ha hs, hinv.step hs ?_⟩
    rintro i o pc rfl hi d e l rfl
    obtain ⟨hqueue, htable⟩ := halone.discarded i _ hi (d, e) rfl
    rw [hqueue, htable]
    exact ⟨by simp, by simp⟩

/-- In a run with one call at a time no two events get the same LPI, and every LPI that is
translated to is in use, whatever happens to the commands and however many of those in the queue
have been executed. -/
theorem Reach.unshared_of_sequential (h : Reach Sequential s) {cmds : List ItsCmd}
    (hcmds : cmds <+: s.queue) : Unshared (cmds.foldl ItsCmd.exec s.table) s.gic.lpiAlloc := by
  obtain ⟨-, owner, hinv⟩ := h.sequential
  exact hinv.unshared_of_prefix hcmds

theorem unshared_after_timeout : ∃ s : MsiSystem Nat Unit, Reach Sequential s ∧
    s.queue = [.mapti 1 2 8192 0] ∧ s.table = (fun _ => none) ∧
      Unshared ([ItsCmd.mapti 1 2 8192 0].foldl ItsCmd.exec s.table) s.gic.lpiAlloc := by
  have henter : Reach Sequential (_ : MsiSystem Nat Unit) :=
    (Reach.start 7 [0]).enter 0 (.map 1 2 (some 8192) 0) (fun _ => rfl) rfl
  have hreserve := henter.advance 0 .ok trivial rfl (by
    rintro - (_ | j) pc ⟨⟩
    exact id)
  have htimeout := hreserve.advance 0 .timeout trivial rfl False.elim
  exact ⟨_, htimeout, rfl, rfl, htimeout.unshared_of_sequential (List.prefix_refl _)⟩

/-! ### Calls at the same time -/

/-- The runs of calls that map and unmap events, in which every command succeeds, with their marks.
The last one comes first. -/
inductive History : List (Mark ι) → MsiSystem ι H → Prop
  | start (ittEntrySize : Nat) (rdbases : List Nat) : History [] (start ittEntrySize rdbases)
  | enter {marks : List (Mark ι)} {s : MsiSystem ι H} (h : History marks s) (i : ι)
      (call : GicV3.Call) (hcall : call.OfEvent) (hi : s.calls i = none) :
      History marks (s.goto i call.start)
  | advance {marks : List (Mark ι)} {s : MsiSystem ι H} (h : History marks s) (i : ι) {pc : MsiPc}
      (hi : s.calls i = some pc)
      (hlock : pc.takesAlloc → ∀ j pc', s.calls j = some pc' → ¬ pc'.holdsAlloc) :
      History ((pc.mark i).toList ++ marks) (s.advance i .ok pc)

/-- The marks since the last `DISCARD` of the CPU for the event. -/
def since (marks : List (Mark ι)) (i : ι) (k : Nat × Nat) : List (Mark ι) :=
  marks.takeWhile (· ≠ .discard i k)

/-- Since then no CPU has given `MAPTI` for the event and put the event into the map. -/
def Quiet (marks : List (Mark ι)) (i : ι) (k : Nat × Nat) : Prop :=
  ∀ j, ¬ [.insert j k, .mapti j k].Sublist (since marks i k)

/-- Whenever an event is removed from the map, it has not been mapped anew since the call that
removes it gave `DISCARD`. -/
def Undisturbed : List (Mark ι) → Prop
  | []                   => True
  | .remove i k :: marks => Quiet marks i k ∧ Undisturbed marks
  | _ :: marks           => Undisturbed marks

def role (s : MsiSystem ι H) (i : ι) : Option Role := (s.calls i).bind MsiPc.role

/-- As long as a call that unmaps an event is not disturbed, the ITS translates the event to no LPI
that is in the map, or that a call puts there which gave `MAPTI` before. So it does not translate
the event to the LPI that is taken out of the map. -/
structure Safe (marks : List (Mark ι)) (s : MsiSystem ι H) : Prop where
  queue : s.queue = []
  mapped : ∀ i k, s.role i = some (.unmaps k) → Quiet marks i k →
    ∀ l, s.gic.eventMappings k = some l → s.table k ≠ some l
  inserts : ∀ i k, s.role i = some (.unmaps k) → Quiet marks i k → ∀ j l,
    s.role j = some (.inserts k l) → .mapti j k ∉ since marks i k → s.table k ≠ some l
  frees : ∀ i k l, s.role i = some (.frees k l) → s.table k ≠ some l

lemma since_cons (hm : m ≠ .discard i k) : since (m :: marks) i k = m :: since marks i k :=
  List.takeWhile_cons_of_pos (by simpa using hm)

lemma Quiet.of_cons (hm : m ≠ .discard i k) (h : Quiet (m :: marks) i k) : Quiet marks i k := by
  intro j hj
  rw [Quiet, since_cons hm] at h
  exact h j (hj.cons _)

/-- Fewer translations, entries of the map and roles are no harm. -/
lemma Safe.of_le (h : Safe marks s) (hqueue : s'.queue = [])
    (hevents : ∀ k l, s'.gic.eventMappings k = some l → s.gic.eventMappings k = some l)
    (htable : ∀ k l, s'.table k = some l → s.table k = some l)
    (hrole : ∀ j r, s'.role j = some r → s.role j = some r) : Safe marks s' where
  queue := hqueue
  mapped i k hi hq l hl htab := h.mapped i k (hrole i _ hi) hq l (hevents k l hl) (htable k l htab)
  inserts i k hi hq j l hj hm htab :=
    h.inserts i k (hrole i _ hi) hq j l (hrole j _ hj) hm (htable k l htab)
  frees i k l hi htab := h.frees i k l (hrole i _ hi) (htable k l htab)

/-- A later mark is no harm either, unless it is the `DISCARD` of another call. -/
lemma Safe.cons (h : Safe marks s) (hm : ∀ i k, m ≠ .discard i k) : Safe (m :: marks) s where
  queue := h.queue
  mapped i k hi hq := h.mapped i k hi (hq.of_cons (hm i k))
  inserts i k hi hq j l hj hmem := by
    rw [since_cons (hm i k)] at hmem
    exact h.inserts i k hi (hq.of_cons (hm i k)) j l hj fun h => hmem (.tail _ h)
  frees := h.frees

lemma role_goto_cases {r : Role} (hj : (s.goto i pc).role j = some r) :
    j = i ∧ pc.role = some r ∨ j ≠ i ∧ s.role j = some r := by
  by_cases hji : j = i
  · subst hji
    exact .inl ⟨rfl, by simpa [role, goto] using hj⟩
  · exact .inr ⟨hji, by simpa [role, goto, hji] using hj⟩

omit [DecidableEq ι] in
lemma role_of_calls (hi : s.calls i = some pc) : s.role i = pc.role := by
  rw [role, hi]
  rfl

omit [DecidableEq ι] in
lemma holds_of_role {r : Role} (h : s.role j = some r) (hr : r = .inserts k l ∨ r = .frees k l) :
    s.holds (.call j) = some (k, l) := by
  obtain ⟨pc, hj, hpc⟩ := Option.bind_eq_some_iff.mp h
  rw [holds, hj]
  rcases hr with rfl | rfl <;> cases pc <;> cases hpc <;> rfl

/-- After `DISCARD` there is nothing to say about the event. -/
lemma Safe.discard (h : Safe marks s) {d e : Nat} {rdbases : List Nat} :
    Safe (.discard i (d, e) :: marks) ({ s with
      table := update s.table (d, e) none }.goto i (.unmapSync d e rdbases)) := by
  have htable (k : Nat × Nat) (l : Nat) (hk : update s.table (d, e) none k = some l) :=
    Lib.Tokens.update_none_le s.table (d, e) k l hk
  refine ⟨h.queue, fun i' k hi' hq l hl htab => ?_, fun i' k hi' hq j l hj hm htab => ?_,
    fun j k l hj htab => ?_⟩
  · obtain ⟨hk, htab⟩ := htable k l htab
    obtain ⟨-, ⟨⟩⟩ | ⟨hne, hi'⟩ := role_goto_cases hi'
    · exact hk rfl
    · exact h.mapped i' k hi' (hq.of_cons (by simp [hne.symm])) l hl htab
  · obtain ⟨hk, htab⟩ := htable k l htab
    obtain ⟨-, ⟨⟩⟩ | ⟨hne, hi'⟩ := role_goto_cases hi'
    · exact hk rfl
    obtain ⟨-, ⟨⟩⟩ | ⟨-, hj⟩ := role_goto_cases hj
    have hm' : Mark.discard i (d, e) ≠ .discard i' k := by simp [hne.symm]
    rw [since_cons hm'] at hm
    exact h.inserts i' k hi' (hq.of_cons hm') j l hj (fun hmem => hm (.tail _ hmem)) htab
  · obtain ⟨-, ⟨⟩⟩ | ⟨-, hj⟩ := role_goto_cases hj
    exact h.frees j k l hj (htable k l htab).2

/-- The LPI of `MAPTI` is in no other place. -/
lemma Safe.mapti (h : Safe marks s) (hinv : Inv owner s) {d e icid : Nat}
    (hi : s.calls i = some (.mapPush d e l icid)) :
    Safe (.mapti i (d, e) :: marks) ({ s with
      table := update s.table (d, e) (some l) }.goto i (.mapInsertEvent d e l icid)) := by
  have hown : s.holds (.call i) = some ((d, e), l) := by
    rw [holds, hi]
    rfl
  have hother {k : Nat × Nat} {l' : Nat} {p : Place ι} (hp : s.holds p = some (k, l'))
      (hpi : p ≠ .call i) (hkeep : s.table k ≠ some l') :
      update s.table (d, e) (some l) k ≠ some l' := by
    intro htab
    by_cases hk : k = (d, e)
    · subst hk
      obtain rfl : l = l' := by simpa using htab
      exact hpi (hinv.once p _ _ hp hown)
    · exact hkeep (by simpa [hk] using htab)
  have hcons : Safe (.mapti i (d, e) :: marks) s := h.cons (by simp)
  refine ⟨h.queue, fun i' k hi' hq l' hl => ?_, fun i' k hi' hq j l' hj hm => ?_,
    fun j k l' hj => ?_⟩
  · obtain ⟨-, ⟨⟩⟩ | ⟨-, hi'⟩ := role_goto_cases hi'
    refine hother (p := .event k) ?_ (by simp) (hcons.mapped i' k hi' hq l' hl)
    rw [holds, show s.gic.eventMappings k = some l' from hl]
    rfl
  · obtain ⟨-, ⟨⟩⟩ | ⟨-, hi'⟩ := role_goto_cases hi'
    obtain ⟨rfl, ⟨⟩⟩ | ⟨hne, hj⟩ := role_goto_cases hj
    · rw [since_cons (by simp)] at hm
      exact absurd (.head _) hm
    · exact hother (holds_of_role hj (.inl rfl)) (by simp [hne])
        (hcons.inserts i' k hi' hq j l' hj hm)
  · obtain ⟨-, ⟨⟩⟩ | ⟨hne, hj⟩ := role_goto_cases hj
    exact hother (holds_of_role hj (.inr rfl)) (by simp [hne]) (h.frees j k l' hj)

/-- A call that puts an event into the map disturbs those that have given `DISCARD` before its
`MAPTI`; for the others the ITS does not translate the event to its LPI. -/
lemma Safe.insert (h : Safe marks s) {d e icid : Nat}
    (hi : s.calls i = some (.mapInsertEvent d e l icid)) :
    Safe (.insert i (d, e) :: marks) ({ s with
      gic.eventMappings := update s.gic.eventMappings (d, e) (some l) }.goto i
        (.mapInsertLpi d e l icid)) := by
  have hcons : Safe (.insert i (d, e) :: marks) s := h.cons (by simp)
  have hrole {j : ι} {r : Role} (hj : (s.goto i (.mapInsertLpi d e l icid)).role j = some r) :
      s.role j = some r := by
    obtain ⟨-, ⟨⟩⟩ | ⟨-, hj⟩ := role_goto_cases hj
    exact hj
  refine ⟨h.queue, fun i' k hi' hq l' hl => ?_, fun i' k hi' hq j l' hj =>
    hcons.inserts i' k (hrole hi') hq j l' (hrole hj), fun j k l' hj => h.frees j k l' (hrole hj)⟩
  by_cases hk : k = (d, e)
  · subst hk
    obtain rfl : l = l' := by simpa [goto] using hl
    refine h.inserts i' _ (hrole hi') (hq.of_cons (by simp)) i l (role_of_calls hi) fun hmem => ?_
    refine hq i ?_
    rw [since_cons (by simp)]
    exact (List.singleton_sublist.mpr hmem).cons_cons _
  · exact hcons.mapped i' k (hrole hi') hq l' (by simpa [goto, hk] using hl)

/-- A call that has not been disturbed takes an LPI out of the map that the ITS does not translate
the event to. -/
lemma Safe.remove (h : Safe marks s) {d e : Nat} (hi : s.calls i = some (.unmapSync d e []))
    (hq : Quiet marks i (d, e)) (hl : s.gic.eventMappings (d, e) = some l) :
    Safe (.remove i (d, e) :: marks) ({ s with
      gic.eventMappings := update s.gic.eventMappings (d, e) none }.goto i
        (.unmapRemoveLpi d e l)) := by
  have hcons : Safe (.remove i (d, e) :: marks) s := h.cons (by simp)
  refine ⟨h.queue, fun i' k hi' hq l' hl => ?_, fun i' k hi' hq j l' hj => ?_,
    fun j k l' hj => ?_⟩
  · obtain ⟨-, ⟨⟩⟩ | ⟨-, hi'⟩ := role_goto_cases hi'
    exact hcons.mapped i' k hi' hq l' (Lib.Tokens.update_none_le _ (d, e) k l' hl).2
  · obtain ⟨-, ⟨⟩⟩ | ⟨-, hi'⟩ := role_goto_cases hi'
    obtain ⟨-, ⟨⟩⟩ | ⟨-, hj⟩ := role_goto_cases hj
    exact hcons.inserts i' k hi' hq j l' hj
  · obtain ⟨-, ⟨⟩⟩ | ⟨-, hj⟩ := role_goto_cases hj
    · exact h.mapped i _ (role_of_calls hi) hq l hl
    · exact h.frees j k l' hj

lemma Safe.goto (h : Safe marks s) (hi : s.calls i = some pc) {next : MsiPc}
    (hnext : ∀ r, next.role = some r → pc.role = some r) {gic : GicV3 H}
    {table : Nat × Nat → Option Nat}
    (hevents : ∀ k l, gic.eventMappings k = some l → s.gic.eventMappings k = some l)
    (htable : ∀ k l, table k = some l → s.table k = some l) :
    Safe marks ({ s with gic, table }.goto i next) := by
  refine h.of_le h.queue hevents htable fun j r hj => ?_
  obtain ⟨rfl, hr⟩ | ⟨-, hj⟩ := role_goto_cases hj
  · exact (role_of_calls hi).trans (hnext r hr)
  · exact hj

lemma Safe.advance (h : Safe marks s) (hinv : Inv owner s) (hi : s.calls i = some pc)
    (hund : Undisturbed ((pc.mark i).toList ++ marks)) :
    Safe ((pc.mark i).toList ++ marks) (s.advance i .ok pc) := by
  have hnone {r : Role} {P : Prop} : none = some r → P := by simp
  have hpush (cmd : ItsCmd) (next : MsiPc) : s.pushThen i .ok cmd next =
      { s with table := cmd.exec s.table }.goto i next := by
    rw [pushThen, push, h.queue]
    rfl
  have hmapd (d k l) (hk : (if k.1 = d then none else s.table k) = some l) : s.table k = some l :=
    (ite_eq_iff.mp hk).elim (fun hk => absurd hk.2 (by simp)) (·.2)
  cases pc with
  | register itt d n =>
    unfold advance
    dsimp only
    split_ifs
    · exact h.goto hi (fun _ => hnone) (fun _ _ => id) fun _ _ => id
    · exact h.goto hi (fun _ => hnone) (fun _ _ => id) fun _ _ => id
    · cases itt with
      | none => exact h.goto hi (fun _ => hnone) (fun _ _ => id) fun _ _ => id
      | some ptr =>
        dsimp only
        rw [hpush]
        exact h.goto hi (fun _ => hnone) (fun _ _ => id) (hmapd d)
  | unregister d =>
    rw [advance, if_pos hinv.its, hpush]
    exact h.goto hi (fun _ => hnone) (fun _ _ => id) (hmapd d)
  | map d e lpiId cpu =>
    cases lpiId with
    | some lpi =>
      rw [advance]
      cases s.gic.lpiAlloc.reserve lpi <;>
        exact h.goto hi (fun _ => hnone) (fun _ _ => id) fun _ _ => id
    | none =>
      rw [advance]
      rcases s.gic.lpiAlloc.alloc with ⟨_ | l, a⟩ <;>
        exact h.goto hi (fun _ => hnone) (fun _ _ => id) fun _ _ => id
  | mapPush d e lpi icid =>
    rw [advance, if_pos hinv.its, hpush]
    exact h.mapti hinv hi
  | mapInsertEvent d e lpi icid => exact h.insert hi
  | unmap d e =>
    rw [advance, if_pos hinv.its, hpush]
    exact h.discard
  | unmapSync d e rdbases =>
    cases rdbases with
    | nil =>
      rw [advance]
      cases hl : s.gic.eventMappings (d, e) with
      | none =>
        exact (h.goto hi (fun _ => hnone) (fun _ _ => id) fun _ _ => id).cons (by simp)
      | some l => exact h.remove hi hund.1 hl
    | cons rdbase rdbases =>
      rw [advance, hpush]
      refine h.goto hi ?_ (fun _ _ => id) fun _ _ => id
      exact fun _ => id
  | unmapRemoveLpi d e lpi =>
    refine h.goto hi ?_ (fun _ _ => id) fun _ _ => id
    exact fun _ => id
  | done r =>
    refine h.of_le h.queue (fun _ _ => id) (fun _ _ => id) fun j r hj => ?_
    by_cases hji : j = i
    · simp [role, advance, hji] at hj
    · simpa [role, advance, hji] using hj
  | _ => exact h.goto hi (fun _ => hnone) (fun _ _ => id) fun _ _ => id

lemma Undisturbed.of_append {more : List (Mark ι)} (h : Undisturbed (more ++ marks)) :
    Undisturbed marks := by
  induction more with
  | nil => exact h
  | cons m more ih =>
    cases m with
    | remove i k => exact ih h.2
    | _ => exact ih h

lemma History.safe (h : History marks s) (hund : Undisturbed marks) :
    Safe marks s ∧ ∃ owner, Inv owner s := by
  induction h with
  | start n rdbases =>
    refine ⟨⟨rfl, ?_, ?_, ?_⟩, fun _ => (0, 0), inv_start n rdbases⟩
    · rintro i k ⟨⟩
    · rintro i k ⟨⟩
    · rintro i k l ⟨⟩
  | enter h i call hcall hi ih =>
    obtain ⟨hsafe, owner, hinv⟩ := ih hund
    refine ⟨?_, hinv.step (.enter i call hi) (by rintro _ _ _ ⟨⟩)⟩
    refine hsafe.of_le hsafe.queue (fun _ _ => id) (fun _ _ => id) fun j r hj => ?_
    obtain ⟨-, hr⟩ | ⟨-, hj⟩ := role_goto_cases hj
    · cases call <;> cases hr
    · exact hj
  | advance h i hi hlock ih =>
    obtain ⟨hsafe, owner, hinv⟩ := ih hund.of_append
    refine ⟨hsafe.advance hinv hi hund, hinv.advance .ok hi ?_⟩
    rintro d e l rfl
    refine ⟨hsafe.frees i (d, e) l (role_of_calls hi), ?_⟩
    simp [hsafe.queue]

/-- However the calls of the CPUs are interleaved, LPIs are not shared as long as no event is mapped
anew between the `DISCARD` of a call that unmaps it and the removal of the event from the map. -/
theorem History.unshared (h : History marks s) (hund : Undisturbed marks) :
    Unshared s.table s.gic.lpiAlloc := by
  obtain ⟨-, owner, hinv⟩ := h.safe hund
  exact hinv.unshared_of_prefix List.nil_prefix

/-- One CPU maps an event, and another one unmaps it while the first one maps a second event. -/
theorem unshared_of_two_events : ∃ marks, ∃ s : MsiSystem Bool Unit, History marks s ∧
    s.table (1, 2) = none ∧ ¬ s.gic.lpiAlloc.Used 8192 ∧ s.table (1, 3) = some 8193 ∧
      Unshared s.table s.gic.lpiAlloc := by
  have hmap : History _ (_ : MsiSystem Bool Unit) :=
    (History.start 7 [0]).enter false (.map 1 2 (some 8192) 0) trivial rfl
  have hmap := hmap.advance false rfl (by rintro - (_ | _) pc ⟨⟩; exact id)
  have hmap := hmap.advance false rfl False.elim
  have hmap := hmap.advance false rfl False.elim
  have hmap := hmap.advance false rfl False.elim
  have hmap := hmap.advance false rfl False.elim
  have hunmap := hmap.enter true (.unmap 1 2) trivial rfl
  have hunmap := hunmap.advance true rfl False.elim
  have hother := hunmap.enter false (.map 1 3 (some 8193) 0) trivial rfl
  have hother := hother.advance false rfl (by rintro - (_ | _) pc ⟨⟩ <;> exact id)
  have hother := hother.advance false rfl False.elim
  have hother := hother.advance false rfl False.elim
  have hother := hother.advance false rfl False.elim
  have hsync := hother.advance true rfl False.elim
  have hremove := hsync.advance true rfl False.elim
  have hremove := hremove.advance true rfl False.elim
  have hfree := hremove.advance true rfl (by rintro - (_ | _) pc ⟨⟩ <;> exact id)
  refine ⟨_, _, hfree, rfl, ?_, rfl, hfree.unshared ⟨fun j => ?_, trivial⟩⟩
  · rintro ⟨-, hbit⟩
    exact Bool.false_ne_true hbit
  · cases j <;> decide

/-- One CPU has executed `DISCARD` for an event; another maps the event anew; then the first takes
the new LPI out of the map of events and gives it back. -/
theorem shared_after_race : ∃ marks, ∃ s : MsiSystem Bool Unit, History marks s ∧
    s.table (1, 2) = some 8193 ∧ ¬ s.gic.lpiAlloc.Used 8193 := by
  have hmap : History _ (_ : MsiSystem Bool Unit) :=
    (History.start 7 [0]).enter false (.map 1 2 (some 8192) 0) trivial rfl
  have hmap := hmap.advance false rfl (by rintro - (_ | _) pc ⟨⟩; exact id)
  have hmap := hmap.advance false rfl False.elim
  have hmap := hmap.advance false rfl False.elim
  have hmap := hmap.advance false rfl False.elim
  have hmap := hmap.advance false rfl False.elim
  have hunmap := hmap.enter false (.unmap 1 2) trivial rfl
  have hunmap := hunmap.advance false rfl False.elim
  have hagain := hunmap.enter true (.map 1 2 (some 8193) 0) trivial rfl
  have hagain := hagain.advance true rfl (by rintro - (_ | _) pc ⟨⟩ <;> exact id)
  have hagain := hagain.advance true rfl False.elim
  have hagain := hagain.advance true rfl False.elim
  have hagain := hagain.advance true rfl False.elim
  have hsync := hagain.advance false rfl False.elim
  have hremove := hsync.advance false rfl False.elim
  have hremove := hremove.advance false rfl False.elim
  have hfree := hremove.advance false rfl (by rintro - (_ | _) pc ⟨⟩ <;> exact id)
  refine ⟨_, _, hfree, rfl, ?_⟩
  rintro ⟨-, hbit⟩
  exact Bool.false_ne_true hbit

end MsiSystem

end Mars.Gic
