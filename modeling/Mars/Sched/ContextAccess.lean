import Mars.Sched.Conservation

/-!
# Access to the context of a running thread

`Thread::with_ctx_mut` asserts that the thread is not running. `schedule` calls it on the previous
thread before that one stops being `Running`, and on the next thread after it has become `Running`.
Here `schedule` is embedded with that assertion. It returns only as long as there is nothing to
switch to.
-/

namespace Mars.Sched

/-- Why a call does not return. -/
inductive Panic where
  /-- An index out of bounds, or `spawn` without a CPU. -/
  | noCpu
  /-- The default handler of synchronous exceptions. -/
  | unexpectedException
  /-- "can't access context of a running thread" -/
  | runningContext
deriving DecidableEq, Repr

namespace Scheduler

/-! ### The code with its assertion -/

def withCtxMut {α : Type} (s : Scheduler) (t : ThreadRef) (f : RegisterFile → α × RegisterFile) :
    Except Panic (α × Scheduler) :=
  if s.state t = .running then .error .runningContext
  else
    let (a, regs) := f (s.ctx t)
    .ok (a, s.saveCtx t regs)

def retireChecked (s : Scheduler) (q : LocalScheduler) (ctx : RegisterFile) :
    Except Panic (Scheduler × List ThreadRef) :=
  match q.currentThread with
  | none      => .ok (s, q.threadQueue)
  | some prev => do
    let (_, s) ← s.withCtxMut prev fun _ => ((), ctx)
    if s.state prev = .running then .ok (s.setState prev .ready, q.threadQueue ++ [prev])
    else .ok (s, q.threadQueue)

def scheduleChecked (s : Scheduler) (cpu : Nat) (ctx : RegisterFile) :
    Except Panic (Resumed × Scheduler) :=
  match s.queues[cpu]? with
  | none   => .error .noCpu
  | some q => do
    let (s, queue) ← s.retireChecked q ctx
    match popOr q.currentThread queue with
    | (none, rest)      => .ok (.interrupted, s.setLocal cpu ⟨rest, none⟩)
    | (some next, rest) =>
      if q.currentThread = some next then
        .ok (.interrupted, s.setLocal cpu ⟨rest, some next⟩)
      else
        let s := (s.setState next .running).setLocal cpu ⟨rest, some next⟩
        -- the pointer to the context is what the caller resumes
        let (_, s) ← s.withCtxMut next fun next_ctx => ((), next_ctx)
        .ok (.context next, s)

def callChecked (svc : Svc) (s : Scheduler) : Call → Except Panic Scheduler
  | .registerCpu cpu => .ok (s.registerCpu cpu)
  | .spawn t =>
    match s.spawn t with
    | none   => .error .noCpu
    | some s => .ok s
  | .schedule cpu ctx => (s.scheduleChecked cpu ctx).map Prod.snd
  | .blockCurrent cpu w ctx =>
    match s.blockMark cpu w, svc with
    | none, _            => .error .noCpu
    | some _, .panics    => .error .unexpectedException
    | some s, .schedules => (s.scheduleChecked cpu ctx).map Prod.snd
  | .unblock t =>
    match s.unblock t with
    | none   => .error .noCpu
    | some s => .ok s
  | .dequeue w => .ok (s.dequeue w)

/-! ### When the assertion fails -/

variable {s s' : Scheduler} {cpu : Nat} {q : LocalScheduler} {ctx : RegisterFile} {svc : Svc}

lemma withCtxMut_running {α : Type} {t : ThreadRef} (f : RegisterFile → α × RegisterFile)
    (h : s.state t = .running) : s.withCtxMut t f = .error .runningContext := if_pos h

lemma withCtxMut_of_ne {α : Type} {t : ThreadRef} (f : RegisterFile → α × RegisterFile)
    (h : s.state t ≠ .running) :
    s.withCtxMut t f = .ok ((f (s.ctx t)).1, s.saveCtx t (f (s.ctx t)).2) := if_neg h

/-- The previous thread passes the assertion only if it is not running any more, and then it is
not put back into the queue. -/
lemma retireChecked_cases (s : Scheduler) (q : LocalScheduler) (ctx : RegisterFile) :
    (∃ prev, q.currentThread = some prev ∧ s.state prev = .running ∧
      s.retireChecked q ctx = .error .runningContext) ∨
    ((∀ prev, q.currentThread = some prev → s.state prev ≠ .running) ∧
      s.retireChecked q ctx = .ok (s.retire q ctx) ∧ (s.retire q ctx).2 = q.threadQueue) := by
  cases hc : q.currentThread with
  | none => exact .inr ⟨nofun, by simp [retireChecked, retire, hc]⟩
  | some prev =>
    by_cases hrun : s.state prev = .running
    · left
      refine ⟨prev, rfl, hrun, ?_⟩
      simp [retireChecked, hc, withCtxMut_running _ hrun, bind, Except.bind]
    · right
      refine ⟨?_, ?_⟩
      · rintro _ ⟨⟩
        exact hrun
      · simp [retireChecked, retire, hc, withCtxMut_of_ne _ hrun, bind, Except.bind, saveCtx, hrun]

/-- In any state, `schedule` trips the assertion if the current thread is running, and if it has
a thread to switch to. -/
lemma scheduleChecked_eq_error_iff : s.scheduleChecked cpu ctx = .error .runningContext ↔
    ∃ q, s.queues[cpu]? = some q ∧
      ((∃ prev, q.currentThread = some prev ∧ s.state prev = .running) ∨
        ∃ next rest, q.threadQueue = next :: rest ∧ q.currentThread ≠ some next) := by
  rw [scheduleChecked]
  cases hq : s.queues[cpu]? with
  | none => simp
  | some q =>
    rcases retireChecked_cases s q ctx with ⟨prev, hc, hrun, herr⟩ | ⟨hrun, hok, hqueue⟩
    · simp [herr, hc, hrun, bind, Except.bind]
    · have hprev : ¬ ∃ prev, q.currentThread = some prev ∧ s.state prev = .running := by
        rintro ⟨prev, hc, hr⟩
        exact hrun prev hc hr
      simp only [hok, hqueue, bind, Except.bind, Option.some.injEq, exists_eq_left', hprev,
        false_or]
      cases htq : q.threadQueue with
      | nil =>
        cases hc : q.currentThread with
        | none => simp [popOr]
        | some prev => simp [popOr]
      | cons next rest =>
        by_cases hc : q.currentThread = some next
        · simp [popOr, hc]
        · simp [popOr, hc, withCtxMut, setState, setLocal]

/-- What passes the assertions is what `schedule` does. -/
lemma schedule_of_checked {r : Resumed × Scheduler} (h : s.scheduleChecked cpu ctx = .ok r) :
    s.schedule cpu ctx = some r := by
  rw [scheduleChecked] at h
  rw [schedule]
  cases hq : s.queues[cpu]? with
  | none => simp [hq] at h
  | some q =>
    rw [hq] at h
    rcases retireChecked_cases s q ctx with ⟨prev, hc, hrun, herr⟩ | ⟨hrun, hok, hqueue⟩
    · simp [herr, bind, Except.bind] at h
    · simp only [hok, bind, Except.bind] at h
      rcases hpop : popOr q.currentThread (s.retire q ctx).2 with ⟨next | next, rest⟩
      · simp only [hpop] at h ⊢
        cases h
        rfl
      · simp only [hpop] at h ⊢
        by_cases hc : q.currentThread = some next
        · rw [if_pos hc] at h ⊢
          cases h
          rfl
        · simp [hc, withCtxMut, setState, setLocal] at h

end Scheduler

/-! ### Runs -/

/-- Neither `schedule` nor the yield of `block_current` finds a thread in the queue of its CPU. -/
def Call.NothingQueued (svc : Svc) (s : Scheduler) : Call → Prop
  | .schedule cpu _ => ∀ q, s.queues[cpu]? = some q → q.threadQueue = []
  | .blockCurrent cpu _ _ =>
    svc = .schedules → ∀ q, s.queues[cpu]? = some q → q.threadQueue = []
  | _ => True

namespace Scheduler

/-- A call that meets the condition and returns. -/
def CheckedStep (svc : Svc) (s s' : Scheduler) : Prop :=
  ∃ c : Call, c.NothingQueued svc s ∧ s.callChecked svc c = .ok s'

variable {s s' : Scheduler} {cpu : Nat} {svc : Svc}

/-- No CPU ever gets a current thread. -/
def Unstarted (s : Scheduler) : Prop := ∀ q ∈ s.queues, q.currentThread = none

lemma Unstarted.spawn (h : s.Unstarted) {t : ThreadRef} (hs : s.spawn t = some s') :
    s'.Unstarted := by
  obtain ⟨-, cpu, q, hq, hqs⟩ := spawn_spec hs
  intro q' hq'
  rw [hqs] at hq'
  rcases List.mem_or_eq_of_mem_set hq' with hmem | rfl
  · exact h q' hmem
  · exact h q (List.mem_of_getElem? hq)

lemma Unstarted.registerCpu (h : s.Unstarted) (cpu : Nat) : (s.registerCpu cpu).Unstarted := by
  intro q hq
  rcases mem_registerCpu hq with hmem | rfl
  · exact h q hmem
  · rfl

/-- Without a current thread there is nothing to block. -/
lemma Unstarted.blockMark (h : s.Unstarted) {w : WaitQueueRef}
    (hs : s.blockMark cpu w = some s') : s' = s := by
  rw [Scheduler.blockMark] at hs
  cases hq : s.queues[cpu]? with
  | none => simp [hq] at hs
  | some q => simpa [hq, h q (List.mem_of_getElem? hq)] using hs.symm

lemma Unstarted.asserts_iff (h : s.Unstarted) {ctx : RegisterFile} :
    s.scheduleChecked cpu ctx = .error .runningContext ↔
      ¬ ∀ q, s.queues[cpu]? = some q → q.threadQueue = [] := by
  rw [scheduleChecked_eq_error_iff]
  constructor
  · rintro ⟨q, hq, ⟨prev, hc, -⟩ | ⟨next, rest, htq, -⟩⟩ hall
    · rw [h q (List.mem_of_getElem? hq)] at hc
      cases hc
    · rw [hall q hq] at htq
      cases htq
  · intro hall
    push Not at hall
    obtain ⟨q, hq, hne⟩ := hall
    obtain ⟨next, rest, htq⟩ := List.exists_cons_of_ne_nil hne
    refine ⟨q, hq, .inr ⟨next, rest, htq, ?_⟩⟩
    simp [h q (List.mem_of_getElem? hq)]

lemma Unstarted.scheduleChecked (h : s.Unstarted) {ctx : RegisterFile} {r : Resumed}
    (hs : s.scheduleChecked cpu ctx = .ok (r, s')) : s'.Unstarted := by
  have hidle : ∀ q, s.queues[cpu]? = some q → q.threadQueue = [] := by
    by_contra hall
    rw [h.asserts_iff.2 hall] at hs
    cases hs
  have hs := schedule_of_checked hs
  obtain ⟨q, q', hq, hqs, hsw⟩ := schedule_spec hs (fun q hq t _ => by simp [h q hq])
  intro p hp
  rw [hqs] at hp
  rcases List.mem_or_eq_of_mem_set hp with hmem | rfl
  · exact h p hmem
  · have hc := h q (List.mem_of_getElem? hq)
    generalize s'.state = state' at hsw
    -- of the ways to switch only the idle one is left
    cases hsw with
    | idle => rfl
    | start _ htq => simp [hidle q hq] at htq
    | alone hcur | preempt hcur | stay hcur | replace hcur => simp [hc] at hcur

lemma Unstarted.callChecked (h : s.Unstarted) {c : Call} (hs : s.callChecked svc c = .ok s') :
    s'.Unstarted := by
  have schedules {s : Scheduler} (h : s.Unstarted) {cpu : Nat} {ctx : RegisterFile}
      (hs : (s.scheduleChecked cpu ctx).map Prod.snd = .ok s') : s'.Unstarted := by
    cases hr : s.scheduleChecked cpu ctx with
    | error p => simp [hr, Except.map] at hs
    | ok r =>
      obtain rfl : r.2 = s' := by simpa [hr, Except.map] using hs
      exact h.scheduleChecked hr
  cases c with
  | registerCpu cpu =>
    cases hs
    exact h.registerCpu cpu
  | spawn t | unblock t =>
    simp only [Scheduler.callChecked] at hs
    split at hs
    case h_1 => cases hs
    case h_2 hspawn =>
      cases hs
      exact h.spawn hspawn
  | schedule cpu ctx => exact schedules h hs
  | blockCurrent cpu w ctx =>
    simp only [Scheduler.callChecked] at hs
    split at hs
    case h_1 => cases hs
    case h_2 => cases hs
    case h_3 hmark =>
      obtain rfl := h.blockMark hmark
      exact schedules h hs
  | dequeue w =>
    cases hs
    exact h

lemma unstarted_of_run {ctx : ThreadRef → RegisterFile}
    (h : Relation.ReflTransGen (CheckedStep svc) (Scheduler.new ctx) s) : s.Unstarted := by
  induction h with
  | refl => exact nofun
  | tail _ hstep ih =>
    obtain ⟨c, -, hc⟩ := hstep
    exact ih.callChecked hc

/-- In every run of calls that meet the condition, the assertion fails in the next call exactly
if that one does not meet it. -/
theorem nothingQueued_iff {ctx : ThreadRef → RegisterFile}
    (h : Relation.ReflTransGen (CheckedStep svc) (Scheduler.new ctx) s) (c : Call) :
    c.NothingQueued svc s ↔ s.callChecked svc c ≠ .error .runningContext := by
  have hun := unstarted_of_run h
  have asserts {cpu : Nat} {ctx : RegisterFile} :
      (∀ q, s.queues[cpu]? = some q → q.threadQueue = []) ↔
        (s.scheduleChecked cpu ctx).map Prod.snd ≠ .error .runningContext := by
    rw [← not_iff_not, ← hun.asserts_iff, not_not]
    cases s.scheduleChecked cpu ctx <;> simp [Except.map]
  cases c with
  | registerCpu cpu => simp [Call.NothingQueued, callChecked]
  | dequeue w => simp [Call.NothingQueued, callChecked]
  | spawn t | unblock t =>
    simp only [Call.NothingQueued, callChecked, true_iff]
    split <;> simp
  | schedule cpu regs => exact asserts
  | blockCurrent cpu w regs =>
    simp only [Call.NothingQueued, callChecked]
    split
    case h_1 hmark =>
      -- a CPU that is not there has no queue either
      have hq : s.queues[cpu]? = none := by
        by_contra hsome
        obtain ⟨q, hq⟩ := Option.ne_none_iff_exists'.1 hsome
        simp [blockMark, hq, hun q (List.mem_of_getElem? hq)] at hmark
      simp [hq]
    case h_2 => simp
    case h_3 hmark =>
      obtain rfl := hun.blockMark hmark
      simpa using asserts

/-- One of two CPUs yields while it has nothing to run, then it gets a thread. -/
lemma run_idle_cpu : ∃ s, Relation.ReflTransGen (CheckedStep .schedules)
    (Scheduler.new fun _ => .zero) s ∧ s.queues = [⟨[7], none⟩, ⟨[], none⟩] := by
  refine ⟨_, .tail (.tail (.single ⟨.registerCpu 1, trivial, rfl⟩)
    ⟨.blockCurrent 0 0 .zero, ?_, rfl⟩) ⟨.spawn 7, trivial, rfl⟩, rfl⟩
  rintro - q ⟨⟩
  rfl

theorem nothingQueued_idle_cpu : ∃ s, Relation.ReflTransGen (CheckedStep .schedules)
    (Scheduler.new fun _ => .zero) s ∧ s.queues = [⟨[7], none⟩, ⟨[], none⟩] ∧
      s.callChecked .schedules (.schedule 1 .zero) ≠ .error .runningContext := by
  obtain ⟨s, hrun, hq⟩ := run_idle_cpu
  refine ⟨s, hrun, hq, (nothingQueued_iff hrun (.schedule 1 .zero)).1 ?_⟩
  intro q hsome
  simp only [hq, List.getElem?_cons_succ, List.getElem?_cons_zero, Option.some.injEq] at hsome
  rw [← hsome]

/-- Several calls, up to the first that does not return. -/
def callsChecked (svc : Svc) (s : Scheduler) : List Call → Except Panic Scheduler
  | []      => .ok s
  | c :: cs => do
    let s ← s.callChecked svc c
    s.callsChecked svc cs

/-- The first thread that a CPU is to run stops it, on a path that no earlier call disturbs. -/
theorem first_switch_asserts : (Scheduler.new fun _ => .zero).callsChecked .panics
    [.registerCpu 0, .spawn 0, .schedule 0 .zero] = .error .runningContext := rfl

end Scheduler

end Mars.Sched
