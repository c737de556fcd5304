import Mars.Sched.Places
import Mathlib.Logic.Relation

/-!
# One CPU per thread

The CPUs of the kernel run interleaved, each executing the context that its last `schedule` or
its `idle_init` (`kernel/src/earlyinit/idle.rs`) gave it. No thread should be executed, or
current, on two CPUs or be queued while it is executed, and `schedule` should not resume a
blocked one. Three things break this, and nothing else: `idle_init` executes a thread it has queued
for any CPU, `spawn` and `unblock` queue a thread without asking where it is, and `schedule` falls
back on the previous thread without looking at its state.
-/

namespace Mars.Sched

open Function Scheduler LocalScheduler

/-- The scheduler and the thread whose context each CPU executes. -/
structure Cores where
  sched : Scheduler
  executing : Nat → Option ThreadRef

def Cores.new (ctx : ThreadRef → RegisterFile) : Cores :=
  { sched := Scheduler.new ctx, executing := fun _ => none }

/-- The atomic steps. A yield is a `schedule` of the yielding CPU, as a timer interrupt is. -/
inductive Action where
  | registerCpu (cpu : Nat)
  | idleInit (cpu : Nat) (t : ThreadRef)
  | spawn (t : ThreadRef)
  | schedule (cpu : Nat) (ctx : RegisterFile)
  | blockMark (cpu : Nat) (w : WaitQueueRef)
  | unblock (t : ThreadRef)
  | dequeue (w : WaitQueueRef)

def Cores.resume (m : Cores) (cpu : Nat) : Scheduler.Resumed → Nat → Option ThreadRef
  | .interrupted => m.executing
  | .context t   => update m.executing cpu (some t)

def Cores.act (m : Cores) : Action → Option Cores
  | .registerCpu cpu  => some { m with sched := m.sched.registerCpu cpu }
  | .idleInit cpu t   =>
    (m.sched.spawn t).map fun s => { sched := s, executing := update m.executing cpu (some t) }
  | .spawn t          => (m.sched.spawn t).map fun s => { m with sched := s }
  | .schedule cpu ctx =>
    (m.sched.schedule cpu ctx).map fun r => { sched := r.2, executing := m.resume cpu r.1 }
  | .blockMark cpu w  => (m.sched.blockMark cpu w).map fun s => { m with sched := s }
  | .unblock t        => (m.sched.unblock t).map fun s => { m with sched := s }
  | .dequeue w        => some { m with sched := m.sched.dequeue w }

/-- The thread is executing on the CPU or is its current thread. -/
def Cores.On (m : Cores) (cpu : Nat) (t : ThreadRef) : Prop :=
  m.executing cpu = some t ∨ ∃ q, m.sched.queues[cpu]? = some q ∧ q.currentThread = some t

structure Cores.Exclusive (m : Cores) : Prop where
  one_cpu : ∀ i j t, m.On i t → m.On j t → i = j
  not_queued : ∀ i t, m.executing i = some t → ∀ q ∈ m.sched.queues, t ∉ q.threadQueue

/-- The action did not resume a blocked thread, `m` being the state after it. -/
def Action.ResumesUnblocked (m : Cores) : Action → Prop
  | .schedule cpu _ => ∀ t, m.executing cpu = some t → m.sched.state t ≠ .blocked
  | _               => True

/-- The actions that keep threads apart: no `idle_init`, no `spawn` or `unblock` of a thread that
is still somewhere, no `schedule` of a blocked thread on a CPU with nothing else to run. -/
def Action.Allowed (m : Cores) : Action → Prop
  | .idleInit _ _   => False
  | .spawn t        => m.sched.places t = 0
  | .unblock t      => m.sched.places t = 0
  | .schedule cpu _ => ∀ q t, m.sched.queues[cpu]? = some q → q.currentThread = some t →
      m.sched.state t = .blocked → q.threadQueue ≠ []
  | _               => True

def Cores.Step (m m' : Cores) : Prop := ∃ a : Action, a.Allowed m ∧ m.act a = some m'

variable {m m' : Cores} {cpu : Nat} {t : ThreadRef}

/-! ### The invariant -/

/-- Every CPU executes its current thread. -/
def Cores.ExecutesCurrent (m : Cores) : Prop :=
  ∀ i, m.executing i = m.sched.queues[i]?.bind currentThread

structure Cores.Inv (m : Cores) : Prop extends m.sched.Inv where
  executing_eq : m.ExecutesCurrent

lemma Cores.ExecutesCurrent.on_iff (h : m.ExecutesCurrent) : m.On cpu t ↔
    ∃ q, m.sched.queues[cpu]? = some q ∧ q.currentThread = some t := by
  rw [Cores.On, h, Option.bind_eq_some_iff, or_self]

lemma Cores.ExecutesCurrent.executing {q : LocalScheduler} (h : m.ExecutesCurrent)
    (hq : m.sched.queues[cpu]? = some q) : m.executing cpu = q.currentThread := by
  rw [h, hq, Option.bind_some]

lemma Cores.Inv.exclusive (h : m.Inv) : m.Exclusive where
  one_cpu := by
    intro i j t hi hj
    obtain ⟨q, hq, hqt⟩ := h.executing_eq.on_iff.1 hi
    obtain ⟨x, hx, hxt⟩ := h.executing_eq.on_iff.1 hj
    by_contra hne
    exact h.notMem_threads hx hq hne (mem_threads_of_current hqt)
      (mem_threads_of_current hxt)
  not_queued := by
    intro i t hi x hx ht
    obtain ⟨q, hq, hqt⟩ := h.executing_eq.on_iff.1 (.inl hi)
    obtain ⟨j, hj⟩ := List.mem_iff_getElem?.1 hx
    by_cases hij : j = i
    · rw [hij, hq] at hj
      cases hj
      exact h.current_notMem _ hx t ht hqt
    · exact h.notMem_threads hq hj hij (mem_threads_of_queued ht)
        (mem_threads_of_current hqt)

namespace Scheduler

variable {s s' : Scheduler}

lemma spawn_current (h : s.spawn t = some s') (i : Nat) :
    s'.queues[i]?.bind currentThread =
      s.queues[i]?.bind currentThread := by
  obtain ⟨-, cpu, q, hq, hqs⟩ := spawn_spec h
  rw [hqs]
  by_cases hi : i = cpu
  · rw [hi, List.getElem?_set_self (List.getElem?_eq_some_iff.1 hq).1, hq]
    rfl
  · rw [List.getElem?_set_ne (Ne.symm hi)]

lemma spawn_mem_queue (h : s.spawn t = some s') : ∃ q ∈ s'.queues, t ∈ q.threadQueue := by
  obtain ⟨-, cpu, q, hq, hqs⟩ := spawn_spec h
  refine ⟨{ q with threadQueue := q.threadQueue ++ [t] }, ?_, ?_⟩
  · rw [hqs]
    exact List.mem_set (List.getElem?_eq_some_iff.1 hq).1 _
  · exact List.mem_append_right _ (List.mem_singleton_self t)

lemma registerCpu_current (i : Nat) :
    (s.registerCpu cpu).queues[i]?.bind currentThread =
      s.queues[i]?.bind currentThread := by
  rw [registerCpu]
  split_ifs
  · rw [List.getElem?_append, List.getElem?_replicate]
    split_ifs with hold
    · rfl
    · rw [List.getElem?_eq_none (Nat.not_lt.1 hold)]
      rfl
    · rw [List.getElem?_eq_none (Nat.not_lt.1 hold)]
  · rfl

/-- What a switch returns is the new current thread, or it leaves the current thread alone. -/
lemma Switch.resumed {q q' : LocalScheduler} {state state' : ThreadRef → ThreadState}
    {r : Resumed} (h : Switch state q r state' q') :
    (r = .interrupted ∧ q'.currentThread = q.currentThread) ∨
      ∃ t, r = .context t ∧ q'.currentThread = some t ∧ state' t = .running := by
  cases h with
  | idle hc | alone hc | stay hc => exact .inl ⟨rfl, hc.symm⟩
  | start | preempt | replace => exact .inr ⟨_, rfl, rfl, update_self ..⟩

/-- With threads waiting, a switch takes the first of them. -/
lemma Switch.pops {q q' : LocalScheduler} {state state' : ThreadRef → ThreadState}
    {r : Resumed} {rest : List ThreadRef} (h : Switch state q r state' q')
    (hqueue : q.threadQueue = t :: rest) :
    q'.currentThread = some t ∧ ∃ more, q'.threadQueue = rest ++ more := by
  cases h with
  | idle _ hq | alone _ hq | stay _ hq => simp [hqueue] at hq
  | start _ hq | replace _ hq =>
    rw [hqueue] at hq
    cases hq
    exact ⟨rfl, [], (List.append_nil _).symm⟩
  | preempt _ hq =>
    rw [hqueue] at hq
    cases hq
    exact ⟨rfl, _, rfl⟩

lemma isSome_schedule {q : LocalScheduler} (hq : s.queues[cpu]? = some q) (ctx : RegisterFile) :
    (s.schedule cpu ctx).isSome := by
  simp only [schedule, hq]
  split
  · rfl
  · split_ifs <;> rfl

/-- A switch resumes a blocked thread only by falling back on it. -/
lemma Switch.resumes_unblocked_iff {q q' : LocalScheduler} {state state' : ThreadRef → ThreadState}
    {r : Resumed} (h : Switch state q r state' q') :
    (∀ t, q'.currentThread = some t → state' t ≠ .blocked) ↔
      ∀ t, q.currentThread = some t → state t = .blocked → q.threadQueue ≠ [] := by
  cases h with
  | idle hc => simp [hc]
  | start hc => simp [hc]
  | alone hc hq hrun => simp [hc, hrun]
  | preempt hc hq | replace hc hq => simp [hq]
  | stay hc hq => simp [hc, hq]

end Scheduler

/-! ### Interleavings -/

lemma Cores.ExecutesCurrent.schedule (h : m.ExecutesCurrent) {s' : Scheduler}
    {q q' : LocalScheduler} {r : Scheduler.Resumed} (hq : m.sched.queues[cpu]? = some q)
    (hqs : s'.queues = m.sched.queues.set cpu q')
    (hsw : Scheduler.Switch m.sched.state q r s'.state q') :
    Cores.ExecutesCurrent { sched := s', executing := m.resume cpu r } := by
  have hlt := (List.getElem?_eq_some_iff.1 hq).1
  intro i
  change m.resume cpu r i = s'.queues[i]?.bind currentThread
  rw [hqs]
  have hexec := h i
  by_cases hi : i = cpu
  · subst hi
    rw [List.getElem?_set_self hlt, Option.bind_some]
    rcases hsw.resumed with ⟨rfl, hc⟩ | ⟨t, rfl, hc, -⟩
    · rw [hc, resume, hexec, hq, Option.bind_some]
    · rw [hc, resume, update_self]
  · rw [List.getElem?_set_ne (Ne.symm hi), ← hexec]
    cases r with
    | interrupted => rfl
    | context t => exact update_of_ne hi ..

lemma Cores.ExecutesCurrent.spawn (h : m.ExecutesCurrent) {s' : Scheduler}
    (hs : m.sched.spawn t = some s') : Cores.ExecutesCurrent { m with sched := s' } := by
  intro i
  rw [spawn_current hs]
  exact h i

lemma Cores.Step.inv (h : m.Inv) (hs : m.Step m') : m'.Inv := by
  obtain ⟨a, hallowed, ha⟩ := hs
  cases a with
  | registerCpu cpu =>
    cases ha
    refine ⟨h.toInv.registerCpu cpu, ?_⟩
    intro i
    rw [registerCpu_current]
    exact h.executing_eq i
  | idleInit cpu t => exact absurd hallowed id
  | spawn t | unblock t =>
    obtain ⟨s', hs', rfl⟩ := Option.map_eq_some_iff.1 ha
    exact ⟨h.toInv.spawn hallowed hs', h.executing_eq.spawn hs'⟩
  | schedule cpu ctx =>
    obtain ⟨⟨r, s'⟩, hs', rfl⟩ := Option.map_eq_some_iff.1 ha
    obtain ⟨q, q', hq, hqs, hsw⟩ := schedule_spec hs' h.current_notMem
    exact ⟨h.toInv.schedule hs', h.executing_eq.schedule hq hqs hsw⟩
  | blockMark cpu w =>
    obtain ⟨s', hs', rfl⟩ := Option.map_eq_some_iff.1 ha
    refine ⟨h.toInv.blockMark hs', ?_⟩
    intro i
    rw [(blockMark_spec hs').1]
    exact h.executing_eq i
  | dequeue w =>
    cases ha
    exact ⟨⟨h.places_le, h.queued⟩, h.executing_eq⟩

lemma Cores.inv_of_run {ctx : ThreadRef → RegisterFile}
    (h : Relation.ReflTransGen Cores.Step (new ctx) m) : m.Inv := by
  induction h with
  | refl => exact ⟨Scheduler.inv_new ctx, fun i => rfl⟩
  | tail _ hs ih => exact hs.inv ih

lemma Cores.Inv.resumesUnblocked_iff (h : m.Inv) {ctx : RegisterFile} {r : Scheduler.Resumed}
    {s' : Scheduler} (hs : m.sched.schedule cpu ctx = some (r, s')) :
    (∀ t, m.resume cpu r cpu = some t → s'.state t ≠ .blocked) ↔
      ∀ q t, m.sched.queues[cpu]? = some q → q.currentThread = some t →
        m.sched.state t = .blocked → q.threadQueue ≠ [] := by
  obtain ⟨q, q', hq, hqs, hsw⟩ := schedule_spec hs h.current_notMem
  have hexec : m.resume cpu r cpu = q'.currentThread := by
    refine (h.executing_eq.schedule hq hqs hsw).executing ?_
    rw [hqs, List.getElem?_set_self (List.getElem?_eq_some_iff.1 hq).1]
  rw [hexec, hsw.resumes_unblocked_iff]
  constructor
  · intro hfall x t hx
    rw [hq] at hx
    cases hx
    exact hfall t
  · intro hfall t
    exact hfall q t hq

/-- A thread that was just queued must not be executing. -/
lemma Cores.Exclusive.executing_ne {s s' : Scheduler} (h : m.Exclusive) (hm : m.sched = s')
    (hs : s.spawn t = some s') (cpu : Nat) : m.executing cpu ≠ some t := by
  intro hexec
  obtain ⟨q, hq, ht⟩ := spawn_mem_queue hs
  exact h.not_queued cpu t hexec q (hm ▸ hq) ht

/-! ### Threads with two places -/

/-- A thread that is current has no other place. -/
lemma Cores.Exclusive.places_le (h : m.Exclusive) (hexec : m.ExecutesCurrent) {q : LocalScheduler}
    (hq : m.sched.queues[cpu]? = some q) (hc : q.currentThread = some t) :
    m.sched.places t ≤ 1 := by
  have hrun : m.executing cpu = some t := (hexec.executing hq).trans hc
  have hqueue := h.not_queued cpu t hrun q (List.mem_of_getElem? hq)
  have hone : q.threads.count t = 1 := by
    simp [threads, hc, List.count_eq_zero_of_not_mem hqueue]
  have hset : (m.sched.setLocal cpu .new).places t + _ = _ := places_set hq rfl t
  have hnew : LocalScheduler.new.threads.count t = 0 := rfl
  by_contra htwo
  have hpos : 0 < (m.sched.setLocal cpu .new).places t := by omega
  obtain ⟨x, hx, ht⟩ := places_pos_iff.1 hpos
  obtain ⟨j, hj⟩ := List.mem_iff_getElem?.1 hx
  by_cases hjc : j = cpu
  · rw [hjc, setLocal, List.getElem?_set_self (List.getElem?_eq_some_iff.1 hq).1] at hj
    cases hj
    cases ht
  · rw [setLocal, List.getElem?_set_ne (Ne.symm hjc)] at hj
    rcases List.mem_append.1 ht with hcur | hque
    · refine hjc (h.one_cpu j cpu t (.inr ⟨x, hj, by simpa using hcur⟩) (.inl hrun))
    · exact h.not_queued cpu t hrun x (List.mem_of_getElem? hj) hque

/-- The CPU of a queued thread is scheduled: the thread at the front is current afterwards, the
others move up, and a thread that was queued keeps its places. -/
lemma Cores.Exclusive.exists_step (h : m.Exclusive) (hexec : m.ExecutesCurrent)
    {q : LocalScheduler} (hq : m.sched.queues[cpu]? = some q) {u : ThreadRef}
    {rest : List ThreadRef} (hqueue : q.threadQueue = u :: rest) (ht : t ∈ q.threadQueue) :
    ∃ m' q' more, m.Step m' ∧ m'.ExecutesCurrent ∧ m'.sched.queues[cpu]? = some q' ∧
      q'.currentThread = some u ∧ q'.threadQueue = rest ++ more ∧
      m'.sched.places t = m.sched.places t := by
  have hnotMem : ∀ x ∈ m.sched.queues, ∀ u ∈ x.threadQueue, x.currentThread ≠ some u := by
    intro x hx u hu hc
    obtain ⟨j, hj⟩ := List.mem_iff_getElem?.1 hx
    exact h.not_queued j u ((hexec.executing hj).trans hc) x hx hu
  obtain ⟨⟨r, s'⟩, hs⟩ := Option.isSome_iff_exists.1 (isSome_schedule hq .zero)
  obtain ⟨x, q', hx, hqs, hsw⟩ := schedule_spec hs hnotMem
  rw [hq] at hx
  cases hx
  obtain ⟨hc, more, hmore⟩ := hsw.pops hqueue
  refine ⟨⟨s', m.resume cpu r⟩, q', more, ⟨.schedule cpu .zero, ?_, ?_⟩,
    hexec.schedule hq hqs hsw, ?_, hc, hmore, ?_⟩
  · intro x _ hx _ _
    rw [hq] at hx
    cases hx
    simp [hqueue]
  · rw [act, hs]
    rfl
  · rw [hqs, List.getElem?_set_self (List.getElem?_eq_some_iff.1 hq).1]
  · have hcount := hsw.count t
    have hset := places_set hq hqs t
    have hne := hnotMem q (List.mem_of_getElem? hq) t ht
    rw [if_neg (fun hdrop => hne hdrop.1)] at hcount
    change s'.places t = m.sched.places t
    omega

/-- A thread with two places that is queued comes to be current while it has another place: its
CPU is scheduled until the thread is at the front. -/
lemma Cores.places_le_of_queued (ahead : List ThreadRef) {behind : List ThreadRef}
    {q : LocalScheduler} (hall : ∀ n, Relation.ReflTransGen Cores.Step m n → n.Exclusive)
    (hexec : m.ExecutesCurrent) (hq : m.sched.queues[cpu]? = some q)
    (hqueue : q.threadQueue = ahead ++ t :: behind) : m.sched.places t ≤ 1 := by
  -- on the threads ahead of it
  induction ahead generalizing m q behind with
  | nil =>
    obtain ⟨m', q', more, hstep, hexec', hq', hc, -, hplaces⟩ :=
      (hall m .refl).exists_step hexec hq hqueue (t := t) (by simp [hqueue])
    rw [← hplaces]
    exact (hall m' (.single hstep)).places_le hexec' hq' hc
  | cons u ahead ih =>
    rw [List.cons_append] at hqueue
    obtain ⟨m', q', more, hstep, hexec', hq', -, hqueue', hplaces⟩ :=
      (hall m .refl).exists_step hexec hq hqueue (t := t) (by simp [hqueue])
    rw [List.append_assoc, List.cons_append] at hqueue'
    rw [← hplaces]
    exact ih (fun n hn => hall n (.head hstep hn)) hexec' hq' hqueue'

/-- Queueing a thread that is somewhere already is found out later, if not at once. -/
lemma Cores.ExecutesCurrent.places_eq_zero (h : m.ExecutesCurrent) {s' : Scheduler}
    (hs : m.sched.spawn t = some s')
    (hall : ∀ n, Relation.ReflTransGen Cores.Step { m with sched := s' } n → n.Exclusive) :
    m.sched.places t = 0 := by
  obtain ⟨x, hx, ht⟩ := spawn_mem_queue hs
  obtain ⟨i, hi⟩ := List.mem_iff_getElem?.1 hx
  obtain ⟨ahead, behind, hqueue⟩ := List.append_of_mem ht
  have hle := places_le_of_queued ahead hall (h.spawn hs) hi hqueue
  have hplaces : s'.places t = _ := spawn_places hs t
  rw [if_pos rfl] at hplaces
  change s'.places t ≤ 1 at hle
  omega

/-- In every interleaving of allowed actions, each thread is on one CPU at most and is not queued
while it is executed. The next action keeps this up, whatever allowed actions follow, and does not
resume a blocked thread, exactly if it is allowed as well. -/
theorem Cores.exclusive_iff_allowed {ctx : ThreadRef → RegisterFile}
    (h : Relation.ReflTransGen Cores.Step (new ctx) m) :
    m.Exclusive ∧ ∀ a m', m.act a = some m' →
      ((∀ n, Relation.ReflTransGen Cores.Step m' n → n.Exclusive) ∧ a.ResumesUnblocked m' ↔
        a.Allowed m) := by
  have hinv := inv_of_run h
  refine ⟨hinv.exclusive, ?_⟩
  intro a m' ha
  constructor
  · rintro ⟨hall, hresumes⟩
    cases a with
    | registerCpu | blockMark | dequeue => trivial
    | idleInit cpu t =>
      obtain ⟨s', hs', rfl⟩ := Option.map_eq_some_iff.1 ha
      exact (hall _ .refl).executing_ne rfl hs' cpu (update_self ..)
    | schedule cpu ctx =>
      obtain ⟨⟨r, s'⟩, hs', rfl⟩ := Option.map_eq_some_iff.1 ha
      exact (hinv.resumesUnblocked_iff hs').1 hresumes
    | spawn t | unblock t =>
      obtain ⟨s', hs', rfl⟩ := Option.map_eq_some_iff.1 ha
      exact hinv.executing_eq.places_eq_zero hs' hall
  · intro hallowed
    have hstep : m.Step m' := ⟨a, hallowed, ha⟩
    refine ⟨fun n hn => (inv_of_run ((h.tail hstep).trans hn)).exclusive, ?_⟩
    cases a with
    | schedule cpu ctx =>
      obtain ⟨⟨r, s'⟩, hs', rfl⟩ := Option.map_eq_some_iff.1 ha
      exact (hinv.resumesUnblocked_iff hs').2 hallowed
    | registerCpu | idleInit | spawn | blockMark | unblock | dequeue => trivial

/-! ### Concrete interleavings -/

def Cores.acts : List Action → Cores → Option Cores
  | [], m      => some m
  | a :: as, m => (m.act a).bind (acts as)

/-- Two threads on one CPU: the first runs, blocks and yields, and is unblocked once the second
one runs. -/
theorem Cores.exclusive_two_threads : ∃ m, acts
    [.registerCpu 0, .spawn 0, .spawn 1, .schedule 0 .zero, .blockMark 0 0,
      .schedule 0 .zero, .unblock 0] (new fun _ => .zero) = some m ∧ m.Exclusive := by
  have hrun : ∃ m, acts
      [.registerCpu 0, .spawn 0, .spawn 1, .schedule 0 .zero, .blockMark 0 0,
        .schedule 0 .zero, .unblock 0] (new fun _ => .zero) = some m ∧
      Relation.ReflTransGen Cores.Step (new fun _ => .zero) m := by
    refine ⟨_, rfl, ?_⟩
    refine .head ⟨.registerCpu 0, trivial, rfl⟩ ?_
    refine .head ⟨.spawn 0, rfl, rfl⟩ ?_
    refine .head ⟨.spawn 1, rfl, rfl⟩ ?_
    refine .head ⟨.schedule 0 .zero, ?_, rfl⟩ ?_
    · rintro q t ⟨⟩ ⟨⟩
    refine .head ⟨.blockMark 0 0, trivial, rfl⟩ ?_
    refine .head ⟨.schedule 0 .zero, ?_, rfl⟩ ?_
    · rintro q t ⟨⟩ - -
      decide
    exact .single ⟨.unblock 0, rfl, rfl⟩
  obtain ⟨m, hm, hrun⟩ := hrun
  exact ⟨m, hm, (exclusive_iff_allowed hrun).1⟩

/-- CPU 1 executes its idle thread, which `idle_init` queued on CPU 0, and CPU 0 takes it from
there. A thread that is unblocked before its yield is queued while it is executed. A lone thread
is resumed by its own yield although it is blocked. A thread that is unblocked while it is queued
is executed by two CPUs. -/
theorem Cores.not_exclusive :
    (∃ m, acts [.registerCpu 1, .idleInit 1 0, .schedule 0 .zero]
        (new fun _ => .zero) = some m ∧
      m.executing 0 = some 0 ∧ m.executing 1 = some 0) ∧
    (∃ m, acts [.registerCpu 0, .spawn 0, .schedule 0 .zero, .blockMark 0 0, .unblock 0]
        (new fun _ => .zero) = some m ∧
      m.executing 0 = some 0 ∧ ∃ q ∈ m.sched.queues, 0 ∈ q.threadQueue) ∧
    (∃ m, acts [.registerCpu 0, .spawn 0, .schedule 0 .zero, .blockMark 0 0,
        .schedule 0 .zero] (new fun _ => .zero) = some m ∧
      m.executing 0 = some 0 ∧ m.sched.state 0 = .blocked) ∧
    (∃ m, acts [.registerCpu 1, .spawn 0, .unblock 0, .schedule 0 .zero, .schedule 1 .zero]
        (new fun _ => .zero) = some m ∧
      m.executing 0 = some 0 ∧ m.executing 1 = some 0) := by
  refine ⟨⟨_, rfl, by decide, by decide⟩, ⟨_, rfl, by decide, by decide⟩,
    ⟨_, rfl, by decide, ?_⟩, ⟨_, rfl, by decide, by decide⟩⟩
  decide

end Mars.Sched
