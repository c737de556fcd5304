import Mars.Sched.Places
import Mathlib.Logic.Relation

/-!
# Thread conservation

Every thread that can run should be held in exactly one place, with the state that belongs to it.
`schedule` keeps this up only as long as a CPU that has a current thread also has another one to
switch to: a lone running thread is put back as `ready` and never becomes `running` again, so the
next call drops it. `spawn` and `unblock` keep it up only for threads that are nowhere yet.
-/

namespace Mars.Sched

open Function Scheduler

/-- What the `svc` of `yield_now` does. The kernel leaves the handler of synchronous exceptions
at its default, which panics. -/
inductive Svc where
  | panics
  | schedules
deriving DecidableEq, Repr

def Scheduler.blockCurrent (svc : Svc) (s : Scheduler) (cpu : Nat) (w : WaitQueueRef)
    (ctx : RegisterFile) : Option Scheduler :=
  match s.blockMark cpu w, svc with
  | none, _            => none
  | some _, .panics    => none
  | some s, .schedules => (s.schedule cpu ctx).map Prod.snd

/-- A scheduler and the threads that were passed to `spawn`, or `unblock`, so far. -/
structure Machine where
  sched : Scheduler
  spawned : List ThreadRef

def Machine.new (ctx : ThreadRef → RegisterFile) : Machine :=
  { sched := Scheduler.new ctx, spawned := [] }

inductive Call where
  | registerCpu (cpu : Nat)
  | spawn (t : ThreadRef)
  | schedule (cpu : Nat) (ctx : RegisterFile)
  | blockCurrent (cpu : Nat) (w : WaitQueueRef) (ctx : RegisterFile)
  | unblock (t : ThreadRef)
  | dequeue (w : WaitQueueRef)

def Machine.call (svc : Svc) (m : Machine) : Call → Option Machine
  | .registerCpu cpu        => some { m with sched := m.sched.registerCpu cpu }
  | .spawn t                =>
    (m.sched.spawn t).map fun s => { sched := s, spawned := t :: m.spawned }
  | .schedule cpu ctx       => (m.sched.schedule cpu ctx).map fun r => { m with sched := r.2 }
  | .blockCurrent cpu w ctx =>
    (m.sched.blockCurrent svc cpu w ctx).map fun s => { m with sched := s }
  | .unblock t              =>
    (m.sched.unblock t).map fun s => { sched := s, spawned := t :: m.spawned }
  | .dequeue w              => some { m with sched := m.sched.dequeue w }

/-- Every runnable thread has exactly one place, current threads are running and queued ones are
ready. -/
structure Machine.Conserved (m : Machine) : Prop where
  places_eq : ∀ t ∈ m.spawned, m.sched.state t ≠ .blocked → m.sched.state t ≠ .dead →
    m.sched.places t = 1
  current : ∀ q ∈ m.sched.queues, ∀ t, q.currentThread = some t → m.sched.state t = .running
  queued : ∀ q ∈ m.sched.queues, ∀ t ∈ q.threadQueue, m.sched.state t = .ready

/-- A CPU that has to switch away from a thread has another one waiting, and the threads that are
queued are nowhere yet. -/
def Call.HasNext (m : Machine) : Call → Prop
  | .schedule cpu _ | .blockCurrent cpu _ _ =>
    ∀ q, m.sched.queues[cpu]? = some q → q.currentThread = none ∨ q.threadQueue ≠ []
  | .spawn t | .unblock t => m.sched.places t = 0
  | .registerCpu _ | .dequeue _ => True

/-- A call that meets the condition. -/
def Machine.Step (svc : Svc) (m m' : Machine) : Prop :=
  ∃ c : Call, c.HasNext m ∧ m.call svc c = some m'

variable {svc : Svc} {m m' : Machine} {s s' : Scheduler} {cpu : Nat} {q q' : LocalScheduler}
  {spawned : List ThreadRef}

namespace Scheduler

/-- The invariant of conservation. While a CPU is inside `block_current` its thread is already
blocked. -/
structure Kept (s : Scheduler) (spawned : List ThreadRef) (blocking : Option Nat) : Prop
    extends s.Inv where
  places_eq : ∀ t ∈ spawned, s.state t ≠ .blocked → s.state t ≠ .dead → s.places t = 1
  current : ∀ i q, s.queues[i]? = some q → ∀ t, q.currentThread = some t →
    s.state t = .running ∨ blocking = some i ∧ s.state t = .blocked

variable {state state' : ThreadRef → ThreadState} {r : Resumed} {t : ThreadRef} {b : Option Nat}

/-- With a next thread, a switch ends in a running thread or in none. -/
lemma Switch.current_running (h : Switch state q r state' q')
    (hnext : q.currentThread = none ∨ q.threadQueue ≠ []) (ht : q'.currentThread = some t) :
    state' t = .running := by
  cases h with
  | idle => cases ht
  | start | preempt | replace =>
    cases ht
    exact update_self ..
  | alone hc hq | stay hc hq =>
    rcases hnext with hnone | hne
    · rw [hc] at hnone
      cases hnone
    · exact absurd hq hne

/-- Without one, the CPU goes on with a thread that is not running. -/
lemma Switch.current_stuck (h : Switch state q r state' q') (hc : q.currentThread = some t)
    (hq : q.threadQueue = []) : q'.currentThread = some t ∧ state' t ≠ .running := by
  cases h with
  | idle hc' | start hc' => simp [hc] at hc'
  | alone hc' =>
    rw [hc] at hc'
    cases hc'
    exact ⟨rfl, by simp⟩
  | preempt _ hq' | replace _ hq' => simp [hq] at hq'
  | stay hc' _ hrun =>
    rw [hc] at hc'
    cases hc'
    exact ⟨rfl, hrun⟩

/-- A thread that was not running keeps its state when the CPU leaves it. -/
lemma Switch.state_dropped (h : Switch state q r state' q') (hn : q.threads.Nodup)
    (hc : q.currentThread = some t) (hrun : state t ≠ .running) : state' t = state t := by
  cases h with
  | idle hc' | start hc' => simp [hc] at hc'
  | alone hc' _ hrun' | preempt hc' _ hrun' =>
    rw [hc] at hc'
    cases hc'
    exact absurd hrun' hrun
  | stay => rfl
  | replace hc' hq' =>
    simp only [LocalScheduler.threads, hc, hq'] at hn
    rw [update_of_ne]
    grind

lemma Kept.schedule (h : s.Kept spawned b) (hb : b = none ∨ b = some cpu) {ctx : RegisterFile}
    (hnext : ∀ q, s.queues[cpu]? = some q → q.currentThread = none ∨ q.threadQueue ≠ [])
    (hs : s.schedule cpu ctx = some (r, s')) : s'.Kept spawned none := by
  obtain ⟨q, q', hq, hqs, hsw⟩ := schedule_spec hs h.current_notMem
  have hmem := List.mem_of_getElem? hq
  refine ⟨h.toInv.schedule hs, ?_, ?_⟩
  · intro t ht hblocked hdead
    have hset := places_set hq hqs t
    have hcount := hsw.count t
    by_cases htq : t ∈ q.threads
    · have hone : s.places t = 1 := by
        have hpos := places_pos_iff.2 ⟨q, hmem, htq⟩
        have hle := h.places_le t
        omega
      have hkept : ¬ (q.currentThread = some t ∧ s.state t ≠ .running ∧ q.threadQueue ≠ []) := by
        rintro ⟨hc, hrun, -⟩
        rcases h.current cpu q hq t hc with hst | ⟨-, hst⟩
        · exact hrun hst
        · exact hblocked ((hsw.state_dropped (h.nodup hmem) hc hrun).trans hst)
      rw [if_neg hkept] at hcount
      omega
    · have hst := hsw.state_eq htq
      have hone := h.places_eq t ht (hst ▸ hblocked) (hst ▸ hdead)
      have hkept : ¬ (q.currentThread = some t ∧ s.state t ≠ .running ∧ q.threadQueue ≠ []) := by
        rintro ⟨hc, -⟩
        exact htq (mem_threads_of_current hc)
      rw [if_neg hkept] at hcount
      omega
  · intro i x hx t hc
    refine Or.inl ?_
    rw [hqs] at hx
    by_cases hi : i = cpu
    · rw [hi, List.getElem?_set_self (List.getElem?_eq_some_iff.1 hq).1] at hx
      cases hx
      exact hsw.current_running (hnext q hq) hc
    · rw [List.getElem?_set_ne (Ne.symm hi)] at hx
      rw [h.switch_frame hq hsw hx hi t (mem_threads_of_current hc)]
      rcases h.current i x hx t hc with hst | ⟨hbi, -⟩
      · exact hst
      · rcases hb with rfl | rfl
        · cases hbi
        · cases hbi
          exact absurd rfl hi

lemma Kept.blockMark (h : s.Kept spawned none) {w : WaitQueueRef}
    (hs : s.blockMark cpu w = some s') : s'.Kept spawned (some cpu) := by
  obtain ⟨hqs, q, hq, hcase⟩ := blockMark_spec hs
  have hplaces : ∀ t, s'.places t = s.places t := by
    intro t
    rw [places, places, hqs]
  refine ⟨h.toInv.blockMark hs, ?_, ?_⟩
  · intro t ht hblocked hdead
    rw [hplaces]
    rcases hcase with ⟨-, hst⟩ | ⟨p, hc, hst⟩
    · rw [hst] at hblocked hdead
      exact h.places_eq t ht hblocked hdead
    · by_cases htp : t = p
      · rw [hst, htp, update_self] at hblocked
        exact absurd rfl hblocked
      · rw [hst, update_of_ne htp] at hblocked hdead
        exact h.places_eq t ht hblocked hdead
  · intro i x hx t hc
    rw [hqs] at hx
    have hold : s.state t = .running := by
      rcases h.current i x hx t hc with hst | ⟨hnone, -⟩
      · exact hst
      · cases hnone
    rcases hcase with ⟨-, hst⟩ | ⟨p, hcp, hst⟩
    · exact Or.inl (hst ▸ hold)
    · by_cases hi : i = cpu
      · rw [hi, hq] at hx
        cases hx
        rw [hcp] at hc
        cases hc
        exact Or.inr ⟨hi ▸ rfl, by rw [hst, update_self]⟩
      · refine Or.inl ?_
        have hne : t ≠ p := by
          rintro rfl
          exact h.notMem_threads hq hx hi (mem_threads_of_current hc) (mem_threads_of_current hcp)
        rw [hst, update_of_ne hne]
        exact hold

/-- A thread that is not on any CPU can be queued. -/
lemma Kept.spawn (h : s.Kept spawned none) (ht : s.places t = 0) (hs : s.spawn t = some s') :
    s'.Kept (t :: spawned) none := by
  obtain ⟨hstate, cpu, q, hq, hqs⟩ := spawn_spec hs
  refine ⟨h.toInv.spawn ht hs, ?_, ?_⟩
  · intro u hu hblocked hdead
    rw [spawn_places hs]
    by_cases hut : u = t
    · rw [if_pos hut, hut, ht]
    · rw [hstate, update_of_ne hut] at hblocked hdead
      have hmem : u ∈ spawned := by simpa [hut] using hu
      rw [if_neg hut, h.places_eq u hmem hblocked hdead]
  · intro i x hx u hc
    have hold : ∃ y, s.queues[i]? = some y ∧ y.currentThread = some u := by
      rw [hqs] at hx
      by_cases hi : i = cpu
      · rw [hi, List.getElem?_set_self (List.getElem?_eq_some_iff.1 hq).1] at hx
        cases hx
        exact ⟨q, hi ▸ hq, hc⟩
      · rw [List.getElem?_set_ne (Ne.symm hi)] at hx
        exact ⟨x, hx, hc⟩
    obtain ⟨y, hy, hyc⟩ := hold
    have hne : u ≠ t := by
      rintro rfl
      have := places_pos_iff.2 ⟨y, List.mem_of_getElem? hy, mem_threads_of_current hyc⟩
      omega
    rw [hstate, update_of_ne hne]
    exact h.current i y hy u hyc

lemma Kept.registerCpu (h : s.Kept spawned none) (cpu : Nat) :
    (s.registerCpu cpu).Kept spawned none := by
  have hstate : (s.registerCpu cpu).state = s.state := registerCpu_state
  refine ⟨h.toInv.registerCpu cpu, ?_, ?_⟩
  · intro t ht
    rw [hstate, registerCpu_places]
    exact h.places_eq t ht
  · intro i x hx t hc
    rw [hstate]
    rcases mem_registerCpu (List.mem_of_getElem? hx) with hmem | rfl
    · obtain ⟨j, hj⟩ := List.mem_iff_getElem?.1 hmem
      rcases h.current j x hj t hc with hst | ⟨hnone, -⟩
      · exact Or.inl hst
      · cases hnone
    · cases hc

end Scheduler

/-! ### Histories -/

lemma Machine.conserved_of_kept (h : m.sched.Kept m.spawned none) : m.Conserved where
  places_eq := h.places_eq
  queued := h.queued
  current := by
    intro q hq t hc
    obtain ⟨i, hi⟩ := List.mem_iff_getElem?.1 hq
    rcases h.current i q hi t hc with hst | ⟨hnone, -⟩
    · exact hst
    · cases hnone

lemma Scheduler.blockCurrent_spec {w : WaitQueueRef} {ctx : RegisterFile}
    (h : s.blockCurrent svc cpu w ctx = some s') :
    ∃ s₁ r, s.blockMark cpu w = some s₁ ∧ s₁.schedule cpu ctx = some (r, s') := by
  unfold blockCurrent at h
  split at h
  case h_1 | h_2 => cases h
  case h_3 s₁ hs₁ =>
    obtain ⟨⟨r, s₂⟩, hs₂, rfl⟩ := Option.map_eq_some_iff.1 h
    exact ⟨s₁, r, hs₁, hs₂⟩

lemma Machine.Step.kept (h : m.sched.Kept m.spawned none) (hs : m.Step svc m') :
    m'.sched.Kept m'.spawned none := by
  obtain ⟨c, hnext, hc⟩ := hs
  cases c with
  | registerCpu cpu =>
    cases hc
    exact h.registerCpu cpu
  | spawn t | unblock t =>
    obtain ⟨s', hs', rfl⟩ := Option.map_eq_some_iff.1 hc
    exact h.spawn hnext hs'
  | schedule cpu ctx =>
    obtain ⟨⟨r, s'⟩, hs', rfl⟩ := Option.map_eq_some_iff.1 hc
    exact h.schedule (Or.inl rfl) hnext hs'
  | blockCurrent cpu w ctx =>
    obtain ⟨s', hs', rfl⟩ := Option.map_eq_some_iff.1 hc
    obtain ⟨s₁, r, hmark, hsched⟩ := blockCurrent_spec hs'
    have hqs := (blockMark_spec hmark).1
    exact (h.blockMark hmark).schedule (Or.inr rfl) (hqs ▸ hnext) hsched
  | dequeue w =>
    cases hc
    exact ⟨⟨h.places_le, h.queued⟩, h.places_eq, h.current⟩

lemma Machine.kept_of_run {ctx : ThreadRef → RegisterFile}
    (h : Relation.ReflTransGen (Machine.Step svc) (new ctx) m) :
    m.sched.Kept m.spawned none := by
  induction h with
  | refl =>
    refine ⟨Scheduler.inv_new ctx, ?_, ?_⟩
    · intro t ht
      cases ht
    · intro i q hq
      cases hq
  | tail _ hs ih => exact hs.kept ih

/-- Scheduling a CPU whose only thread is the current one breaks conservation at once. -/
lemma Scheduler.not_conserved_of_stuck (h : s.Inv) {ctx : RegisterFile} {r : Resumed}
    (hs : s.schedule cpu ctx = some (r, s')) (hq : s.queues[cpu]? = some q)
    (hstuck : ¬ (q.currentThread = none ∨ q.threadQueue ≠ [])) :
    ¬ Machine.Conserved ⟨s', spawned⟩ := by
  intro hcons
  obtain ⟨x, q', hx, hqs, hsw⟩ := schedule_spec hs h.current_notMem
  rw [hq] at hx
  cases hx
  obtain ⟨hcur, hempty⟩ := not_or.1 hstuck
  obtain ⟨t, ht⟩ := Option.ne_none_iff_exists'.1 hcur
  obtain ⟨ht', hrun⟩ := hsw.current_stuck ht (Decidable.not_not.1 hempty)
  refine hrun (hcons.current q' ?_ t ht')
  rw [hqs]
  exact List.mem_set (List.getElem?_eq_some_iff.1 hq).1 q'

/-- Queueing a thread that is somewhere already gives it a second place. -/
lemma Scheduler.places_eq_zero_of_spawn {t : ThreadRef} (hs : s.spawn t = some s')
    (hcons : Machine.Conserved ⟨s', t :: spawned⟩) : s.places t = 0 := by
  have hready : s'.state t = .ready := by rw [(spawn_spec hs).1, update_self]
  have hone := hcons.places_eq t (.head _) (by simp [hready]) (by simp [hready])
  have hplaces := spawn_places hs t
  rw [if_pos rfl] at hplaces
  exact Nat.succ.inj (hplaces.symm.trans hone)

/-- In every history of calls that meet the condition the threads are conserved, and the next call
conserves them exactly if it meets the condition as well. -/
theorem Machine.conserved_iff_hasNext {ctx : ThreadRef → RegisterFile}
    (h : Relation.ReflTransGen (Machine.Step svc) (new ctx) m) :
    m.Conserved ∧ ∀ c m', m.call svc c = some m' → (m'.Conserved ↔ c.HasNext m) := by
  have hkept := kept_of_run h
  refine ⟨conserved_of_kept hkept, ?_⟩
  intro c m' hc
  constructor
  · intro hcons
    cases c with
    | registerCpu | dequeue => trivial
    | spawn t | unblock t =>
      obtain ⟨s', hs', rfl⟩ := Option.map_eq_some_iff.1 hc
      exact places_eq_zero_of_spawn hs' hcons
    | schedule cpu ctx =>
      intro q hq
      obtain ⟨⟨r, s'⟩, hs', rfl⟩ := Option.map_eq_some_iff.1 hc
      by_contra hstuck
      exact not_conserved_of_stuck hkept.toInv hs' hq hstuck hcons
    | blockCurrent cpu w ctx =>
      intro q hq
      obtain ⟨s', hs', rfl⟩ := Option.map_eq_some_iff.1 hc
      obtain ⟨s₁, r, hmark, hsched⟩ := blockCurrent_spec hs'
      have hqs := (blockMark_spec hmark).1
      by_contra hstuck
      exact not_conserved_of_stuck (hkept.toInv.blockMark hmark) hsched (hqs ▸ hq)
        hstuck hcons
  · intro hnext
    exact conserved_of_kept (Machine.Step.kept hkept ⟨c, hnext, hc⟩)

/-! ### Concrete histories -/

def Machine.calls (svc : Svc) : List Call → Machine → Option Machine
  | [], m      => some m
  | c :: cs, m => (m.call svc c).bind (calls svc cs)

/-- Of two threads on one CPU, the first is started, blocks and is unblocked. -/
theorem Machine.conserved_two_threads : ∃ m, calls .schedules
    [.registerCpu 0, .spawn 0, .spawn 1, .schedule 0 .zero, .blockCurrent 0 0 .zero, .unblock 0]
    (new fun _ => .zero) = some m ∧ m.Conserved := by
  have hrun : ∃ m, calls .schedules
      [.registerCpu 0, .spawn 0, .spawn 1, .schedule 0 .zero, .blockCurrent 0 0 .zero,
        .unblock 0] (new fun _ => .zero) = some m ∧
      Relation.ReflTransGen (Machine.Step .schedules) (new fun _ => .zero) m := by
    refine ⟨_, rfl, ?_⟩
    refine .head ⟨.registerCpu 0, trivial, rfl⟩ ?_
    refine .head ⟨.spawn 0, rfl, rfl⟩ ?_
    refine .head ⟨.spawn 1, rfl, rfl⟩ ?_
    refine .head ⟨.schedule 0 .zero, ?_, rfl⟩ ?_
    · rintro q ⟨⟩
      exact Or.inl rfl
    refine .head ⟨.blockCurrent 0 0 .zero, ?_, rfl⟩ ?_
    · rintro q ⟨⟩
      exact Or.inr (by decide)
    exact .single ⟨.unblock 0, rfl, rfl⟩
  obtain ⟨m, hm, hrun⟩ := hrun
  exact ⟨m, hm, (conserved_iff_hasNext hrun).1⟩

/-- Thread 0 is scheduled twice on its own. The first call runs it, the second leaves it current
but `ready`, and once thread 1 has arrived it is dropped: `ready`, but in no queue. A thread that
is unblocked while it is queued is queued twice. -/
theorem Machine.lone_thread_lost :
    (∃ m, calls .panics [.registerCpu 0, .spawn 0, .schedule 0 .zero, .schedule 0 .zero,
        .spawn 1, .schedule 0 .zero] (new fun _ => .zero) = some m ∧
      0 ∈ m.spawned ∧ m.sched.state 0 = .ready ∧ m.sched.places 0 = 0) ∧
    (∃ m, calls .panics [.registerCpu 0, .spawn 0, .unblock 0]
        (new fun _ => .zero) = some m ∧ m.sched.places 0 = 2) :=
  ⟨⟨_, rfl, by decide, by decide, by decide⟩, ⟨_, rfl, by decide⟩⟩

end Mars.Sched
