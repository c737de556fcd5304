import Mars.Sched.Basic
import Mathlib.Data.List.Nodup

/-!
# What the scheduler operations do

For each operation, its effect on the states of threads and on the number of places that hold
them. Conservation and exclusion both rest on these facts only.
-/

namespace Mars.Sched.Scheduler

open Function LocalScheduler

variable {s s' : Scheduler} {cpu : Nat} {q q' : LocalScheduler} {t u : ThreadRef}

/-! ### Counting places -/

variable {i : Nat} {x : LocalScheduler}

/-- Replacing the queue of one CPU moves the count by the difference of the two queues. -/
lemma places_set (hq : s.queues[cpu]? = some q) (hs : s'.queues = s.queues.set cpu q')
    (t : ThreadRef) : s'.places t + q.threads.count t = s.places t + q'.threads.count t := by
  obtain ⟨hlt, rfl⟩ := List.getElem?_eq_some_iff.1 hq
  obtain ⟨l₁, l₂, hold, -, hnew⟩ : ∃ l₁ l₂, s.queues = l₁ ++ s.queues[cpu] :: l₂ ∧
      l₁.length = cpu ∧ s.queues.set cpu q' = l₁ ++ q' :: l₂ := List.exists_of_set hlt
  have h₁ : s.places t = ((l₁ ++ s.queues[cpu] :: l₂).flatMap threads).count t := by
    rw [places, ← hold]
  rw [h₁, places, hs, hnew]
  simp only [List.flatMap_append, List.flatMap_cons, List.count_append]
  omega

lemma count_threads_le_places (hq : q ∈ s.queues) (t : ThreadRef) :
    q.threads.count t ≤ s.places t := by
  obtain ⟨l₁, l₂, hl⟩ := List.append_of_mem hq
  rw [places, hl]
  simp only [List.flatMap_append, List.flatMap_cons, List.count_append]
  omega

lemma count_add_count_le_places (hq : s.queues[cpu]? = some q) (hx : s.queues[i]? = some x)
    (hne : i ≠ cpu) (t : ThreadRef) : x.threads.count t + q.threads.count t ≤ s.places t := by
  have hset : (s.setLocal cpu .new).places t + _ = _ := places_set hq rfl t
  have hmem : x ∈ (s.setLocal cpu .new).queues := by
    refine List.mem_of_getElem? (i := i) ?_
    rw [setLocal, List.getElem?_set_ne hne.symm, hx]
  have hle := count_threads_le_places hmem t
  have hnew : LocalScheduler.new.threads.count t = 0 := rfl
  omega

lemma places_pos_iff : 0 < s.places t ↔ ∃ q ∈ s.queues, t ∈ q.threads := by
  rw [places, List.count_pos_iff, List.mem_flatMap]

/-! ### Effects -/

variable {r : Resumed} {state' state : ThreadRef → ThreadState}

lemma registerCpu_places (t : ThreadRef) : (s.registerCpu cpu).places t = s.places t := by
  rw [registerCpu]
  split_ifs
  · have hnew : (List.replicate (cpu + 1 - s.queues.length) LocalScheduler.new).flatMap
        LocalScheduler.threads = [] := by
      rw [List.flatMap_eq_nil_iff]
      intro x hx
      rw [List.eq_of_mem_replicate hx]
      rfl
    simp only [places, List.flatMap_append, hnew, List.append_nil]
  · rfl

lemma registerCpu_state : (s.registerCpu cpu).state = s.state := by
  rw [registerCpu]
  split_ifs <;> rfl

/-- A CPU of the scheduler after a registration is an old one or holds nothing. -/
lemma mem_registerCpu (h : q ∈ (s.registerCpu cpu).queues) :
    q ∈ s.queues ∨ q = LocalScheduler.new := by
  rw [registerCpu] at h
  split_ifs at h
  · rcases List.mem_append.1 h with h | h
    · exact .inl h
    · exact .inr (List.eq_of_mem_replicate h)
  · exact .inl h

/-- `spawn` makes a thread ready and puts it at the end of one queue. -/
lemma spawn_spec (h : s.spawn t = some s') :
    s'.state = update s.state t .ready ∧
      ∃ cpu q, s.queues[cpu]? = some q ∧
        s'.queues = s.queues.set cpu { q with threadQueue := q.threadQueue ++ [t] } := by
  simp only [spawn] at h
  split at h
  case h_1 => cases h
  case h_2 q hq =>
    cases h
    exact ⟨rfl, _, q, hq, rfl⟩

lemma spawn_places (h : s.spawn t = some s') (u : ThreadRef) :
    s'.places u = s.places u + if u = t then 1 else 0 := by
  obtain ⟨-, cpu, q, hq, hqs⟩ := spawn_spec h
  have hplaces := places_set hq hqs u
  simp only [threads, List.count_append, List.count_singleton, beq_iff_eq] at hplaces
  split_ifs at hplaces ⊢ <;> grind

/-- The ways a CPU can go from one thread to the next, given the states of the threads. The
indices are the returned register file, the new states and the new queue. -/
inductive Switch (state : ThreadRef → ThreadState) (q : LocalScheduler) :
    Resumed → (ThreadRef → ThreadState) → LocalScheduler → Prop where
  /-- There is nothing to run. -/
  | idle (hc : q.currentThread = none) (hq : q.threadQueue = []) :
      Switch state q .interrupted state ⟨[], none⟩
  /-- The CPU had no thread and starts one. -/
  | start {next : ThreadRef} {rest : List ThreadRef} (hc : q.currentThread = none)
      (hq : q.threadQueue = next :: rest) :
      Switch state q (.context next) (update state next .running) ⟨rest, some next⟩
  /-- The only thread is put into the queue and taken out again. -/
  | alone {prev : ThreadRef} (hc : q.currentThread = some prev) (hq : q.threadQueue = [])
      (hrun : state prev = .running) :
      Switch state q .interrupted (update state prev .ready) ⟨[], some prev⟩
  /-- A running thread makes room for the next one. -/
  | preempt {prev next : ThreadRef} {rest : List ThreadRef} (hc : q.currentThread = some prev)
      (hq : q.threadQueue = next :: rest) (hrun : state prev = .running) :
      Switch state q (.context next)
        (update (update state prev .ready) next .running)
        ⟨rest ++ [prev], some next⟩
  /-- The previous thread was not running and is continued all the same. -/
  | stay {prev : ThreadRef} (hc : q.currentThread = some prev) (hq : q.threadQueue = [])
      (hrun : state prev ≠ .running) : Switch state q .interrupted state ⟨[], some prev⟩
  /-- The previous thread was not running and is dropped. -/
  | replace {prev next : ThreadRef} {rest : List ThreadRef} (hc : q.currentThread = some prev)
      (hq : q.threadQueue = next :: rest) (hrun : state prev ≠ .running) :
      Switch state q (.context next) (update state next .running) ⟨rest, some next⟩

/-- `schedule` switches the queue of its CPU, provided no thread is at once current and queued
there. -/
lemma schedule_spec {ctx : RegisterFile} (h : s.schedule cpu ctx = some (r, s'))
    (hne : ∀ q ∈ s.queues, ∀ t ∈ q.threadQueue, q.currentThread ≠ some t) :
    ∃ q q', s.queues[cpu]? = some q ∧ s'.queues = s.queues.set cpu q' ∧
      Switch s.state q r s'.state q' := by
  simp only [schedule] at h
  split at h
  case h_1 => cases h
  case h_2 q hq =>
    have hmem := List.mem_of_getElem? hq
    refine ⟨q, ?_⟩
    obtain ⟨queue, cur⟩ := q
    cases cur with
    | none =>
      cases queue with
      | nil =>
        cases h
        exact ⟨_, hq, rfl, .idle rfl rfl⟩
      | cons next rest =>
        cases h
        exact ⟨_, hq, rfl, .start rfl rfl⟩
    | some prev =>
      by_cases hrun : s.state prev = .running
      · cases queue with
        | nil =>
          simp [retire, saveCtx, hrun, popOr] at h
          obtain ⟨rfl, rfl⟩ := h
          exact ⟨_, hq, rfl, .alone rfl rfl hrun⟩
        | cons next rest =>
          have hnext : prev ≠ next := by
            have hnext := hne _ hmem next (.head _)
            simpa using hnext
          simp [retire, saveCtx, hrun, popOr, hnext] at h
          obtain ⟨rfl, rfl⟩ := h
          exact ⟨_, hq, rfl, .preempt rfl rfl hrun⟩
      · cases queue with
        | nil =>
          simp [retire, saveCtx, hrun, popOr] at h
          obtain ⟨rfl, rfl⟩ := h
          exact ⟨_, hq, rfl, .stay rfl rfl hrun⟩
        | cons next rest =>
          have hnext : prev ≠ next := by
            have hnext := hne _ hmem next (.head _)
            simpa using hnext
          simp [retire, saveCtx, hrun, popOr, hnext] at h
          obtain ⟨rfl, rfl⟩ := h
          exact ⟨_, hq, rfl, .replace rfl rfl hrun⟩

/-- The threads a switch moves around stay, except for the one it drops. -/
lemma Switch.count (h : Switch state q r state' q') (t : ThreadRef) :
    q'.threads.count t + (if q.currentThread = some t ∧ state t ≠ .running ∧ q.threadQueue ≠ []
      then 1 else 0) = q.threads.count t := by
  cases h <;> simp_all [threads, List.count_cons, List.count_append] <;> grind

lemma Switch.state_eq (h : Switch state q r state' q') (ht : t ∉ q.threads) :
    state' t = state t := by
  cases h with
  | idle | stay => rfl
  | start hc hq =>
    simp only [threads, hc, hq] at ht
    rw [update_of_ne]
    grind
  | alone hc hq =>
    simp only [threads, hc, hq] at ht
    rw [update_of_ne]
    grind
  | preempt hc hq =>
    simp only [threads, hc, hq] at ht
    rw [update_of_ne, update_of_ne] <;> grind
  | replace hc hq =>
    simp only [threads, hc, hq] at ht
    rw [update_of_ne]
    grind

/-- The queue after a switch holds ready threads if the queue before it did. -/
lemma Switch.queued (h : Switch state q r state' q') (hn : q.threads.Nodup)
    (hready : ∀ t ∈ q.threadQueue, state t = .ready) : ∀ t ∈ q'.threadQueue, state' t = .ready := by
  intro t ht
  cases h with
  | idle | alone | stay => simp at ht
  | start hc hq | replace hc hq =>
    simp only [threads, hc, hq] at hn hready
    rw [update_of_ne] <;> grind
  | @preempt prev next rest hc hq =>
    simp only [threads, hc, hq] at hn hready
    have hnext : t ≠ next := by grind
    rw [update_of_ne hnext]
    by_cases hprev : t = prev
    · rw [hprev, update_self]
    · rw [update_of_ne hprev]
      grind

/-! ### The invariant -/

/-- What holds in every history that queues a thread only when it is nowhere: no thread has two
places, and the queued threads are ready. -/
structure Inv (s : Scheduler) : Prop where
  places_le : ∀ t, s.places t ≤ 1
  queued : ∀ q ∈ s.queues, ∀ t ∈ q.threadQueue, s.state t = .ready

lemma inv_new (ctx : ThreadRef → RegisterFile) : (new ctx).Inv where
  places_le := fun t => Nat.zero_le 1
  queued := by simp [new]

lemma Inv.nodup (h : s.Inv) (hq : q ∈ s.queues) : q.threads.Nodup :=
  List.nodup_iff_count_le_one.2 fun t =>
    Nat.le_trans (count_threads_le_places hq t) (h.places_le t)

lemma Inv.current_notMem (h : s.Inv) :
    ∀ q ∈ s.queues, ∀ t ∈ q.threadQueue, q.currentThread ≠ some t := by
  intro q hq t ht hc
  have hn := h.nodup hq
  rw [threads, hc, Option.toList_some, List.singleton_append, List.nodup_cons] at hn
  exact hn.1 ht

lemma Inv.notMem_threads (h : s.Inv) (hq : s.queues[cpu]? = some q)
    (hx : s.queues[i]? = some x) (hne : i ≠ cpu) (ht : t ∈ x.threads) : t ∉ q.threads := by
  intro htq
  have h₁ := List.count_pos_iff.2 ht
  have h₂ := List.count_pos_iff.2 htq
  have h₃ := count_add_count_le_places hq hx hne t
  have h₄ := h.places_le t
  omega

lemma Inv.registerCpu (h : s.Inv) (cpu : Nat) : (s.registerCpu cpu).Inv := by
  have hstate : (s.registerCpu cpu).state = s.state := registerCpu_state
  refine ⟨?_, ?_⟩
  · intro t
    rw [registerCpu_places]
    exact h.places_le t
  · intro q hq t ht
    rw [hstate]
    rcases mem_registerCpu hq with hq | rfl
    · exact h.queued q hq t ht
    · cases ht

lemma Inv.spawn (h : s.Inv) (ht : s.places t = 0) (hs : s.spawn t = some s') :
    s'.Inv := by
  obtain ⟨hstate, cpu, q, hq, hqs⟩ := spawn_spec hs
  have hplaces := spawn_places hs
  refine ⟨?_, ?_⟩
  · intro u
    have hle := h.places_le u
    rw [hplaces]
    split_ifs with hu
    · exact Nat.le_of_eq (by rw [hu, ht])
    · exact hle
  · intro x hx u hu
    rw [hstate]
    by_cases hut : u = t
    · rw [hut, update_self]
    · rw [update_of_ne hut]
      rw [hqs] at hx
      rcases List.mem_or_eq_of_mem_set hx with hx | rfl
      · exact h.queued x hx u hu
      · refine h.queued q (List.mem_of_getElem? hq) u ?_
        simpa [hut] using hu

/-- Blocking the current thread of a CPU, if it has one. -/
lemma blockMark_spec {w : WaitQueueRef} (hs : s.blockMark cpu w = some s') :
    s'.queues = s.queues ∧ ∃ q, s.queues[cpu]? = some q ∧
      ((q.currentThread = none ∧ s'.state = s.state) ∨
        ∃ p, q.currentThread = some p ∧ s'.state = update s.state p .blocked) := by
  simp only [blockMark] at hs
  split at hs
  case h_1 => cases hs
  case h_2 q hq =>
    split at hs
    case h_1 hc =>
      cases hs
      exact ⟨rfl, q, hq, .inl ⟨hc, rfl⟩⟩
    case h_2 p hc =>
      cases hs
      exact ⟨rfl, q, hq, .inr ⟨p, hc, rfl⟩⟩

lemma mem_threads_of_current (h : q.currentThread = some t) : t ∈ q.threads := by
  simp [threads, h]

lemma mem_threads_of_queued (h : t ∈ q.threadQueue) : t ∈ q.threads :=
  List.mem_append_right _ h

lemma Inv.blockMark (h : s.Inv) {w : WaitQueueRef} (hs : s.blockMark cpu w = some s') :
    s'.Inv := by
  obtain ⟨hqs, q, hq, hcase⟩ := blockMark_spec hs
  have hplaces : ∀ t, s'.places t = s.places t := by
    intro t
    rw [places, places, hqs]
  have hmem := List.mem_of_getElem? hq
  refine ⟨fun t => hplaces t ▸ h.places_le t, ?_⟩
  intro x hx t ht
  rw [hqs] at hx
  rcases hcase with ⟨-, hst⟩ | ⟨p, hc, hst⟩
  · rw [hst]
    exact h.queued x hx t ht
  · have hne : t ≠ p := by
      rintro rfl
      obtain ⟨i, hi⟩ := List.mem_iff_getElem?.1 hx
      by_cases hicpu : i = cpu
      · rw [hicpu, hq] at hi
        cases hi
        exact h.current_notMem _ hmem t ht hc
      · exact h.notMem_threads hq hi hicpu (mem_threads_of_queued ht) (mem_threads_of_current hc)
    rw [hst, update_of_ne hne]
    exact h.queued x hx t ht

/-- What a CPU other than the one that switched sees. -/
lemma Inv.switch_frame (h : s.Inv) (hq : s.queues[cpu]? = some q)
    (hsw : Switch s.state q r state' q') (hx : s.queues[i]? = some x) (hne : i ≠ cpu) :
    ∀ t ∈ x.threads, state' t = s.state t := by
  intro t ht
  exact hsw.state_eq (h.notMem_threads hq hx hne ht)

lemma Inv.schedule (h : s.Inv) {ctx : RegisterFile} (hs : s.schedule cpu ctx = some (r, s'))
    : s'.Inv := by
  obtain ⟨q, q', hq, hqs, hsw⟩ := schedule_spec hs h.current_notMem
  have hmem := List.mem_of_getElem? hq
  have hplaces : ∀ t, s'.places t ≤ s.places t := by
    intro t
    have hset := places_set hq hqs t
    have hcount := hsw.count t
    omega
  refine ⟨?_, ?_⟩
  · intro t
    exact Nat.le_trans (hplaces t) (h.places_le t)
  · intro x hx t ht
    rw [hqs] at hx
    obtain ⟨i, hi⟩ := List.mem_iff_getElem?.1 hx
    by_cases hicpu : i = cpu
    · rw [hicpu, List.getElem?_set_self (List.getElem?_eq_some_iff.1 hq).1] at hi
      cases hi
      exact hsw.queued (h.nodup hmem) (h.queued q hmem) t ht
    · rw [List.getElem?_set_ne (Ne.symm hicpu)] at hi
      rw [h.switch_frame hq hsw hi hicpu t (mem_threads_of_queued ht)]
      exact h.queued x (List.mem_of_getElem? hi) t ht

end Mars.Sched.Scheduler
