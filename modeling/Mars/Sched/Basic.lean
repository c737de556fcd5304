import Mathlib.Tactic.Common
import Mathlib.Logic.Function.Basic

/-!
# The round-robin scheduler

Embedding of `klib/src/scheduler.rs` and of the parts of `klib/src/thread.rs` it uses. A thread
is the identity of its `Arc<Thread>`; states and saved registers are kept beside the queues. Calls
are atomic steps, with `block_current` cut at its `yield_now`. A panic has no result.
-/

namespace Mars.Sched

open Function

/-- The allocation behind an `Arc<Thread>`, which is what `Arc::ptr_eq` compares. -/
abbrev ThreadRef := Nat

abbrev WaitQueueRef := Nat

inductive ThreadState where
  | running
  | ready
  | blocked
  | dead
deriving DecidableEq, Repr

structure RegisterFile where
  registers : Fin 31 → UInt64
  sp : UInt64
  elr : UInt64
  spsr : UInt64
  esr : UInt64
  far : UInt64

def RegisterFile.zero : RegisterFile := ⟨fun _ => 0, 0, 0, 0, 0, 0⟩

structure LocalScheduler where
  threadQueue : List ThreadRef
  currentThread : Option ThreadRef
deriving DecidableEq, Repr

def LocalScheduler.new : LocalScheduler := { threadQueue := [], currentThread := none }

structure Scheduler where
  queues : List LocalScheduler
  spawnCounter : UInt8
  /-- `ThreadInner::state` of every thread. -/
  state : ThreadRef → ThreadState
  /-- The register file at the top of every thread's kernel stack. -/
  ctx : ThreadRef → RegisterFile
  /-- The wait queues passed to `block_current`. -/
  waitQueues : WaitQueueRef → List ThreadRef

namespace Scheduler

variable (s : Scheduler)

/-- A scheduler without CPUs, over threads that were just created. -/
def new (ctx : ThreadRef → RegisterFile) : Scheduler :=
  { queues := []
    spawnCounter := 0
    state := fun _ => .ready
    ctx := ctx
    waitQueues := fun _ => [] }

/-! ### Threads -/

def setState (t : ThreadRef) (st : ThreadState) : Scheduler :=
  { s with state := update s.state t st }

/-- `with_ctx_mut(|c| *c = *regs)`. -/
def saveCtx (t : ThreadRef) (regs : RegisterFile) : Scheduler :=
  { s with ctx := update s.ctx t regs }

def setLocal (cpu : Nat) (q : LocalScheduler) : Scheduler :=
  { s with queues := s.queues.set cpu q }

/-! ### Operations -/

def registerCpu (cpu : Nat) : Scheduler :=
  if s.queues.length ≤ cpu then
    { s with
      queues := s.queues ++ List.replicate (cpu + 1 - s.queues.length) LocalScheduler.new }
  else s

def spawn (t : ThreadRef) : Option Scheduler :=
  let cpu := s.spawnCounter.toNat % s.queues.length
  match s.queues[cpu]? with
  -- the assertion that there is a CPU
  | none   => none
  | some q =>
    let s := { s with spawnCounter := s.spawnCounter + 1 }
    let s := s.setState t .ready
    some (s.setLocal cpu { q with threadQueue := q.threadQueue ++ [t] })

def unblock (t : ThreadRef) : Option Scheduler := s.spawn t

/-- The part of `block_current` before its `yield_now`. -/
def blockMark (cpu : Nat) (w : WaitQueueRef) : Option Scheduler :=
  match s.queues[cpu]? with
  | none   => none
  | some q =>
    match q.currentThread with
    | none   => some s
    | some t =>
      let s := s.setState t .blocked
      some { s with waitQueues := update s.waitQueues w (s.waitQueues w ++ [t]) }

/-- The register file that `schedule` returns: the one it was called with, or that of a thread. -/
inductive Resumed where
  | interrupted
  | context (t : ThreadRef)
deriving DecidableEq, Repr

/-- The first half of `schedule`: the previous thread is saved and, if it was running, goes to
the end of the queue. -/
def retire (q : LocalScheduler) (ctx : RegisterFile) : Scheduler × List ThreadRef :=
  match q.currentThread with
  | none      => (s, q.threadQueue)
  | some prev =>
    let s := s.saveCtx prev ctx
    if s.state prev = .running then (s.setState prev .ready, q.threadQueue ++ [prev])
    else (s, q.threadQueue)

/-- `pop_front().or_else(|| prev_thread.clone())`, and the queue that is left. -/
def popOr (prev : Option ThreadRef) : List ThreadRef → Option ThreadRef × List ThreadRef
  | []        => (prev, [])
  | t :: rest => (some t, rest)

def schedule (cpu : Nat) (ctx : RegisterFile) : Option (Resumed × Scheduler) :=
  match s.queues[cpu]? with
  | none   => none
  | some q =>
    let (s, queue) := s.retire q ctx
    match popOr q.currentThread queue with
    | (none, rest)      => some (.interrupted, s.setLocal cpu ⟨rest, none⟩)
    | (some next, rest) =>
      if q.currentThread = some next then
        some (.interrupted, s.setLocal cpu ⟨rest, some next⟩)
      else
        some (.context next, (s.setState next .running).setLocal cpu ⟨rest, some next⟩)

/-- The owner of a wait queue takes its first thread out, as `SleepingMutex::unlock` does before
it unblocks that thread. -/
def dequeue (w : WaitQueueRef) : Scheduler :=
  { s with waitQueues := update s.waitQueues w (s.waitQueues w).tail }

end Scheduler

/-! ### Where threads are -/

def LocalScheduler.threads (q : LocalScheduler) : List ThreadRef :=
  q.currentThread.toList ++ q.threadQueue

/-- The number of places, among all queues and current threads, that hold `t`. -/
def Scheduler.places (s : Scheduler) (t : ThreadRef) : Nat :=
  (s.queues.flatMap LocalScheduler.threads).count t

end Mars.Sched
