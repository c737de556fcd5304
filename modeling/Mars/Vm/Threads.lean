import Mars.Vm.Basic

/-!
# Cursors of several threads

`AddressSpace::lock`, `Cursor::map` and the drop of a cursor as programs of small steps that are
interleaved: a step is one lock request, one read or write of an entry or a descriptor, one call
of the wrapped table allocator, or one release of a guard. No table is freed. Lock requests are
granted by the rule of reader and writer exclusion. An agent is a call of `lock` together with the
cursor it returns, so a thread with several cursors is several agents.
-/

namespace Mars.Vm

open Paging

variable {AP SH X : Type}

/-! ### Programs -/

/-- The local variables of `lock`. -/
structure Search where
  start : UInt64
  stop : UInt64
  guards : List (UInt64 × Nat)
  level : Nat
  pa : UInt64

/-- Where `map` is with the page it is at. In `map_page` levels count from the root. -/
inductive MapPc where
  /-- About to read the entry of the table for the level. -/
  | walk (level : Nat) (table : UInt64)
  /-- The entry is not there, about to call the wrapped allocator. -/
  | alloc (level : Nat) (table : UInt64)
  /-- About to lock the descriptor of the new table. -/
  | track (level : Nat) (table new : UInt64)
  /-- About to reset the descriptor and to release it. -/
  | reset (level : Nat) (table new : UInt64) (d : Nat)
  /-- About to write the entry for the new table. -/
  | install (level : Nat) (table new : UInt64)
  /-- About to write the entry of the page. -/
  | leaf (table : UInt64)
  /-- In the loop of `update_leaf_meta`, where levels count from the leaves. -/
  | update (level : Nat) (pa : UInt64)
  /-- About to write the status and to release the descriptor. -/
  | write (d : Nat)

/-- The local variables of `map`. -/
structure MapJob (AP SH : Type) where
  attrs : Attributes AP SH
  va : UInt64
  currentPa : UInt64
  /-- The pages after this one. -/
  left : Nat
  pc : MapPc

inductive Phase (AP SH : Type) where
  | idle
  /-- At the head of the loop of `lock`. -/
  | search (v : Search)
  /-- The current table is locked for reading, about to read its entry. -/
  | peek (v : Search) (d : Nat)
  /-- The entry is not there, about to release the current table. -/
  | release (v : Search) (d : Nat)
  /-- About to lock the covering table for writing. -/
  | claim (v : Search)
  /-- The cursor was returned. -/
  | held (c : Cursor)
  | mapping (c : Cursor) (job : MapJob AP SH)
  /-- The cursor is dropped and its write guard released. -/
  | unwind (guards : List (UInt64 × Nat))

/-- What an agent does next. -/
inductive Act (AP SH X : Type) where
  /-- Nothing before the next call. -/
  | call
  | acquire (d : Nat) (mode : Mode) (next : Phase AP SH)
  | go (h : UserHeap AP SH X) (next : Phase AP SH)

def readGuardLocks (guards : List (UInt64 × Nat)) : List (Nat × Mode) :=
  guards.map fun guard => (guard.2, .read)

def Cursor.locks (c : Cursor) : List (Nat × Mode) :=
  (c.writeGuard.toList.map fun guard => (guard.2, .write)) ++ readGuardLocks c.readGuards

def MapPc.locks : MapPc → List (Nat × Mode)
  | .reset _ _ _ d => [(d, .write)]
  | .write d       => [(d, .write)]
  | _              => []

/-- The locks that an agent holds. -/
def Phase.locks : Phase AP SH → List (Nat × Mode)
  | .idle           => []
  | .search v       => readGuardLocks v.guards
  | .peek v d       => (d, .read) :: readGuardLocks v.guards
  | .release v d    => (d, .read) :: readGuardLocks v.guards
  | .claim v        => readGuardLocks v.guards
  | .held c         => c.locks
  | .mapping c job  => job.pc.locks ++ c.locks
  | .unwind guards  => readGuardLocks guards

section Programs

variable [Inhabited AP] [Inhabited SH] (s : AddressSpace X)

/-- The test of `map_page` for an existing child. -/
def presentAt (level : Nat) (e : Tte AP SH) : Bool :=
  if level < 2 then hasTableAddress e else e.isValid

/-- `map_page` goes on to a table of the next level. -/
def MapPc.enter (level : Nat) (table : UInt64) : MapPc :=
  if level < 2 then .walk (level + 1) table else .leaf table

def MapJob.next (job : MapJob AP SH) (root : UInt64) (c : Cursor) : Phase AP SH :=
  match job.left with
  | 0        => .held c
  | left + 1 => .mapping c
      { job with
        va := job.va + UInt64.ofNat pageSize
        currentPa := job.currentPa + UInt64.ofNat pageSize
        left := left
        pc := .walk 0 root }

def MapJob.act (h : UserHeap AP SH X) (c : Cursor) (job : MapJob AP SH) :
    Except Trap (Act AP SH X) :=
  match job.pc with
  | .walk level table => do
    let e ← h.readEntry table (calculateIndex job.va level)
    if presentAt level e then
      .ok (.go h (.mapping c { job with pc := .enter level (s.translator.physToDmap e.address) }))
    else .ok (.go h (.mapping c { job with pc := .alloc level table }))
  | .alloc level table => do
    let (new, inner) ← s.allocator.inner.allocTable h.allocator.inner
    let h :=
      { tables := Function.update h.tables new (some TTable.new)
        log := h.log ++ [.alloc new]
        allocator := { h.allocator with inner := inner } }
    .ok (.go h (.mapping c { job with pc := .track level table new }))
  | .track level table new => do
    let d ← s.allocator.descriptor (s.translator.dmapToPhys new)
    .ok (.acquire d .write (.mapping c { job with pc := .reset level table new d }))
  | .reset level table new d =>
    let metas := Function.update h.allocator.metas d none
    let h := { h with allocator := { h.allocator with metas := metas } }
    .ok (.go h (.mapping c { job with pc := .install level table new }))
  | .install level table new => do
    let i := calculateIndex job.va level
    let e ← h.readEntry table i
    let h ← h.writeEntry table i (e.linkTo (s.translator.dmapToPhys new))
    .ok (.go h (.mapping c { job with pc := .enter level new }))
  | .leaf table => do
    let h ← h.writeEntry table (calculateIndex job.va 3) (pageEntry job.currentPa job.attrs)
    .ok (.go h (.mapping c { job with pc := .update c.coveringLevel c.coveringPa }))
  | .update 0 pa => do
    let d ← s.allocator.descriptor pa
    .ok (.acquire d .write (.mapping c { job with pc := .write d }))
  | .update (level + 1) pa => do
    let root ← s.rootMut
    let pte ← h.readEntry (s.translator.physToDmap pa) (entryIndex job.va (level + 1))
    if pte.isValid && pte.isTable then
      .ok (.go h (.mapping c { job with pc := .update level pte.address }))
    else .ok (.go h (job.next root c))
  | .write d => do
    let root ← s.rootMut
    let h := setStatus h d (entryIndex job.va 0) (.mapped job.currentPa job.attrs.access)
    .ok (.go h (job.next root c))

def Phase.act (h : UserHeap AP SH X) : Phase AP SH → Except Trap (Act AP SH X)
  | .idle           => .ok .call
  | .search v       =>
    match v.level with
    | 0         => .ok (.go h (.claim v))
    | level + 1 =>
      let startI := entryIndex v.start (level + 1)
      let endI := entryIndex (UInt64.ofNat (v.stop.toNat - 1)) (level + 1)
      if startI = endI then do
        let d ← s.allocator.descriptor v.pa
        .ok (.acquire d .read (.peek v d))
      else .ok (.go h (.claim v))
  | .peek v d       => do
    let pte ← h.readEntry (s.translator.physToDmap v.pa) (entryIndex v.start v.level)
    if pte.isValid && pte.isTable then
      .ok (.go h (.search
        { v with guards := v.guards ++ [(v.pa, d)], level := v.level - 1, pa := pte.address }))
    else .ok (.go h (.release v d))
  | .release v _    => .ok (.go h (.claim v))
  | .claim v        => do
    let d ← s.allocator.descriptor v.pa
    .ok (.acquire d .write (.held
      { start := v.start, stop := v.stop, readGuards := v.guards, writeGuard := some (v.pa, d),
        coveringPa := v.pa, coveringLevel := v.level }))
  | .held _         => .ok .call
  | .mapping c job  => job.act s h c
  | .unwind []      => .ok (.go h .idle)
  | .unwind (g :: gs) => .ok (.go h (.unwind (g :: gs).dropLast))

/-- A call of `map`. -/
def Cursor.beginMap (root : UInt64) (c : Cursor) (targetPaStart : UInt64)
    (attrs : Attributes AP SH) : Phase AP SH :=
  match c.steps with
  | 0        => .held c
  | left + 1 => .mapping c ⟨attrs, c.start, targetPaStart, left, .walk 0 root⟩

end Programs

/-! ### Interleavings -/

structure System (T AP SH X : Type) where
  heap : UserHeap AP SH X
  phase : T → Phase AP SH

namespace System

variable {T : Type} [DecidableEq T] [Inhabited AP] [Inhabited SH]

def set (σ : System T AP SH X) (i : T) (h : UserHeap AP SH X) (next : Phase AP SH) :
    System T AP SH X :=
  ⟨h, Function.update σ.phase i next⟩

/-- A lock is granted to a writer if nobody holds it, to a reader if no writer does. -/
def Free (σ : System T AP SH X) (d : Nat) (mode : Mode) : Prop :=
  ∀ j m, (d, m) ∈ (σ.phase j).locks → mode = .read ∧ m = .read

inductive Step (s : AddressSpace X) (root : UInt64) (σ : System T AP SH X) :
    System T AP SH X → Prop where
  /-- A call of `lock` for a user range. -/
  | lock (i : T) (start stop : UInt64) (hidle : σ.phase i = .idle)
      (hstop : stop.toNat ≤ 2 ^ 48) :
      Step s root σ (σ.set i σ.heap
        (.search ⟨start, stop, [], s.maxLevel, s.translator.dmapToPhys root⟩))
  | map (i : T) (c : Cursor) (pa : UInt64) (attrs : Attributes AP SH)
      (hheld : σ.phase i = .held c) :
      Step s root σ (σ.set i σ.heap (c.beginMap root pa attrs))
  /-- The drop of a cursor takes the write guard first. -/
  | drop (i : T) (c : Cursor) (hheld : σ.phase i = .held c) :
      Step s root σ (σ.set i σ.heap (.unwind c.readGuards))
  | acquire (i : T) (d : Nat) (mode : Mode) (next : Phase AP SH)
      (hact : (σ.phase i).act s σ.heap = .ok (.acquire d mode next)) (hfree : σ.Free d mode) :
      Step s root σ (σ.set i σ.heap next)
  | go (i : T) (h : UserHeap AP SH X) (next : Phase AP SH)
      (hact : (σ.phase i).act s σ.heap = .ok (.go h next)) :
      Step s root σ (σ.set i h next)

end System

end Mars.Vm
