import Mars.Paging.Refinement

/-!
# User address spaces

Embedding of `klib/src/vm/user`: the page descriptors with their locks, the table allocator that
keeps them up to date, `AddressSpace::lock` and the operations of a `Cursor`. Page tables and the
mapper are those of `Mars.Paging`.

A lock is identified by the number of its page descriptor. Guards that an operation takes for
itself are dropped at once, so the locks that matter are those the cursor holds. A request that
conflicts with one of them never returns: it is a deadlock.
-/

namespace Mars.Vm

open Function Paging

variable {AP SH X : Type}

def pageSize : Nat := 2 ^ pageShift

/-- Index of the entry for `addr` in a table of the level, counted from the leaves here. -/
def entryIndex (addr : UInt64) (level : Nat) : Index :=
  ⟨addr.toNat / 2 ^ (pageShift + level * 11) % 2048, Nat.mod_lt _ (by decide)⟩

/-- The size of what an entry of a table of the level stands for. -/
def entryCover (level : Nat) : Nat := 2 ^ (pageShift + level * 11)

/-! ### Page descriptors -/

inductive Status (AP : Type) where
  /-- Invalid entry. -/
  | invalid
  /-- Currently mapped to some physical address with some permissions. -/
  | mapped (pa : UInt64) (perm : AP)
  /-- Allocated but unbacked memory. -/
  | privateAnonymous (perm : AP)
deriving DecidableEq

abbrev PteMetaArray (AP : Type) := Index → Status AP

/-- `vec![PteMeta::default(); TABLE_ENTRIES]`. -/
def PteMetaArray.new : PteMetaArray AP := fun _ => .invalid

/-- The descriptors of the pages from `start` to `stop`. -/
structure PageDescriptors where
  start : Nat
  stop : Nat
  count : Nat

/-- The number of the descriptor of a page. -/
def PageDescriptors.getPageDescriptor (P : PageDescriptors) (pa : UInt64) : Except Trap Nat :=
  if P.start ≤ pa.toNat ∧ pa.toNat < P.stop then
    let pfn := (pa.toNat - P.start) / 2 ^ pageShift
    if pfn < P.count then .ok pfn else .error .assertion
  else .error .assertion

inductive Mode where
  | read
  | write
deriving DecidableEq, Repr

abbrev Guards := Nat → Option Mode

def Guards.none : Guards := fun _ => Option.none

/-- Take a lock, for a moment or longer. Readers share it. -/
def acquire (g : Guards) (d : Nat) (mode : Mode) : Except Trap Unit :=
  match g d, mode with
  | Option.none, _      => .ok ()
  | some .read, .read   => .ok ()
  | some .read, .write  => .error .deadlock
  | some .write, _      => .error .deadlock

/-! ### The table allocator -/

/-- The wrapped allocator and the global `PAGE_DESCRIPTORS`, which is not there before `init`. -/
structure UserAllocator (X : Type) where
  inner : TableAllocator X
  translator : AddressTranslator
  descriptors : Option PageDescriptors

/-- The state of the wrapped allocator and the `PtState` of every descriptor. -/
structure UserState (AP X : Type) where
  inner : X
  metas : Nat → Option (PteMetaArray AP)

def UserAllocator.descriptor (U : UserAllocator X) (pa : UInt64) : Except Trap Nat :=
  match U.descriptors with
  | none   => .error .assertion
  | some P => P.getPageDescriptor pa

/-- Both calls lock the descriptor of the table to reset it. -/
def UserAllocator.tables (U : UserAllocator X) (g : Guards) : TableAllocator (UserState AP X) where
  allocTable := fun x => do
    let (t, y) ← U.inner.allocTable x.inner
    let d ← U.descriptor (U.translator.dmapToPhys t)
    acquire g d .write
    .ok (t, { inner := y, metas := update x.metas d none })
  freeTable := fun t x => do
    let d ← U.descriptor (U.translator.dmapToPhys t)
    acquire g d .write
    let y ← U.inner.freeTable t x.inner
    .ok { inner := y, metas := update x.metas d none }

/-! ### Locking a range -/

structure AddressSpace (X : Type) where
  root : Option UInt64
  maxLevel : Nat
  allocator : UserAllocator X

abbrev AddressSpace.translator (s : AddressSpace X) : AddressTranslator := s.allocator.translator

def AddressSpace.rootMut (s : AddressSpace X) : Except Trap UInt64 :=
  match s.root with
  | none   => .error .assertion
  | some r => .ok r

abbrev UserHeap (AP SH X : Type) := Heap AP SH (UserState AP X)

/-- A guard is the physical address of the table and the number of its descriptor. -/
structure Cursor where
  start : UInt64
  stop : UInt64
  readGuards : List (UInt64 × Nat)
  writeGuard : Option (UInt64 × Nat)
  coveringPa : UInt64
  coveringLevel : Nat
deriving DecidableEq

def readLocks (guards : List (UInt64 × Nat)) : Guards :=
  fun d => if d ∈ guards.map Prod.snd then some .read else Option.none

def Cursor.guards (c : Cursor) : Guards :=
  fun d => if c.writeGuard.map Prod.snd = some d then some .write else readLocks c.readGuards d

namespace AddressSpace

variable (s : AddressSpace X) (h : UserHeap AP SH X) (start stop : UInt64)

/-- The end of `lock`: the covering table is locked for writing. -/
def cover (guards : List (UInt64 × Nat)) (level : Nat) (pa : UInt64) : Except Trap Cursor := do
  let d ← s.allocator.descriptor pa
  acquire (readLocks guards) d .write
  .ok { start, stop, readGuards := guards, writeGuard := some (pa, d), coveringPa := pa,
        coveringLevel := level }

/-- The loop of `lock`. It goes down as long as one entry covers the range and leads to a table.
The variable `current_base_va` is left out: nothing reads it. -/
def lockFrom (guards : List (UInt64 × Nat)) : Nat → UInt64 → Except Trap Cursor
  | 0, pa         => s.cover start stop guards 0 pa
  | level + 1, pa =>
    let startI := entryIndex start (level + 1)
    let endI := entryIndex (UInt64.ofNat (stop.toNat - 1)) (level + 1)
    if startI = endI then do
      let d ← s.allocator.descriptor pa
      acquire (readLocks guards) d .read
      let pte ← h.readEntry (s.translator.physToDmap pa) startI
      if pte.isValid && pte.isTable then
        lockFrom (guards ++ [(pa, d)]) level pte.address
      else
        -- the read guard of this table is dropped
        s.cover start stop guards (level + 1) pa
    else s.cover start stop guards (level + 1) pa

def lock : Except Trap Cursor := do
  let root ← s.rootMut
  s.lockFrom h start stop [] s.maxLevel (s.translator.dmapToPhys root)

end AddressSpace

/-! ### Operations of a cursor -/

/-- Write the status of an entry, in an array that is created if there is none. -/
def setStatus (h : UserHeap AP SH X) (d : Nat) (i : Index) (status : Status AP) :
    UserHeap AP SH X :=
  let array := (h.allocator.metas d).getD .new
  { h with allocator :=
      { h.allocator with
        metas := update h.allocator.metas d (some (update array i status)) } }

def getStatus (h : UserHeap AP SH X) (d : Nat) (i : Index) : Status AP :=
  match h.allocator.metas d with
  | none       => .invalid
  | some array => array i

def forPages {σ : Type} (body : UInt64 → σ → Except Trap σ) : Nat → UInt64 → σ → Except Trap σ
  | 0, _, x      => .ok x
  | n + 1, va, x => do
    let x ← body va x
    forPages body n (va + UInt64.ofNat pageSize) x

namespace Cursor

variable (s : AddressSpace X) (g : Guards) (c : Cursor)

/-- The loop of `update_leaf_meta`: the leaf table for `va`, if there is one. -/
def leafTable (h : UserHeap AP SH X) (va : UInt64) : Nat → UInt64 → Except Trap (Option UInt64)
  | 0, pa         => .ok (some pa)
  | level + 1, pa => do
    let pte ← h.readEntry (s.translator.physToDmap pa) (entryIndex va (level + 1))
    if pte.isValid && pte.isTable then leafTable h va level pte.address else .ok none

def updateLeafMeta (h : UserHeap AP SH X) (va : UInt64) (status : Status AP) :
    Except Trap (UserHeap AP SH X) := do
  match ← leafTable s h va c.coveringLevel c.coveringPa with
  | none    => .ok h
  | some pa =>
    let d ← s.allocator.descriptor pa
    acquire g d .write
    .ok (setStatus h d (entryIndex va 0) status)

/-- How often `for va in (start..end).step_by(PAGE_SIZE)` runs. -/
def steps : Nat := (c.stop.toNat - c.start.toNat + (pageSize - 1)) / pageSize

section Tables

variable [Inhabited AP] [Inhabited SH]

def ensureFrom (va : UInt64) : Nat → UInt64 → UserHeap AP SH X → Except Trap (UserHeap AP SH X)
  | 0, _, h          => .ok h
  | level + 1, pa, h => do
    let i := entryIndex va (level + 1)
    let pte ← h.readEntry (s.translator.physToDmap pa) i
    if !pte.isValid then
      let (table, h) ← h.allocTable (s.allocator.tables g)
      let newPa := s.translator.dmapToPhys table
      let h ← h.writeEntry (s.translator.physToDmap pa) i (Tte.invalid.linkTo newPa)
      ensureFrom va level newPa h
    else ensureFrom va level pte.address h

def ensureLeafTable (h : UserHeap AP SH X) (va : UInt64) : Except Trap (UserHeap AP SH X) :=
  ensureFrom s g va c.coveringLevel c.coveringPa h

/-- The body of the loop of `map`, which also updates `current_pa`. -/
def mapStep (attrs : Attributes AP SH) (va : UInt64) (x : UInt64 × UserHeap AP SH X) :
    Except Trap (UInt64 × UserHeap AP SH X) := do
  let (currentPa, h) := x
  let root ← s.rootMut
  let h ← mapPage (s.allocator.tables g) s.translator h root currentPa va attrs
  let h ← c.updateLeafMeta s g h va (.mapped currentPa attrs.access)
  .ok (currentPa + UInt64.ofNat pageSize, h)

def map (h : UserHeap AP SH X) (targetPaStart : UInt64) (attrs : Attributes AP SH) :
    Except Trap (UserHeap AP SH X) := do
  let (_, h) ← forPages (c.mapStep s g attrs) c.steps c.start (targetPaStart, h)
  .ok h

def markStep (status : Status AP) (va : UInt64) (h : UserHeap AP SH X) :
    Except Trap (UserHeap AP SH X) := do
  let h ← c.ensureLeafTable s g h va
  c.updateLeafMeta s g h va status

def mark (h : UserHeap AP SH X) (status : Status AP) : Except Trap (UserHeap AP SH X) :=
  forPages (c.markStep s g status) c.steps c.start h

end Tables

def unmapStep (va : UInt64) (h : UserHeap AP SH X) : Except Trap (UserHeap AP SH X) := do
  let root ← s.rootMut
  let h ← unmapPage (s.allocator.tables g) s.translator h root va
  c.updateLeafMeta s g h va .invalid

def unmap (h : UserHeap AP SH X) : Except Trap (UserHeap AP SH X) :=
  forPages (c.unmapStep s g) c.steps c.start h

def queryFrom (h : UserHeap AP SH X) (va : UInt64) : Nat → UInt64 → Except Trap (Status AP)
  | level, pa => do
    let i := entryIndex va level
    let pte ← h.readEntry (s.translator.physToDmap pa) i
    if !pte.isValid then .ok .invalid
    else
      match level with
      | 0         =>
        let d ← s.allocator.descriptor pa
        acquire g d .read
        .ok (getStatus h d i)
      | level + 1 => queryFrom h va level pte.address

def query (h : UserHeap AP SH X) (va : UInt64) : Except Trap (Status AP) :=
  if c.start ≤ va ∧ va < c.stop then queryFrom s g h va c.coveringLevel c.coveringPa
  else .ok .invalid

end Cursor

end Mars.Vm
