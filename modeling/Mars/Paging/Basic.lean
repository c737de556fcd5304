import Mars.Lib.NodeTree

/-!
# Page tables

Embedding of `klib/src/pm/page/mapper.rs` for page mappings. Tables are found by their address in
the direct map, entries hold physical addresses, and an `AddressTranslator` converts between the
two. An access to a table that is not alive is a trap, and so is freeing it.

The translation table entry is a type of another crate. It is a record of independent fields
here, and `calculate_index` selects the index bits of the level.
-/

namespace Mars.Paging

open Lib.NodeTree (setEntry)

/-- `TABLE_ENTRIES` entries of 8 bytes fill a page of 16 KiB. -/
abbrev Index := Fin 2048

/-- An entry, over the access permissions `AP` and shareabilities `SH`. -/
structure Tte (AP SH : Type) where
  isValid : Bool
  isTable : Bool
  address : UInt64
  access : Bool
  accessPermission : AP
  shareability : SH
  attrIndex : UInt64
  executable : Bool
  privilegedExecutable : Bool
deriving DecidableEq

variable {AP SH X : Type}

/-- The entry of which all bits are zero. -/
def Tte.invalid [Inhabited AP] [Inhabited SH] : Tte AP SH :=
  { isValid := false
    isTable := false
    address := 0
    access := false
    accessPermission := default
    shareability := default
    attrIndex := 0
    executable := true
    privilegedExecutable := true }

def Tte.linkTo (e : Tte AP SH) (pa : UInt64) : Tte AP SH :=
  { e with isValid := true, isTable := true, address := pa }

/-- `set_is_valid(false); set_address(0)`. The other fields stay. -/
def Tte.clear (e : Tte AP SH) : Tte AP SH := { e with isValid := false, address := 0 }

abbrev TTable (AP SH : Type) := Index → Tte AP SH

def TTable.new [Inhabited AP] [Inhabited SH] : TTable AP SH := fun _ => Tte.invalid

def pageShift : Nat := 14

/-- Bits of the virtual address that select the entry of level `l`: bit 47 for the root, then 11
bits for each level. -/
def calculateIndex (va : UInt64) : Nat → Index
  | 0 => ⟨va.toNat / 2 ^ 47 % 2, by omega⟩
  | 1 => ⟨va.toNat / 2 ^ 36 % 2048, by omega⟩
  | 2 => ⟨va.toNat / 2 ^ 25 % 2048, by omega⟩
  | _ => ⟨va.toNat / 2 ^ 14 % 2048, by omega⟩

/-! ### Memory -/

inductive Trap where
  /-- The table allocator has no table left. -/
  | outOfMemory
  /-- A table that is not alive was accessed or freed. -/
  | badTable
  /-- An `assert!`, an `expect` or a bounds check failed. -/
  | assertion
  /-- A lock was requested that its holder is waiting for. -/
  | deadlock
deriving DecidableEq, Repr

/-- A sequence of two calls returns if both do. -/
lemma ok_of_bind {α β : Type} {res : Except Trap α} {f : α → Except Trap β} {b : β}
    (h : (res >>= f) = .ok b) : ∃ a, res = .ok a ∧ f a = .ok b := by
  cases res with
  | error e => cases h
  | ok a => exact ⟨a, rfl, h⟩

inductive Event where
  | alloc (table : UInt64)
  | free (table : UInt64)
deriving DecidableEq, Repr

/-- The trait `TableAllocator`, over the state `X` of the allocator. -/
structure TableAllocator (X : Type) where
  allocTable : X → Except Trap (UInt64 × X)
  freeTable : UInt64 → X → Except Trap X

structure AddressTranslator where
  physToDmap : UInt64 → UInt64
  dmapToPhys : UInt64 → UInt64

/-- The tables that are alive, the calls to the allocator so far and the allocator's state. -/
structure Heap (AP SH X : Type) where
  tables : UInt64 → Option (TTable AP SH)
  log : List Event
  allocator : X

namespace Heap

def readEntry (h : Heap AP SH X) (t : UInt64) (i : Index) : Except Trap (Tte AP SH) :=
  match h.tables t with
  | none       => .error .badTable
  | some table => .ok (table i)

def writeEntry (h : Heap AP SH X) (t : UInt64) (i : Index) (e : Tte AP SH) :
    Except Trap (Heap AP SH X) :=
  match h.tables t with
  | none   => .error .badTable
  | some _ => .ok { h with tables := setEntry h.tables t i e }

/-- A call of `alloc_table`, which returns a zeroed table. -/
def allocTable [Inhabited AP] [Inhabited SH] (A : TableAllocator X) (h : Heap AP SH X) :
    Except Trap (UInt64 × Heap AP SH X) := do
  let (t, x) ← A.allocTable h.allocator
  .ok (t,
    { tables := Function.update h.tables t (some TTable.new)
      log := h.log ++ [.alloc t]
      allocator := x })

def freeTable (A : TableAllocator X) (h : Heap AP SH X) (t : UInt64) :
    Except Trap (Heap AP SH X) :=
  match h.tables t with
  | none   => .error .badTable
  | some _ => do
    let x ← A.freeTable t h.allocator
    .ok { tables := Function.update h.tables t none, log := h.log ++ [.free t], allocator := x }

def isTableEmpty (h : Heap AP SH X) (t : UInt64) : Except Trap Bool :=
  match h.tables t with
  | none       => .error .badTable
  | some table => .ok (decide (∀ i, (table i).isValid = false))

end Heap

/-! ### Mapping and unmapping -/

structure Attributes (AP SH : Type) where
  access : AP
  share : SH
  uxn : Bool
  pxn : Bool
  attrIndex : UInt64
deriving DecidableEq

section Mapper

variable [Inhabited AP] [Inhabited SH] (A : TableAllocator X) (tr : AddressTranslator)

/-- The test for an existing child at levels 0 and 1. -/
def hasTableAddress (e : Tte AP SH) : Bool := e.address != 0 && e.isTable

/-- The table below an entry, which is created if the test says that there is none. -/
def childTable (present : Tte AP SH → Bool) (h : Heap AP SH X) (t : UInt64) (i : Index) :
    Except Trap (UInt64 × Heap AP SH X) := do
  let e ← h.readEntry t i
  if present e then .ok (tr.physToDmap e.address, h)
  else
    let (table, h) ← h.allocTable A
    let h ← h.writeEntry t i (e.linkTo (tr.dmapToPhys table))
    .ok (table, h)

/-- The level 3 entry that maps a page. Every field is set. -/
def pageEntry (pa : UInt64) (attrs : Attributes AP SH) : Tte AP SH :=
  { isValid := true
    isTable := true
    address := pa
    access := true
    accessPermission := attrs.access
    shareability := attrs.share
    attrIndex := attrs.attrIndex
    executable := !attrs.uxn
    privilegedExecutable := !attrs.pxn }

def mapPage (h : Heap AP SH X) (root pa va : UInt64) (attrs : Attributes AP SH) :
    Except Trap (Heap AP SH X) := do
  let (l1, h) ← childTable A tr hasTableAddress h root (calculateIndex va 0)
  let (l2, h) ← childTable A tr hasTableAddress h l1 (calculateIndex va 1)
  let (l3, h) ← childTable A tr Tte.isValid h l2 (calculateIndex va 2)
  h.writeEntry l3 (calculateIndex va 3) (pageEntry pa attrs)

/-- One of the nested tests at the end of `unmap_page`: if the table `u` has become empty it is
freed, the entry `i` of `t` that leads to it is cleared, and the next test follows. -/
def reclaim (h : Heap AP SH X) (u t : UInt64) (i : Index) (e : Tte AP SH)
    (next : Heap AP SH X → Except Trap (Heap AP SH X)) : Except Trap (Heap AP SH X) := do
  if ← h.isTableEmpty u then
    let h ← h.freeTable A u
    let h ← h.writeEntry t i e.clear
    next h
  else .ok h

def unmapPage (h : Heap AP SH X) (root va : UInt64) : Except Trap (Heap AP SH X) := do
  let i0 := calculateIndex va 0
  let i1 := calculateIndex va 1
  let i2 := calculateIndex va 2
  let i3 := calculateIndex va 3
  let e0 ← h.readEntry root i0
  if !e0.isValid || !e0.isTable then return h
  let l1 := tr.physToDmap e0.address
  let e1 ← h.readEntry l1 i1
  if !e1.isValid || !e1.isTable then return h
  let l2 := tr.physToDmap e1.address
  let e2 ← h.readEntry l2 i2
  if !e2.isValid || !e2.isTable then return h
  let l3 := tr.physToDmap e2.address
  let e3 ← h.readEntry l3 i3
  if !e3.isValid then return h
  let h ← h.writeEntry l3 i3 e3.clear
  reclaim A h l3 l2 i2 e2 fun h =>
    reclaim A h l2 l1 i1 e1 fun h =>
      reclaim A h l1 root i0 e0 .ok

/-- `addr & PAGE_MASK == 0`. -/
def pageAligned (a : UInt64) : Bool := a.toNat % 2 ^ pageShift == 0

def pageAfter (a : UInt64) (i : Nat) : UInt64 := a + UInt64.ofNat (i * 2 ^ pageShift)

/-- The loop of `map_region` over the pages that are left. -/
def mapPages (h : Heap AP SH X) (root pa va : UInt64) (attrs : Attributes AP SH) :
    List Nat → Except Trap (Heap AP SH X)
  | []      => .ok h
  | i :: is => do
    let h ← mapPage A tr h root (pageAfter pa i) (pageAfter va i) attrs
    mapPages h root pa va attrs is

def mapRegion (h : Heap AP SH X) (root pa va size : UInt64) (attrs : Attributes AP SH) :
    Except Trap (Heap AP SH X) :=
  if pageAligned va && pageAligned pa && pageAligned size &&
      decide (2 ^ pageShift ≤ size.toNat) then
    mapPages A tr h root pa va attrs (List.range (size.toNat / 2 ^ pageShift))
  else .error .assertion

def unmapPages (h : Heap AP SH X) (root va : UInt64) : List Nat → Except Trap (Heap AP SH X)
  | []      => .ok h
  | i :: is => do
    let h ← unmapPage A tr h root (pageAfter va i)
    unmapPages h root va is

def unmapRegion (h : Heap AP SH X) (root va size : UInt64) : Except Trap (Heap AP SH X) :=
  if pageAligned va && pageAligned size then
    unmapPages A tr h root va (List.range (size.toNat / 2 ^ pageShift))
  else .error .assertion

end Mapper

/-! ### Translation -/

/-- What the hardware finds at the end of a walk. -/
structure Mapping (AP SH : Type) where
  pa : UInt64
  attrs : Attributes AP SH
deriving DecidableEq

def Tte.mapping (e : Tte AP SH) : Mapping AP SH :=
  { pa := e.address
    attrs :=
      { access := e.accessPermission
        share := e.shareability
        uxn := !e.executable
        pxn := !e.privilegedExecutable
        attrIndex := e.attrIndex } }

/-- The entry at the end of a walk, where it is present. -/
def Heap.step (h : Heap AP SH X) (t : UInt64) (i : Index) : Option (Tte AP SH) :=
  match h.tables t with
  | none       => none
  | some table => if (table i).isValid && (table i).isTable then some (table i) else none

/-- The tables on the way to `va`. -/
def pathOf (va : UInt64) : List Index :=
  [calculateIndex va 0, calculateIndex va 1, calculateIndex va 2]

/-- Walk from the table `t` on, through the given table entries to a page entry. -/
def Heap.walkFrom (tr : AddressTranslator) (h : Heap AP SH X) :
    UInt64 → List Index → Index → Option (Tte AP SH)
  | t, [], i     => h.step t i
  | t, j :: p, i => (h.step t j).bind fun e => h.walkFrom tr (tr.physToDmap e.address) p i

/-- The translation by the memory management unit. -/
def Heap.walk (tr : AddressTranslator) (h : Heap AP SH X) (root va : UInt64) :
    Option (Mapping AP SH) :=
  (h.walkFrom tr root (pathOf va) (calculateIndex va 3)).map Tte.mapping

end Mars.Paging
