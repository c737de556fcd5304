import Mars.Pm.Exhaustion
import Mathlib.Data.Nat.Log

/-!
# The slab allocator

Embedding of `SlabAllocator` of `klib/src/vm/slab.rs`. A page of a size class starts with a header,
and the free objects of the page are linked through their first words. The pages of a class that
have both free objects and others are in a list. Large blocks are pages of their own; if they need
more than the alignment of a page, the address of the pages is kept in the word before the block.

Arithmetic of `usize` and `u16` that could overflow is checked. The lock is not modelled, a call
runs alone.
-/

namespace Mars.Slab

open Lib Lib.Bits Lib.DList Vm

/-- `core::alloc::Layout`. The size, rounded up to the alignment, is at most `isize::MAX`. -/
structure Layout where
  size : Nat
  align : Nat
  isPowerOfTwo : ∃ k, align = 2 ^ k
  le : size + align ≤ 2 ^ 63
deriving DecidableEq

inductive Panic where
  | overflow
  | indexOutOfBounds
  /-- `panic!("OOM")` -/
  | outOfMemory
  /-- A panic of the page allocator. -/
  | pages (p : Pm.Panic)
  /-- The loop did not end in the given number of rounds. -/
  | diverges

/-! ### Arithmetic -/

def checkedAdd (a b : Nat) : Except Panic Nat :=
  if a + b < 2 ^ 64 then .ok (a + b) else .error .overflow

/-- `addr & !(align - 1)` -/
def alignDown (addr align : Nat) : Nat := addr &&& complement (align - 1)

def alignUp (addr align : Nat) : Except Panic Nat := do
  let sum ← checkedAdd addr align
  .ok ((sum - 1) &&& complement (align - 1))

def nextPowerOfTwo (n : Nat) : Except Panic Nat :=
  if 2 ^ Nat.clog 2 n < 2 ^ 64 then .ok (2 ^ Nat.clog 2 n) else .error .overflow

/-- `next_power_of_two().trailing_zeros()` -/
def orderOf (pages : Nat) : Except Panic Nat := do
  let n ← nextPowerOfTwo pages
  .ok (trailingZeros n)

/-- The order of a block with so many bytes. -/
def pageOrder (bytes : Nat) : Except Panic Nat := do
  let sum ← checkedAdd bytes pageSize
  orderOf ((sum - 1) / pageSize)

/-! ### Size classes -/

def numClasses : Nat := 9

/-- `CLASS_SIZES[i]` -/
def classSize (i : Nat) : Nat := 2 ^ (i + 3)

def sizeClassIndex (size : Nat) : Option Nat :=
  (List.range numClasses).find? fun i => size ≤ classSize i

def headerSize : Nat := 32

def startOff (i : Nat) : Nat := (headerSize + classSize i - 1) &&& complement (classSize i - 1)

def cap (i : Nat) : Nat := (pageSize - startOff i) / classSize i

/-! ### Headers

A header starts with the links of a list node. -/

def freeList (m : Mem) (header : Nat) : Nat := m.word (header + 16)

def freeCount (m : Mem) (header : Nat) : Nat := m.load 2 (header + 24)

def sizeClassI (m : Mem) (header : Nat) : Nat := m.load 2 (header + 26)

def setFreeList (m : Mem) (header v : Nat) : Mem := m.setWord (header + 16) v

def setFreeCount (m : Mem) (header v : Nat) : Mem := m.store 2 (header + 24) v

def setSizeClassI (m : Mem) (header v : Nat) : Mem := m.store 2 (header + 26) v

/-- `SlabAllocator` with the page allocator and the memory. -/
structure SlabAllocator where
  pages : Pm.State
  usedBytes : Nat
  /-- The first page in the list of each class. -/
  plist : Nat → Nat
  isDmap : Bool

namespace SlabAllocator

def new (pages : Pm.State) : SlabAllocator := ⟨pages, 0, fun _ => 0, false⟩

def mem (s : SlabAllocator) : Mem := s.pages.mem

def setMem (s : SlabAllocator) (m : Mem) : SlabAllocator :=
  { s with pages := { s.pages with mem := m } }

def setPlist (s : SlabAllocator) (i head : Nat) : SlabAllocator :=
  { s with plist := Function.update s.plist i head }

/-! ### `alloc_impl` -/

/-- The first free object of a page that has one. -/
def popObject (s : SlabAllocator) (i : Nat) : Except Panic (Nat × SlabAllocator) :=
  let header := s.plist i
  let obj := freeList s.mem header
  let m := setFreeList s.mem header (s.mem.word obj)
  if freeCount m header = 0 then .error .overflow
  else
    let m := setFreeCount m header (freeCount m header - 1)
    if freeCount m header = 0 then
      let head := next m header
      let m := linkBack m head 0
      let m := setNext m header 0
      let m := setPrev m header 0
      .ok (obj, (s.setMem m).setPlist i head)
    else .ok (obj, s.setMem m)

/-- The loop that links the objects from the `k`-th on; `prev` is the one before. -/
def carve (page i : Nat) : (rounds k prev : Nat) → Mem → Mem
  | 0,          _, prev, m => m.setWord prev 0
  | rounds + 1, k, prev, m =>
    let next := page + (startOff i + k * classSize i)
    carve page i rounds (k + 1) next (m.setWord prev next)

/-- The page becomes a page of the class, and its first object is taken. -/
def newPage (s : SlabAllocator) (i page : Nat) : Nat × SlabAllocator :=
  let firstObj := page + startOff i
  let m := carve page i (cap i - 1) 1 firstObj s.mem
  let m := setFreeList m page (m.word firstObj)
  let m := setFreeCount m page (cap i - 1)
  let m := setSizeClassI m page i
  if 1 < cap i then (firstObj, (s.setMem (push m (s.plist i) page)).setPlist i page)
  else (firstObj, s.setMem (setPrev (setNext m page 0) page 0))

def allocSmall (s : SlabAllocator) (i : Nat) : Except Panic (Nat × SlabAllocator) :=
  if s.plist i ≠ 0 then s.popObject i
  else
    match if s.isDmap then s.pages.allocDmapPage else s.pages.allocPhysPage with
    | (.error _, _)     => .error .outOfMemory
    | (.ok page, pages) =>
      if page = 0 then .error .outOfMemory else .ok ({ s with pages }.newPage i page)

/-- The order that `alloc_impl` computes first and does not use. -/
def unusedOrder (size : Nat) : Except Panic Nat := do
  let req ← alignUp size pageSize
  orderOf (req / pageSize)

/-- A block with room for the alignment and for the address of the pages. -/
def allocAligned (s : SlabAllocator) (size align : Nat) : Except Panic (Nat × SlabAllocator) := do
  let sum ← checkedAdd size align
  let totalBytes ← checkedAdd sum 8
  let order ← pageOrder totalBytes
  let (ptr, pages) := s.pages.allocPages order
  if ptr = 0 then .ok (0, { s with pages })
  else
    let start ← checkedAdd ptr 8
    let aligned ← alignUp start align
    .ok (aligned, { s with pages }.setMem (pages.mem.setWord (aligned - 8) ptr))

def allocLarge (s : SlabAllocator) (l : Layout) : Except Panic (Nat × SlabAllocator) := do
  let size := max l.size l.align
  let _ ← unusedOrder size
  if l.align ≤ pageSize then
    let order ← pageOrder size
    let (ptr, pages) := s.pages.allocPages order
    .ok (ptr, { s with pages })
  else s.allocAligned size l.align

def allocImpl (s : SlabAllocator) (l : Layout) : Except Panic (Nat × SlabAllocator) := do
  let (ptr, s) ←
    match sizeClassIndex (max l.size l.align) with
    | some i => s.allocSmall i
    | none   => s.allocLarge l
  if ptr ≠ 0 then .ok (ptr, { s with usedBytes := (s.usedBytes + l.size) % 2 ^ 64 })
  else .ok (ptr, s)

/-! ### `free_impl` -/

def freePages (debug : Bool) (fuel : Nat) (s : SlabAllocator) (ptr : Nat) :
    Except Panic SlabAllocator :=
  match s.pages.freePages debug fuel ptr with
  | .error e  => .error (.pages e)
  | .ok pages => .ok { s with pages }

/-- The object goes back to its page, and the page goes back if it was the last one. -/
def freeSmall (debug : Bool) (fuel : Nat) (s : SlabAllocator) (ptr : Nat) :
    Except Panic SlabAllocator :=
  let header := alignDown ptr pageSize
  let i := sizeClassI s.mem header
  if numClasses ≤ i then .error .indexOutOfBounds
  else
    let m := s.mem.setWord ptr (freeList s.mem header)
    let m := setFreeList m header ptr
    let wasFull := freeCount m header = 0
    if 2 ^ 16 ≤ freeCount m header + 1 then .error .overflow
    else
      let m := setFreeCount m header (freeCount m header + 1)
      if freeCount m header = cap i % 2 ^ 16 then
        if wasFull then (s.setMem m).freePages debug fuel header
        else
          let (m, head) := unlink m (s.plist i) header
          ((s.setMem m).setPlist i head).freePages debug fuel header
      else if wasFull then
        let m := setNext m header (s.plist i)
        let m := linkBack m (s.plist i) header
        .ok ((s.setMem m).setPlist i header)
      else .ok (s.setMem m)

def freeLarge (debug : Bool) (fuel : Nat) (s : SlabAllocator) (ptr : Nat) (l : Layout) :
    Except Panic SlabAllocator :=
  if l.align ≤ pageSize then s.freePages debug fuel ptr
  else s.freePages debug fuel (s.mem.word (ptr - 8))

def freeImpl (debug : Bool) (fuel : Nat) (s : SlabAllocator) (ptr : Nat) (l : Layout) :
    Except Panic SlabAllocator :=
  if ptr = 0 then .ok s
  else do
    let s ←
      match sizeClassIndex (max l.size l.align) with
      | none   => s.freeLarge debug fuel ptr l
      | some _ => s.freeSmall debug fuel ptr
    .ok { s with usedBytes := (s.usedBytes + (2 ^ 64 - l.size)) % 2 ^ 64 }

end SlabAllocator

end Mars.Slab
