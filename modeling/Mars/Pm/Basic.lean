import Mars.Lib.Bits
import Mars.Lib.DList
import Mars.Vm.Basic

/-!
# The page allocator

`PageAllocator` of `pm/page/mod.rs`. A region that is added to the allocator becomes a zone: an
array with one byte for each data page, a header, and the data pages. Free blocks of `2 ^ order`
pages are kept in one list for each order, with the nodes in the free pages themselves. The lock is
not modelled, a call runs alone. A word of memory keeps the lowest 64 bits of what is written to
it.
-/

namespace Mars.Pm

open Lib Lib.Bits Lib.DList Vm

def maxOrder : Nat := 11

def freeFlag : UInt8 := 0x80

/-! ### Records in memory -/

/-- The field `zone` of a `FreeBlock`, which starts with the links of a list node. -/
def blockZone (m : Mem) (block : Nat) : Nat := m.word (block + 16)

def blockPageIndex (m : Mem) (block : Nat) : Nat := m.word (block + 24)

def zoneMetaArray (m : Mem) (zone : Nat) : Nat := m.word zone

def zoneDataBase (m : Mem) (zone : Nat) : Nat := m.word (zone + 8)

def zoneTotalPages (m : Mem) (zone : Nat) : Nat := m.word (zone + 16)

def zoneNext (m : Mem) (zone : Nat) : Nat := m.word (zone + 24)

def zoneSize : Nat := 32

def writeZone (m : Mem) (zone metaArray dataBase totalPages next : Nat) : Mem :=
  (((m.setWord zone metaArray).setWord (zone + 8) dataBase).setWord (zone + 16)
    totalPages).setWord (zone + 24) next

/-! ### The allocator -/

structure PageAllocator where
  zoneHead : Nat
  /-- The heads of the lists, for the orders below `maxOrder`. -/
  freeArea : Nat → Nat
  totalPages : Nat
  allocatedPages : Nat
  lowestAddress : Nat
  isDmap : Bool

def PageAllocator.new : PageAllocator := ⟨0, fun _ => 0, 0, 0, 0, false⟩

structure State extends PageAllocator where
  mem : Mem

inductive Panic where
  | dmapMismatch
  | alreadyDmap
  | emptyRegion
  | startNotAligned
  | endNotAligned
  | reservedExceedsTotal
  | noUsablePages
  | notPageAligned
  | doubleFree
  | notOwned
  | indexOutOfBounds
  /-- Arithmetic that a debug build checks. -/
  | overflow
  /-- The loop did not end in the given number of rounds. -/
  | diverges

def isKernelAddress (addr : Nat) : Bool := (addr >>> 48) &&& 1 == 1

namespace State

def fillMeta (s : State) (metaArray index order : Nat) (value : UInt8) : State :=
  { s with mem := s.mem.fill (metaArray + index) value (2 ^ order) }

/-- The block becomes the head of the list of its order. -/
def pushBlock (s : State) (zone block index order : Nat) : State :=
  let m := s.mem.setWord (block + 16) zone
  let m := m.setWord (block + 24) index
  { s with
    mem := push m (s.freeArea order) block
    freeArea := Function.update s.freeArea order block }

/-! ### `add_range` -/

/-- The loop that finds out how many pages the header and the meta array take. -/
def reservedPages (total : Nat) : (fuel reserved : Nat) → Except Panic Nat
  | 0,        _        => .error .diverges
  | fuel + 1, reserved =>
    if total < reserved then .error .reservedExceedsTotal
    else
      let needed := (total - reserved + zoneSize + pageSize - 1) / pageSize
      if needed = reserved then .ok reserved else reservedPages total fuel needed

/-- The order of the next block when a new zone is divided. -/
def carveOrder (usable current : Nat) : Nat :=
  let alignOrder := if current = 0 then maxOrder - 1 else trailingZeros current
  min (min alignOrder (Nat.log2 (usable - current))) (maxOrder - 1)

/-- The loop that divides a new zone, for as many rounds as it has pages. -/
def carve (zone metaArray dataBase usable : Nat) : (rounds : Nat) → State → (current : Nat) → State
  | 0,          s, _       => s
  | rounds + 1, s, current =>
    if current < usable then
      let order := carveOrder usable current
      let s := s.fillMeta metaArray current order (UInt8.ofNat order ||| freeFlag)
      carve zone metaArray dataBase usable rounds
        (s.pushBlock zone (dataBase + current * pageSize) current order) (current + 2 ^ order)
    else s

/-- The header of the new zone is at the end of the reserved pages. -/
def addZone (s : State) (start reserved usable : Nat) : State :=
  let dataBase := start + reserved * pageSize
  let zone := start + reserved * pageSize - zoneSize
  { s with
    mem := writeZone (s.mem.fill start 0 usable) zone start dataBase usable s.zoneHead
    zoneHead := zone
    totalPages := (s.totalPages + usable) % 2 ^ 64
    lowestAddress :=
      if s.lowestAddress = 0 ∨ dataBase < s.lowestAddress then dataBase else s.lowestAddress }

def addRange (debug : Bool) (fuel : Nat) (s : State) (start stop : Nat) : Except Panic State :=
  if debug && isKernelAddress start != s.isDmap then .error .dmapMismatch
  else if stop ≤ start then .error .emptyRegion
  else if start &&& (pageSize - 1) ≠ 0 then .error .startNotAligned
  else if stop &&& (pageSize - 1) ≠ 0 then .error .endNotAligned
  else
    let total := (stop - start) / pageSize
    if total = 0 then .ok s
    else do
      let reserved ← reservedPages total fuel 0
      let usable := total - reserved
      if usable = 0 then .error .noUsablePages
      else
        let dataBase := start + reserved * pageSize
        .ok (carve (dataBase - zoneSize) start dataBase usable usable
          (s.addZone start reserved usable) 0)

/-! ### `alloc_pages` -/

/-- The loop that splits a block of order `target + n`. -/
def split (zone metaArray pageI target : Nat) : (n : Nat) → State → State
  | 0,     s => s
  | n + 1, s =>
    let splitOrder := target + n
    let splitI := pageI + 2 ^ splitOrder
    let s := s.fillMeta metaArray splitI splitOrder (UInt8.ofNat splitOrder ||| freeFlag)
    split zone metaArray pageI target n
      (s.pushBlock zone (zoneDataBase s.mem zone + splitI * pageSize) splitI splitOrder)

/-- The first block of the list of `currentOrder` is allocated. -/
def takeBlock (s : State) (target currentOrder : Nat) : Nat × State :=
  let head := s.freeArea currentOrder
  let s :=
    { s with
      mem := pop s.mem head
      freeArea := Function.update s.freeArea currentOrder (next s.mem head) }
  let zone := blockZone s.mem head
  let pageI := blockPageIndex s.mem head
  let metaArray := zoneMetaArray s.mem zone
  let s := s.fillMeta metaArray pageI target (UInt8.ofNat target)
  let s := split zone metaArray pageI target (currentOrder - target) s
  (zoneDataBase s.mem zone + pageI * pageSize,
    { s with allocatedPages := (s.allocatedPages + 2 ^ target) % 2 ^ 64 })

/-- The search in the last `n` lists. -/
def allocFrom (s : State) (target : Nat) : (n : Nat) → Nat × State
  | 0     => (0, s)
  | n + 1 =>
    if s.freeArea (maxOrder - (n + 1)) ≠ 0 then s.takeBlock target (maxOrder - (n + 1))
    else s.allocFrom target n

/-- The address of the block, or 0. -/
def allocPages (s : State) (target : Nat) : Nat × State :=
  if maxOrder ≤ target then (0, s) else s.allocFrom target (maxOrder - target)

/-! ### `free_pages` -/

/-- Whether the pages from `index` on are a free block of the order. -/
def isFreeBuddy (s : State) (zone index order : Nat) : Bool :=
  let metaVal := s.mem (zoneMetaArray s.mem zone + index)
  !(metaVal &&& freeFlag == 0 || metaVal &&& ~~~freeFlag != UInt8.ofNat order)

def unlinkBlock (s : State) (order block : Nat) : State :=
  let unlinked := unlink s.mem (s.freeArea order) block
  { s with
    mem := unlinked.1
    freeArea := Function.update s.freeArea order unlinked.2 }

/-- The loop that merges a block with its buddies, for at most `n` rounds. -/
def merge (zone : Nat) : (n : Nat) → State → (pageIndex order : Nat) → State × Nat × Nat
  | 0,     s, pageIndex, order => (s, pageIndex, order)
  | n + 1, s, pageIndex, order =>
    let index := pageIndex ^^^ (1 <<< order)
    if zoneTotalPages s.mem zone ≤ index ∨ zoneTotalPages s.mem zone < index + 2 ^ order then
      (s, pageIndex, order)
    else if s.isFreeBuddy zone index order then
      merge zone n (s.unlinkBlock order (zoneDataBase s.mem zone + index * pageSize))
        (pageIndex &&& complement (1 <<< order)) (order + 1)
    else (s, pageIndex, order)

def freeBlockInZone (s : State) (zone pageIndex order : Nat) : Except Panic State :=
  let (s, pageIndex, order) := merge zone (maxOrder - 1 - order) s pageIndex order
  let s := s.fillMeta (zoneMetaArray s.mem zone) pageIndex order (UInt8.ofNat order ||| freeFlag)
  if order < maxOrder then
    .ok (s.pushBlock zone (zoneDataBase s.mem zone + pageIndex * pageSize) pageIndex order)
  else .error .indexOutOfBounds

/-- `zone.data_base + zone.total_pages * PAGE_SIZE`, which wraps in a release build. -/
def zoneEnd (debug : Bool) (m : Mem) (zone : Nat) : Except Panic Nat :=
  let sum := zoneDataBase m zone + zoneTotalPages m zone * pageSize
  if debug = true ∧ 2 ^ 64 ≤ sum then .error .overflow else .ok (sum % 2 ^ 64)

def freeFrom (debug : Bool) (addr : Nat) (s : State) : (fuel zone : Nat) → Except Panic State
  | 0,        _    => .error .diverges
  | fuel + 1, zone =>
    if zone = 0 then .error .notOwned
    else do
      let dataStart := zoneDataBase s.mem zone
      let dataEnd ← zoneEnd debug s.mem zone
      if dataStart ≤ addr ∧ addr < dataEnd then
        let off := addr - dataStart
        if off % pageSize ≠ 0 then .error .notPageAligned
        else
          let index := off / pageSize
          let metaVal := s.mem (zoneMetaArray s.mem zone + index)
          if metaVal &&& freeFlag ≠ 0 then .error .doubleFree
          else
            let order := (metaVal &&& ~~~freeFlag).toNat
            let allocatedPages := (s.allocatedPages + (2 ^ 64 - 2 ^ order % 2 ^ 64)) % 2 ^ 64
            freeBlockInZone { s with allocatedPages } zone index order
      else freeFrom debug addr s fuel (zoneNext s.mem zone)

def freePages (debug : Bool) (fuel : Nat) (s : State) (pagesPtr : Nat) : Except Panic State :=
  if pagesPtr = 0 then .ok s else freeFrom debug pagesPtr s fuel s.zoneHead

end State

end Mars.Pm
