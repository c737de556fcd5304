import Mars.Lib.Intervals
import Mars.Pm.ReachDmap

/-!
# Giving memory to the page allocator

Embedding of `populate_alloc_stage0` and `populate_alloc_stage1` of `earlyinit/mem.rs`. The first
stage gives the allocator the largest piece of conventional memory, at physical addresses. Once the
direct map is set up, the second one joins adjacent descriptors of normal memory and adds the rest
there.
-/

namespace Mars.Earlyinit

open Lib.Bits Lib.Intervals Pm Vm

/-! ### The memory map -/

/-- The types that matter here. -/
inductive MemoryType where
  | loaderData
  | bootServicesCode
  | bootServicesData
  | conventional
  | other (value : UInt32)
deriving DecidableEq

/-- `uefi::boot::PAGE_SIZE` -/
def uefiPageSize : Nat := 4096

/-- `MemoryAttribute::RUNTIME` -/
def attrRuntime : UInt64 := 0x8000000000000000

structure MemoryDescriptor where
  ty : MemoryType
  physStart : UInt64
  pageCount : UInt64
  att : UInt64

namespace MemoryDescriptor

def isRuntime (d : MemoryDescriptor) : Bool := d.att &&& attrRuntime == attrRuntime

/-- `is_normal_desc` -/
def isNormal (d : MemoryDescriptor) : Bool :=
  !d.isRuntime && match d.ty with
    | .bootServicesCode | .bootServicesData | .conventional | .loaderData => true
    | .other _ => false

/-- `page_count as usize * UEFI_PS` -/
def size (d : MemoryDescriptor) : Nat := d.pageCount.toNat * uefiPageSize % 2 ^ 64

def start (d : MemoryDescriptor) : Nat := d.physStart.toNat

def stop (d : MemoryDescriptor) : Nat := (d.start + d.size) % 2 ^ 64

def range (d : MemoryDescriptor) : Interval :=
  ⟨d.physStart.toNat, d.physStart.toNat + d.pageCount.toNat * uefiPageSize⟩

end MemoryDescriptor

/-! ### The code -/

def alignDown (addr : Nat) : Nat := addr &&& complement (pageSize - 1)

def alignUp (addr : Nat) : Nat := (addr + pageSize - 1) % 2 ^ 64 &&& complement (pageSize - 1)

/-- `Iterator::max_by_key`, which returns the last one of several. -/
def maxByKey (key : MemoryDescriptor → UInt64) (l : List MemoryDescriptor) :
    Option MemoryDescriptor :=
  l.foldl (fun best x => match best with
    | none      => some x
    | some best => if key best ≤ key x then some x else some best) none

/-- The descriptor that the first stage takes. -/
def stage0Entry (map : List MemoryDescriptor) : Option MemoryDescriptor :=
  maxByKey (·.pageCount) (map.filter fun x => x.ty == .conventional && 4 * pageSize ≤ x.size)

section Code

variable (debug : Bool) (fuel rounds : Nat)

def populateAllocStage0 (s : State) (map : List MemoryDescriptor) : Except Panic State :=
  match stage0Entry map with
  | none       => .ok s
  | some entry => s.addRange debug fuel (alignUp entry.start) (alignDown entry.stop)

def addSubrange (s : State) (start stop : Nat) : Except Panic State :=
  let start := physAddrToDmap (alignUp start)
  let stop := physAddrToDmap (alignDown stop)
  if start < stop then
    if 4 * pageSize ≤ stop - start then s.addRange debug fuel start stop else .ok s
  else .ok s

def flush (s : State) (start stop : Nat) : Except Panic State := do
  match ← s.overlappingRange debug rounds start stop with
  | some (overlapStart, overlapStop) =>
    let s ← (if start < overlapStart then addSubrange debug fuel s start overlapStart else .ok s)
    if overlapStop < stop then addSubrange debug fuel s overlapStop stop else .ok s
  | none => addSubrange debug fuel s start stop

/-- Flush what was joined so far, if there is anything. -/
def flushCurrent (s : State) : (currentStart currentStop : Option Nat) → Except Panic State
  | some start, some stop => flush debug fuel rounds s start stop
  | _,          _         => .ok s

def populateFrom (s : State) (currentStart currentStop : Option Nat) :
    List MemoryDescriptor → Except Panic State
  | []           => flushCurrent debug fuel rounds s currentStart currentStop
  | entry :: map =>
    if entry.isNormal && currentStop == some entry.start then
      populateFrom s currentStart (some entry.stop) map
    else do
      let s ← flushCurrent debug fuel rounds s currentStart currentStop
      if entry.isNormal then populateFrom s (some entry.start) (some entry.stop) map
      else populateFrom s none none map

def populateAllocStage1 (s : State) (map : List MemoryDescriptor) : Except Panic State :=
  populateFrom debug fuel rounds s none none (map.filter (·.isNormal))

def handOver (m : Lib.Mem) (map : List MemoryDescriptor) : Except Panic State := do
  let s ← populateAllocStage0 debug fuel ⟨.new, m⟩ map
  let s ← s.transitionDmap debug rounds
  populateAllocStage1 debug fuel rounds s map

end Code

end Mars.Earlyinit
