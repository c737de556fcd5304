import Mathlib.Algebra.Group.Nat.Defs
import Mathlib.Tactic.Common
import Mathlib.Logic.Relation

/-!
# The block storage graph

Embedding of `klib/src/block/mod.rs`. A `Provider` is either the adapter of a device or a
partition of another provider; consumers attach to providers and keep the number of read, write
and exclusive references they hold. Every `Partition` owns a consumer of its parent.

An `Arc<SleepingMutex<dyn Provider>>` is the value that describes the provider, which never changes;
the counts are kept in the graph under the number of the partition. Every call runs to its end with
the locks it takes, so the locks are left out.
-/

namespace Mars.Block

inductive BlockError where
  | outOfBounds
  | unalignedBuffer
  | hardwareError
  | readOnly
  | notReady
  | inUse
  | invalidPartition
  | invalidBlockSize
  | accessUnderflow
  | notSupported
deriving DecidableEq, Repr

/-- A byte slice. No allocation is longer than `isize::MAX`. -/
structure Slice where
  bytes : List UInt8
  length_lt : bytes.length < 2 ^ 63

inductive Command where
  | read (buf : Slice)
  | write (buf : Slice)
  | flush
  | delete (blocks : UInt64)

structure IoRequest where
  cmd : Command
  lba : UInt64

/-! ### Devices -/

/-- The calls of the trait `BlockDevice` that reach the hardware. -/
inductive DeviceCall where
  | flush
  | readBlocks (lba : UInt64) (buf : Slice)
  | writeBlocks (lba : UInt64) (buf : Slice)
  | deleteBlocks (lba count : UInt64)

/-- A `BlockDevice`: its geometry, the calls it has received, and how it answers the next one.
The answers may depend on everything that happened before. -/
structure Device where
  blockSize : Nat
  blockCount : UInt64
  answer : List DeviceCall → DeviceCall → Except BlockError Unit
  log : List DeviceCall

def Device.call (dev : Device) (c : DeviceCall) : Except BlockError Unit × Device :=
  (dev.answer dev.log c, { dev with log := dev.log ++ [c] })

/-! ### Requests -/

def checkedAdd (a b : UInt64) : Option UInt64 :=
  if a.toNat + b.toNat < 2 ^ 64 then some (a + b) else none

/-- `start > cap || start.checked_add(n).ok_or(..)? > cap`. Both ways to fail give the same
error at every place that makes this test. -/
def exceeds (start n cap : UInt64) : Bool :=
  cap < start ||
    match checkedAdd start n with
    | none      => true
    | some stop => cap < stop

def Command.bufLen : Command → Nat
  | .read buf  => buf.bytes.length
  | .write buf => buf.bytes.length
  | _          => 0

def IoRequest.blocks (req : IoRequest) (blockSize : Nat) : Except BlockError UInt64 :=
  if blockSize = 0 then .error .invalidBlockSize
  else if 0 < req.cmd.bufLen ∧ req.cmd.bufLen % blockSize ≠ 0 then .error .unalignedBuffer
  else
    match req.cmd with
    | .read _ | .write _ => .ok (UInt64.ofNat (req.cmd.bufLen / blockSize))
    | .flush             => .ok 0
    | .delete blocks     => .ok blocks

def Command.isFlush : Command → Bool
  | .flush => true
  | _      => false

/-! ### Reference counts -/

/-- The read, write and exclusive counts (`isize`), or the deltas passed to update them. -/
structure Counts where
  read : Int64
  write : Int64
  exclusive : Int64
deriving DecidableEq, Repr

namespace Counts

def zero : Counts := ⟨0, 0, 0⟩

def add (c d : Counts) : Counts :=
  ⟨c.read + d.read, c.write + d.write, c.exclusive + d.exclusive⟩

def neg (c : Counts) : Counts := ⟨-c.read, -c.write, -c.exclusive⟩

/-- `new_r < 0 || new_w < 0 || new_e < 0`. -/
def anyNegative (c : Counts) : Bool := c.read < 0 || c.write < 0 || c.exclusive < 0

/-- `read > 0 || write > 0 || exclusive > 0`. -/
def anyPositive (c : Counts) : Bool := 0 < c.read || 0 < c.write || 0 < c.exclusive

end Counts

/-! ### Providers -/

inductive Provider where
  | adapter
  | partition (id : Nat) (parent : Provider) (startLba blockCount : UInt64)
deriving DecidableEq

/-- `Consumer`: the provider it is attached to and its own counts. -/
structure Consumer where
  provider : Provider
  counts : Counts

def Consumer.attach (provider : Provider) : Consumer :=
  { provider := provider, counts := Counts.zero }

/-- `HardwareAdapter`, less its name. -/
structure HardwareAdapter where
  device : Device
  counts : Counts

/-- The adapter, the counts of the parent consumer of every partition, and the consumers and
partitions that are alive. -/
structure Graph where
  adapter : HardwareAdapter
  parentCounts : Nat → Counts
  consumers : List Consumer
  partitions : List Provider

def Graph.new (dev : Device) : Graph :=
  { adapter := { device := dev, counts := Counts.zero }
    parentCounts := fun _ => Counts.zero
    consumers := []
    partitions := [] }

def Graph.setParentCounts (g : Graph) (id : Nat) (c : Counts) : Graph :=
  { g with parentCounts := Function.update g.parentCounts id c }

def Graph.device (g : Graph) : Device := g.adapter.device

def Graph.blockSize (g : Graph) : Provider → Nat
  | .adapter                => g.device.blockSize
  | .partition _ parent _ _ => g.blockSize parent

def Graph.blockCount (g : Graph) : Provider → UInt64
  | .adapter               => g.device.blockCount
  | .partition _ _ _ count => count

/-! ### Opening and closing -/

def HardwareAdapter.access (a : HardwareAdapter) (d : Counts) :
    Except BlockError Unit × HardwareAdapter :=
  let new := a.counts.add d
  if new.anyNegative then (.error .accessUnderflow, a)
  else if 0 < d.exclusive ∧ a.counts.anyPositive then (.error .inUse, a)
  else if 0 < a.counts.exclusive ∧ d.anyPositive then (.error .inUse, a)
  else if 0 < a.counts.write ∧ new.write ≤ 0 then
    -- the last writer gets dropped
    match a.device.call .flush with
    | (.ok (), dev)   => (.ok (), { device := dev, counts := new })
    | (.error e, dev) => (.error e, { a with device := dev })
  else (.ok (), { a with counts := new })

/-- `Consumer::access` on the counts of a consumer, `inner` being the `access` of its
provider. -/
def consumerAccess (c d : Counts) (inner : Graph → Except BlockError Unit × Graph) (g : Graph) :
    Except BlockError Unit × Counts × Graph :=
  let new := c.add d
  if new.anyNegative then (.error .accessUnderflow, c, g)
  else
    match inner g with
    | (.ok (), g')   => (.ok (), new, g')
    | (.error e, g') => (.error e, c, g')

/-- `Provider::access`. A partition forwards it to its parent consumer. -/
def Provider.access : Provider → Counts → Graph → Except BlockError Unit × Graph
  | .adapter, d, g =>
    let (r, a) := g.adapter.access d
    (r, { g with adapter := a })
  | .partition id parent _ _, d, g =>
    let (r, c, g') := consumerAccess (g.parentCounts id) d (parent.access d) g
    (r, g'.setParentCounts id c)

def Consumer.access (c : Consumer) (d : Counts) (g : Graph) :
    Except BlockError Unit × Consumer × Graph :=
  let (r, counts, g') := consumerAccess c.counts d (c.provider.access d) g
  (r, { c with counts := counts }, g')

/-- `Consumer::drop`. The error of the closing call is ignored. -/
def Consumer.drop (c : Consumer) (g : Graph) : Graph :=
  if c.counts.anyPositive then (c.provider.access c.counts.neg g).2 else g

/-- `Partition::new`: the new partition, numbered `id`. -/
def partitionNew (g : Graph) (id : Nat) (parent : Provider) (startLba blockCount : UInt64) :
    Except BlockError Provider :=
  if exceeds startLba blockCount (g.blockCount parent) then .error .invalidPartition
  else .ok (.partition id parent startLba blockCount)

/-! ### Submitting requests -/

/-- `Consumer::request` on the counts of a consumer. The request is handed to `inner`, the
`request` of its provider. -/
def consumerRequest (c : Counts) (blockSize : Nat) (cap : UInt64)
    (inner : IoRequest → Graph → Except BlockError Unit × Graph) (req : IoRequest) (g : Graph) :
    Except BlockError Unit × Graph :=
  match req.blocks blockSize with
  | .error e => (.error e, g)
  | .ok blocks =>
    if !req.cmd.isFlush && (cap == 0 || exceeds req.lba blocks cap) then (.error .outOfBounds, g)
    else
      match req.cmd with
      | .read buf =>
        if buf.bytes.length % blockSize ≠ 0 then (.error .unalignedBuffer, g)
        else if c.read ≤ 0 then (.error .notReady, g)
        else inner req g
      | .write buf =>
        if buf.bytes.length % blockSize ≠ 0 then (.error .unalignedBuffer, g)
        else if c.write ≤ 0 then (.error .readOnly, g)
        else inner req g
      | .delete _ => if c.write ≤ 0 then (.error .readOnly, g) else inner req g
      | .flush    => inner req g

/-- The match of `HardwareAdapter::request`. -/
def IoRequest.deviceCall (req : IoRequest) : DeviceCall :=
  match req.cmd with
  | .read buf      => .readBlocks req.lba buf
  | .write buf     => .writeBlocks req.lba buf
  | .flush         => .flush
  | .delete blocks => .deleteBlocks req.lba blocks

def HardwareAdapter.request (a : HardwareAdapter) (req : IoRequest) :
    Except BlockError Unit × HardwareAdapter :=
  let (r, dev) := a.device.call req.deviceCall
  (r, { a with device := dev })

/-- `Provider::request`. A partition checks its own bounds, shifts the request by its start and
submits it to its parent consumer. -/
def Provider.request : Provider → IoRequest → Graph → Except BlockError Unit × Graph
  | .adapter, req, g =>
    let (r, a) := g.adapter.request req
    (r, { g with adapter := a })
  | .partition id parent startLba blockCount, req, g =>
    let submit (req : IoRequest) : Except BlockError Unit × Graph :=
      consumerRequest (g.parentCounts id) (g.blockSize parent) (g.blockCount parent)
        parent.request req g
    if req.cmd.isFlush then submit req
    else
      match req.blocks (g.blockSize parent) with
      | .error e => (.error e, g)
      | .ok blocks =>
        if exceeds req.lba blocks blockCount then (.error .outOfBounds, g)
        else
          match checkedAdd req.lba startLba with
          | none     => (.error .outOfBounds, g)
          | some lba => submit { req with lba := lba }

def Consumer.request (c : Consumer) (req : IoRequest) (g : Graph) :
    Except BlockError Unit × Graph :=
  consumerRequest c.counts (g.blockSize c.provider) (g.blockCount c.provider)
    c.provider.request req g

/-! ### Runs -/

/-- One operation on the graph by its owner. Consumers attach to the adapter or to a partition
that is alive, and a partition can go away once nothing is attached to it. -/
inductive Step : Graph → Graph → Prop where
  | attach {g : Graph} (p : Provider) (hp : p = .adapter ∨ p ∈ g.partitions) :
      Step g { g with consumers := Consumer.attach p :: g.consumers }
  | access {g g' : Graph} {l₁ l₂ : List Consumer} {c c' : Consumer} {r : Except BlockError Unit}
      (d : Counts) (hc : g.consumers = l₁ ++ c :: l₂) (h : c.access d g = (r, c', g')) :
      Step g { g' with consumers := l₁ ++ c' :: l₂ }
  | request {g g' : Graph} {c : Consumer} {r : Except BlockError Unit} (req : IoRequest)
      (hc : c ∈ g.consumers) (h : c.request req g = (r, g')) : Step g g'
  | drop {g : Graph} {l₁ l₂ : List Consumer} {c : Consumer} (hc : g.consumers = l₁ ++ c :: l₂) :
      Step g { c.drop g with consumers := l₁ ++ l₂ }
  | partition {g : Graph} {l₁ l₂ : List Consumer} {c : Consumer} {p : Provider} (id : Nat)
      (startLba blockCount : UInt64) (hc : g.consumers = l₁ ++ c :: l₂)
      (hid : ∀ q ∈ g.partitions, ∀ parent s n, q ≠ .partition id parent s n)
      (h : partitionNew g id c.provider startLba blockCount = .ok p) :
      Step g { g.setParentCounts id c.counts with
        consumers := l₁ ++ l₂
        partitions := p :: g.partitions }
  | partitionError {g : Graph} {l₁ l₂ : List Consumer} {c : Consumer} {e : BlockError} (id : Nat)
      (startLba blockCount : UInt64) (hc : g.consumers = l₁ ++ c :: l₂)
      (h : partitionNew g id c.provider startLba blockCount = .error e) :
      -- the consumer was moved into the call and is dropped by its early return
      Step g { c.drop g with consumers := l₁ ++ l₂ }
  | dropPartition {g : Graph} {l₁ l₂ : List Provider} {id : Nat} {parent : Provider}
      {s n : UInt64} (hp : g.partitions = l₁ ++ .partition id parent s n :: l₂)
      (hc : ∀ c ∈ g.consumers, c.provider ≠ .partition id parent s n)
      (hq : ∀ q ∈ g.partitions, ∀ id' s' n',
        q ≠ .partition id' (.partition id parent s n) s' n') :
      Step g { Consumer.drop ⟨parent, g.parentCounts id⟩ g with partitions := l₁ ++ l₂ }

/-- The graphs that any history of operations reaches over a device. -/
def Reachable (dev : Device) (g : Graph) : Prop := Relation.ReflTransGen Step (Graph.new dev) g

end Mars.Block
