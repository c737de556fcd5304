import Mars.Lib.ByteReader
import Mars.Aml.Parser
import Mars.Aml.Grammar
import Mars.Aml.RoundTrip
import Mars.Block.Basic
import Mars.Block.Invariant
import Mars.Block.Flat
import Mars.Sched.Basic
import Mars.Sched.Places
import Mars.Sched.Conservation
import Mars.Sched.Exclusion
import Mars.Sched.ContextAccess
import Mars.Lib.NodeTree
import Mars.Lib.Intervals
import Mars.Paging.Basic
import Mars.Paging.Invariant
import Mars.Paging.Mapper
import Mars.Paging.Reclaim
import Mars.Paging.Refinement
import Mars.Paging.Blocks
import Mars.Paging.BlockMapper
import Mars.Paging.TableEntries
import Mars.Paging.FreeTables
import Mars.Paging.Beside
import Mars.Paging.Clone
import Mars.Paging.Apart
import Mars.Paging.Independence
import Mars.Vm.Basic
import Mars.Vm.View
import Mars.Vm.Cursor
import Mars.Vm.Operations
import Mars.Vm.Status
import Mars.Vm.Indices
import Mars.Vm.Drop
import Mars.Vm.Locks
import Mars.Vm.Threads
import Mars.Vm.Placement
import Mars.Vm.RangeExclusion
import Mars.Lib.Bits
import Mars.Lib.Memory
import Mars.Lib.DList
import Mars.Lib.Ownership
import Mars.Pm.Basic
import Mars.Pm.Edits
import Mars.Block.Accounting
import Mars.Block.Flush
import Mars.Block.Exclusive
import Mars.Block.AllOrNothing
import Mars.Gic.LpiAllocator
import Mars.Gic.Msi
import Mars.Lib.Ring
import Mars.Gic.CommandQueue
import Mars.Lib.Tokens
import Mars.Gic.Its
import Mars.Gic.Unshared
import Mars.Gic.LowestFirst
import Mars.Gic.MapFailure
import Mars.Files.Lookup
import Mars.Files.File
import Mars.Sync.RwLock
import Mars.Sync.SleepingMutex
import Mars.Sync.TicketLock
import Mars.Aml.Checked
import Mars.Aml.Progress
import Mars.Aml.Agreement
import Mars.Aml.Ast
import Mars.Aml.Device
import Mars.Aml.Stream
import Mars.Aml.Total
import Mars.Pm.Buddy
import Mars.Pm.Operations
import Mars.Pm.AddRange
import Mars.Pm.Canonical
import Mars.Pm.Reach
import Mars.Pm.Partition
import Mars.Pm.FreePages
import Mars.Pm.Dmap
import Mars.Pm.Shift
import Mars.Pm.Transition
import Mars.Pm.Simulation
import Mars.Pm.ReachDmap
import Mars.Earlyinit.Mem
import Mars.Earlyinit.HandOver
import Mars.Earlyinit.Stages
import Mars.Pm.Exhaustion
import Mars.Slab.Basic
import Mars.Slab.Large
import Mars.Lib.Fields
import Mars.Gic.Commands
import Mars.Gic.Registers
import Mars.Files.InodeSize
import Mars.Files.Open
import Mars.Aml.Namespace
import Mars.Aml.Parents
import Mars.Lib.Merge
import Mars.Earlyinit.Relocate
import Mars.Earlyinit.MapBuffer
import Mars.Lib.Sweep
import Mars.Earlyinit.DirectMap
import Mars.Pm.Bounds
import Mars.Earlyinit.Descriptors
import Mars.Gic.Topology
import Mars.Aml.EisaId
import Mars.Aml.CompatibleIds
import Mars.Aml.Crs
import Mars.Acpi.Madt
import Mars.Bootloader.Elf
import Mars.Bootloader.Reads
import Mars.Bootloader.Placement
import Mars.Lib.PowerMask
import Mars.Pcie.Ecam
import Mars.Pcie.Bar
