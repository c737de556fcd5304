import Mathlib.Tactic.Common

/-!
# The device tree

Embedding of `klib/src/hardware/{device,resource}.rs`: an arena of device nodes that are linked
by their indices. Addresses and lengths are `usize`, interrupt numbers and topology ids `u32`.
-/

namespace Mars.Hardware

inductive Resource where
  | mmio (start stop : UInt64)
  | irq (n : UInt32)
deriving DecidableEq, Repr

inductive DeviceInitPriority where
  | regular
  | fundamental
deriving DecidableEq, Repr

inductive DeviceClass where
  | cpu (id acpiUid : UInt32)
  | uart
  | timer
  | gicV3 (redistributorCount : UInt32)
  | pciHostBridge
  | other
deriving DecidableEq, Repr

/-- An index into the arena. -/
structure DeviceId where
  idx : Nat
deriving DecidableEq, Repr

structure DeviceNode where
  id : DeviceId
  priority : DeviceInitPriority
  parent : Option DeviceId
  cls : DeviceClass
  compatible : List String
  resources : List Resource
  children : List DeviceId
deriving DecidableEq, Repr

structure DeviceTree where
  nodes : List DeviceNode := []
  roots : List DeviceId := []
deriving DecidableEq, Repr

/-- `self.nodes[i].children.push(id)`, which panics when `i` is out of bounds. -/
def DeviceTree.pushChild (nodes : List DeviceNode) (i : Nat) (id : DeviceId) :
    Option (List DeviceNode) :=
  match nodes[i]? with
  | some node => some (nodes.set i { node with children := node.children ++ [id] })
  | none      => none

/-- `add_device`. There is no result when the index of the parent is out of bounds. -/
def DeviceTree.addDevice (tree : DeviceTree) (parent : Option DeviceId) (cls : DeviceClass)
    (compatible : List String) (resources : List Resource) (priority : DeviceInitPriority) :
    Option (DeviceId × DeviceTree) :=
  let id : DeviceId := { idx := tree.nodes.length }
  let node : DeviceNode :=
    { id := id, parent := parent, priority := priority, cls := cls, compatible := compatible,
      resources := resources, children := [] }
  let nodes := tree.nodes ++ [node]
  match parent with
  | some parentId =>
    (DeviceTree.pushChild nodes parentId.idx id).map fun nodes => (id, { tree with nodes := nodes })
  | none => some (id, { nodes := nodes, roots := tree.roots ++ [id] })

end Mars.Hardware
