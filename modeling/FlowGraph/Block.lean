import FlowGraph.Instr
import FlowGraph.Metadata

/-! # Basic blocks

A block knows its instructions, its neighbours in the layout, the edges that leave and enter it, and
its primary label. Its own handle is its place in the arena and is not repeated here. -/

namespace FlowGraph

/-- Where a block stands in the life of its graph. -/
inductive Status where
  /-- Not in the layout; it may be linked in. -/
  | detached
  /-- In the layout. -/
  | live
  /-- Taken out of the graph by a pass; its handle still means it. -/
  | retired
  /-- Its data has been given up. -/
  | destroyed
deriving DecidableEq, Repr, Inhabited

def Status.name : Status → String
  | detached => "Detached"
  | live => "Live"
  | retired => "Retired"
  | destroyed => "Destroyed"

structure Block where
  instrs : List Instr
  /-- Primary label, the head of the block's chain of labels. -/
  label : Option Label
  /-- Control never falls out of the bottom. -/
  deadEnd : Bool
  /-- Visited by a traversal whose marks are still in use. -/
  marked : Bool
  status : Status
  prev : Option BlockId
  next : Option BlockId
  /-- Outgoing edges, in the order in which they were added. -/
  succs : List EdgeId
  /-- Incoming edges, in the order in which they were added. -/
  preds : List EdgeId
  metadata : Metadata
deriving DecidableEq, Repr, Inhabited

namespace Block

/-- A new block: detached, with nothing in it. -/
def fresh : Block :=
  { instrs := [], label := none, deadEnd := false, marked := false, status := .detached
    prev := none, next := none, succs := [], preds := [], metadata := .empty }

def isLive (b : Block) : Bool := b.status = .live

def last? (b : Block) : Option Instr := b.instrs.getLast?

/-- Holds nothing but no-ops, offset markers and unconditional branches. -/
def isEmpty (b : Block) : Bool := b.instrs.all (·.opcode.isTrivial)

/-- Adds an instruction at the end. One after which control cannot go on makes the block a dead
end; no other changes that. -/
def push (b : Block) (i : Instr) : Block :=
  { b with instrs := b.instrs ++ [i], deadEnd := b.deadEnd || i.opcode.endsInDead }

def modifyLast (b : Block) (f : Instr → Instr) : Block :=
  match b.instrs.getLast? with
  | some i => { b with instrs := b.instrs.dropLast ++ [f i] }
  | none => b

def release (b : Block) : Block := { b with instrs := [], succs := [], preds := [] }

end Block

end FlowGraph
