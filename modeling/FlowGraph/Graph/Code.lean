import FlowGraph.Graph.Basic

/-! # Instructions and dead code

Code is emitted at the end of a block. Whether the place of emission can be reached at all is
answered without looking at edges: a block counts as reachable if control may fall into it from the
entry block or from a labelled one. The answer errs on the side of reachable. -/

namespace FlowGraph.Graph

/-! ## Instructions -/

def push (g : Graph) (b : BlockId) (i : Instr) : Except Fault Graph := g.update b (·.push i)

def last? (g : Graph) (b : BlockId) : Except Fault (Option Instr) := (g.block b).map (·.last?)

/-- Changes the last instruction of a block, if there is one. -/
def modifyLast (g : Graph) (b : BlockId) (f : Instr → Instr) : Except Fault Graph :=
  g.update b (·.modifyLast f)

/-! ## Dead ends -/

/-- Says whether control falls out of the bottom of a block, whatever its instructions are. -/
def setDeadEnd (g : Graph) (b : BlockId) (dead : Bool) : Except Fault Graph :=
  g.update b ({ · with deadEnd := dead })

/-- Walks back from `b` as long as control may fall in from the block before, until it meets the
entry block or a labelled one. -/
def entered (g : Graph) : Nat → BlockId → Except Fault Bool
  | 0, _ => .error .endless
  | n + 1, b => do
    if b = .entry then return true
    let data ← g.block b
    if data.label.isSome then return true
    match data.prev with
    | none => return false
    | some p =>
      if (← g.block p).deadEnd then return false
      entered g n p

/-- Control may come to `b` by falling through from the entry block or a labelled one, or `b` is
such a block itself. No block outside the layout is reachable. -/
def isReachable (g : Graph) (b : BlockId) : Except Fault Bool := do
  if (← g.block b).isLive then g.entered (g.blockCount + 1) b else return false

/-- The block that decides whether the end of `b` can be reached: the nearest one, from `b`
backwards, that is the entry block, has a label or holds an instruction. -/
def controlling (g : Graph) : Nat → BlockId → Except Fault (Option BlockId)
  | 0, _ => .error .endless
  | n + 1, b => do
    if b = .entry then return some b
    let data ← g.block b
    if !data.instrs.isEmpty || data.label.isSome then return some b
    match data.prev with
    | none => return none
    | some p => controlling g n p

/-- Code emitted at the end of the last block before exit could never run. -/
def currentIsDead (g : Graph) : Except Fault Bool := do
  match (← g.block .exit).prev with
  | none => return true
  | some p =>
    match ← g.controlling (g.blockCount + 1) p with
    | none => return true
    | some c =>
      if (← g.block c).deadEnd then return true
      return !(← g.isReachable c)

/-! ## Metadata -/

def setMeta (g : Graph) (b : BlockId) (t : MetaTag) (v : MetaValue) : Except Fault Graph :=
  g.update b fun data => { data with metadata := data.metadata.set t v }

def getMeta (g : Graph) (α : Type) [Storable α] (b : BlockId) (t : MetaTag) :
    Except Fault (Option α) :=
  (g.block b).map (·.metadata.get? α t)

def eraseMeta (g : Graph) (b : BlockId) (t : MetaTag) : Except Fault Graph :=
  g.update b fun data => { data with metadata := data.metadata.erase t }

end FlowGraph.Graph
