import FlowGraph.Graph.Incidence
import FlowGraph.Graph.Layout
import FlowGraph.Graph.Postorder

/-! # Unreachable blocks

After a search has marked what it reached, every block of the layout without a mark can go: its
edges are deleted and it is retired. The marks have then served their purpose and are cleared. -/

namespace FlowGraph.Graph

/-! ## Deleting the edges of a block -/

/-- Deletes the edges that `b` lists on one side, the last of the array first, until none is left.
Each deletion shortens the array by one; if one does not, the array names an edge of another block
and no number of deletions empties it. -/
def dropSide (g : Graph) (side : Block → List EdgeId) (b : BlockId) : Nat → Except Fault Graph
  | 0 => do
    require (side (← g.block b) = []) .endless
    return g
  | n + 1 => do
    match (side (← g.block b)).getLast? with
    | none => return g
    | some e => dropSide (← g.disconnect e) side b n

/-- Deletes the edges of a block, outgoing ones first, and retires it. -/
def drop (g : Graph) (b : BlockId) : Except Fault Graph := do
  let g ← g.dropSide (·.succs) b (← g.block b).succs.length
  let g ← g.dropSide (·.preds) b (← g.block b).preds.length
  g.retire b

/-! ## Sweeping the layout -/

/-- Goes on through the layout from a block and drops every block without a mark, up to exit. Gives
the dropped blocks, the last one first. -/
def sweep (g : Graph) : Nat → Option BlockId → List BlockId → Except Fault (List BlockId × Graph)
  | _, none, dropped => .ok (dropped, g)
  | 0, some _, _ => .error .endless
  | n + 1, some b, dropped => do
    if b = .exit then return (dropped, g)
    let data ← g.block b
    if data.marked then sweep g n data.next dropped
    else sweep (← g.drop b) n data.next (b :: dropped)

/-- Steps a sweep can take at most: between two drops it meets no block twice, unless it goes round
for ever, and no block is dropped twice. -/
def sweepBound (g : Graph) : Nat := (g.blockCount + 1) * (g.blockCount + 1)

/-- Drops every block of the layout behind entry that has no mark, and clears the marks of `order`.
Gives the dropped blocks in layout order. -/
def eliminate (g : Graph) (order : List BlockId) : Except Fault (List BlockId × Graph) := do
  let first := (← g.block .entry).next
  let (dropped, g) ← g.sweep g.sweepBound first []
  return (dropped.reverse, ← g.clearMarks order)

end FlowGraph.Graph
