import FlowGraph.Graph.Basic

/-! # Postorder

A depth-first search from entry lists every block it reaches after all blocks it first reached
through that one, so entry comes last. The search keeps its own stack, as deep as the graph may be:
each frame is a block with those of its outgoing edges that have not been looked at. Every step
either takes an edge from a frame or finishes a frame, and a block gets a frame at most once; this
bounds the number of steps.

Blocks carry a mark while a traversal is in progress or its result in use. A search takes over the
marks it finds, and passes by a block that has one. -/

namespace FlowGraph.Graph

/-! ## Search -/

/-- Searches on from a stack of frames. `seen` holds the marks and `done` the finished blocks, the
one finished last first. -/
def search (g : Graph) : Nat → List (BlockId × List EdgeId) → Array Bool → List BlockId →
    Except Fault (List BlockId)
  | _, [], _, done => .ok done.reverse
  | 0, _ :: _, _, _ => .error .endless
  | n + 1, (b, []) :: stack, seen, done => search g n stack seen (b :: done)
  | n + 1, (b, e :: es) :: stack, seen, done => do
    let dst := (← g.edge e).dst
    let data ← g.block dst
    if seen[dst.index]? = some true then search g n ((b, es) :: stack) seen done
    else
      search g n ((dst, data.succs) :: (b, es) :: stack) (seen.setIfInBounds dst.index true) done

/-- Steps a search can take at most: one for each block and one for each outgoing edge. -/
def searchBound (g : Graph) : Nat :=
  g.blockCount + (g.blocks.toList.flatMap Block.succs).length

/-- The blocks that a search from entry lists, in postorder. -/
def reached (g : Graph) : Except Fault (List BlockId) := do
  let data ← g.block .entry
  let seen := (g.blocks.map (·.marked)).setIfInBounds BlockId.entry.index true
  g.search g.searchBound [(.entry, data.succs)] seen []

/-! ## Marks -/

/-- Sets or clears the marks of several blocks. -/
def setMarks (g : Graph) (bs : List BlockId) (marked : Bool) : Graph :=
  g.modifyAll bs ({ · with marked := marked })

/-- Clears the marks of several blocks, which must belong to the graph. -/
def clearMarks (g : Graph) (bs : List BlockId) : Except Fault Graph :=
  bs.foldlM (fun g b => g.update b ({ · with marked := false })) g

/-- Searches from entry and leaves the blocks reached marked. -/
def markReached (g : Graph) : Except Fault (List BlockId × Graph) := do
  let order ← g.reached
  return (order, { g.setMarks order true with order := none })

/-- Searches from entry and keeps the postorder for later; no block reached stays marked. -/
def postorder (g : Graph) : Except Fault (List BlockId × Graph) := do
  let (order, g) ← g.markReached
  return (order, { g.setMarks order false with order := some order })

end FlowGraph.Graph
