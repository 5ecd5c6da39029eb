import FlowGraph.Graph.Incidence
import FlowGraph.Graph.Labels
import FlowGraph.Graph.Layout

/-! # Listings

A listing shows the blocks in layout order, each with its labels, its instructions and its outgoing
edges. -/

namespace FlowGraph

/-- How entry and exit are told from other blocks in a listing. -/
def BlockId.role (b : BlockId) : String :=
  if b = .entry then " (entry)" else if b = .exit then " (exit)" else ""

namespace Graph

def heading (g : Graph) (b : BlockId) : Except Fault String := do
  let labels ← g.labelsOf b
  return b.text ++ b.role ++ String.join (labels.map (" " ++ ·.text))

def blockListing (g : Graph) (b : BlockId) : Except Fault String := do
  let data ← g.block b
  let heading ← g.heading b
  let out ← g.outEdges b
  return heading ++ (if data.deadEnd then " dead" else "") ++ ":\n" ++
    String.join (data.instrs.map fun i => s!"    {i}\n") ++
    String.join (out.map fun (_, ⟨_, dst, kind⟩) => s!"    -> {dst} {kind}\n")

/-- Puts together what is shown of each block on the way through the layout. -/
def eachBlock (g : Graph) (f : BlockId → Except Fault String) : Except Fault String := do
  let way := g.trail
  let parts ← way.blocks.mapM f
  let _ ← way.finish
  return String.join parts

def listing (g : Graph) : Except Fault String := g.eachBlock g.blockListing

/-- Sizes at a glance. -/
def debug (g : Graph) : String :=
  let entry := BlockId.entry.debug
  let exit := BlockId.exit.debug
  let live := g.liveCount
  let retired := g.retired.size
  let edges := g.edgeCount
  s!"Function \x7b entry: {entry}, exit: {exit}, live_blocks: {live}, " ++
    s!"deleted_blocks: {retired}, edges: {edges}, .. \x7d"

end Graph

end FlowGraph
