import FlowGraph.Graph.Basic

/-! # Edges of a graph

An edge is in the pool, once in the successor array of its source and once in the predecessor array
of its destination. The operations here keep these three in step; each of them makes a cached
postorder invalid. -/

namespace FlowGraph.Graph

/-! ## Reading -/

def edgesOf (g : Graph) (es : List EdgeId) : Except Fault (List (EdgeId × Edge)) :=
  es.mapM fun e => do return (e, ← g.edge e)

/-- The edges that leave a block, in the order of its array. -/
def outEdges (g : Graph) (b : BlockId) : Except Fault (List (EdgeId × Edge)) := do
  g.edgesOf (← g.block b).succs

/-- The edges that enter a block, in the order of its array. -/
def inEdges (g : Graph) (b : BlockId) : Except Fault (List (EdgeId × Edge)) := do
  g.edgesOf (← g.block b).preds

/-! ## Changing -/

def connect (g : Graph) (src dst : BlockId) (kind : EdgeKind) : Except Fault (EdgeId × Graph) := do
  let e := g.edges.nextSlot
  let g ← g.update src fun data => { data with succs := data.succs ++ [e] }
  let g ← g.update dst fun data => { data with preds := data.preds ++ [e] }
  return (e, { g with edges := g.edges.insert ⟨src, dst, kind⟩, order := none })

/-- Deletes an edge; nothing happens if its slot is vacant. -/
def disconnect (g : Graph) (e : EdgeId) : Except Fault Graph :=
  match g.edges.get? e with
  | none => .ok g
  | some edge => do
    let g ← g.update edge.src fun data => { data with succs := data.succs.erase e }
    let g ← g.update edge.dst fun data => { data with preds := data.preds.erase e }
    return { g with edges := g.edges.dealloc e, order := none }

/-- Gives an edge another destination, where it comes last. -/
def redirect (g : Graph) (e : EdgeId) (dst : BlockId) : Except Fault Graph := do
  let _ ← g.block dst
  let edge ← g.edge e
  let g ← g.update edge.dst fun data => { data with preds := data.preds.erase e }
  let g := { g with edges := g.edges.modify e ({ · with dst := dst }), order := none }
  g.update dst fun data => { data with preds := data.preds ++ [e] }

/-- Deletes all edges at once, and with them every slot of the pool. -/
def disconnectAll (g : Graph) : Graph :=
  { g with
    blocks := g.blocks.map ({ · with succs := [], preds := [] })
    edges := g.edges.clear, order := none }

end FlowGraph.Graph
