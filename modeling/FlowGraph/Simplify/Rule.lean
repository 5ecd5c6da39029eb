import FlowGraph.Graph.Incidence
import FlowGraph.Graph.Labels
import FlowGraph.Graph.Layout
import FlowGraph.Simplify.Report

/-! # Reduction rules

A rule looks at one block and reduces the graph around it, or leaves the graph as it is. What an
edge says of control flow is also said by an instruction, a dead end, a label or the layout, so a
rule that changes one of them changes the others with it. -/

namespace FlowGraph.Graph

/-- Tries a reduction at a block; none if the rule does not apply there. -/
abbrev Rule := Graph → BlockId → Except Fault (Graph × Option Reduction)

/-! ## Branches -/

/-- A branch to the next block becomes a no-op. Its edge becomes a fallthrough, or goes if the block
has other edges, for then the block falls through anyway. -/
def foldBranch : Rule := fun g b => do
  let data ← g.block b
  match data.succs with
  | [] => return (g, none)
  | e :: rest =>
    let edge ← g.edge e
    if edge.kind = .branch ∧ data.next = some edge.dst ∧ data.last?.any (·.opcode.isBranch) then
      let g := g.modify b (·.modifyLast fun _ => .plain .nop)
      let g ←
        if rest = [] then
          pure { g.modify b ({ · with deadEnd := false }) with
            edges := g.edges.modify e ({ · with kind := .fallthru }), order := none }
        else g.disconnect e
      return (g, some (.branchFolded b))
    else return (g, none)

/-- A conditional branch becomes unconditional if the block falls through into an empty block that
does nothing but branch to the same destination. -/
def foldConditional : Rule := fun g b => do
  let data ← g.block b
  match data.next, data.succs with
  | some next, [e, f] =>
    let taken ← g.edge e
    let fall ← g.edge f
    if data.last?.any (·.opcode.flow = .conditionalBranch) ∧ taken.kind = .branch ∧
        fall.kind = .fallthru ∧ fall.dst = next then
      let between ← g.block next
      match between.succs with
      | [j] =>
        let jump ← g.edge j
        if jump.kind = .branch ∧ jump.dst = taken.dst ∧ between.isEmpty then
          let g := g.modify b fun data =>
            { data.modifyLast (·.withOpcode .br) with deadEnd := true }
          return (← g.disconnect f, some (.conditionalFolded b next taken.dst))
        else return (g, none)
      | _ => return (g, none)
    else return (g, none)
  | _, _ => return (g, none)

/-! ## Empty blocks -/

/-- Sends an edge that enters `b` to `target`, unless it enters by falling through. The state holds
the fallthrough met last and the number of edges sent on. -/
def passEdge (b target : BlockId) (state : Graph × Option EdgeId × Nat) (e : EdgeId) :
    Except Fault (Graph × Option EdgeId × Nat) := do
  let (g, kept, moved) := state
  let edge ← g.edge e
  if edge.kind.isExplicit then
    let g ← g.redirect e target
    require (edge.dst = b) .endless
    return (g, kept, moved + 1)
  else return (g, some e, moved)

/-- Sends the fallthrough met last to `target` as well, provided the block it enters falls through. -/
def passKept (target : BlockId) (kind : EdgeKind) (state : Graph × Option EdgeId × Nat) :
    Except Fault (Graph × Nat) := do
  let (g, kept, moved) := state
  match kept, kind with
  | some e, .fallthru => return (← g.redirect e target, moved + 1)
  | _, _ => return (g, moved)

def passLabels (g : Graph) (b target : BlockId) : Option Label → Except Fault Graph
  | none => .ok g
  | some l => (g.modify b ({ · with label := none })).moveLabels target (some l)

/-- An empty block with one edge, a branch or a fallthrough, gives its labels and the edges that
enter it to its successor. A fallthrough into the block can only be sent on if the block itself
falls through to its successor; otherwise the block stays for its sake. A block left without
incoming edges is retired. -/
def mergeEmpty : Rule := fun g b => do
  let data ← g.block b
  match data.succs with
  | [out] =>
    let edge ← g.edge out
    if (edge.kind = .branch ∨ edge.kind = .fallthru) ∧ edge.dst ≠ b ∧ data.isEmpty then
      let target := edge.dst
      let g ← g.passLabels b target data.label
      let state ← data.preds.foldlM (passEdge b target) (g, none, 0)
      let (g, moved) ← passKept target edge.kind state
      if (← g.block b).preds = [] then
        let g ← (← g.disconnect out).retire b
        return (g, some (.blockMerged b target moved))
      else if data.label.isSome ∨ 0 < moved then return (g, some (.blockMerged b target moved))
      else return (g, none)
    else return (g, none)
  | _ => return (g, none)

end FlowGraph.Graph
