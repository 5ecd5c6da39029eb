import FlowGraph.Graph.Incidence
import FlowGraph.Graph.Labels
import FlowGraph.Graph.Layout
import FlowGraph.Log

/-! # Edges from terminators

The edges of a graph follow from its blocks: what the last instruction of a block does gives zero or
more explicit edges, and a block that is not a dead end falls through to the next one of the layout.
All edges are worked out before the first one is made, so that a transfer to nowhere is reported
while the graph still has the edges it had. -/

namespace FlowGraph.Graph

/-! ## The edges that a block calls for -/

/-- The block of a label named in `b`. -/
def target (g : Graph) (b : BlockId) (l : Label) : Except Fault BlockId :=
  match g.resolve l with
  | some dst => .ok dst
  | none => .error (.undefinedLabel l b)

/-- The block of the destination label of an instruction in `b`. -/
def destination (g : Graph) (b : BlockId) (i : Instr) : Except Fault BlockId :=
  match i.dest with
  | some l => g.target b l
  | none => .error (.missingTarget b)

/-- Where exceptions go: to the handler, or to exit if there is none or its label is not bound. -/
def handler (g : Graph) : BlockId := (g.catcher.bind g.resolve).getD .exit

/-- Destinations and kinds of the edges for the last instruction `i` of `b`. -/
def transfers (g : Graph) (b : BlockId) (i : Instr) : Except Fault (List (BlockId × EdgeKind)) :=
  match i.opcode.flow with
  | .ret => .ok [(.exit, .ret)]
  | .branch | .conditionalBranch => do return [(← g.destination b i, .branch)]
  | .callHandler => do return [(← g.destination b i, .except)]
  | .throw | .call => .ok [(g.handler, .except)]
  | .jumpTable => i.table.mapM fun l => do return (← g.target b l, .branch)
  | .sequential => .ok []

/-- Destination and kind of the edge by which control leaves the bottom of a block. -/
def fallthrough (data : Block) : List (BlockId × EdgeKind) :=
  if data.deadEnd then [] else (data.next.map (·, .fallthru)).toList

/-- Destinations and kinds of all edges that leave `b`, those of its last instruction first. -/
def outgoing (g : Graph) (b : BlockId) : Except Fault (List (BlockId × EdgeKind)) := do
  let data ← g.block b
  let explicit ←
    match data.last? with
    | none => pure []
    | some i => g.transfers b i
  return explicit ++ fallthrough data

/-- The edges that leave `b`, all of which must end in the arena. -/
def plannedFrom (g : Graph) (b : BlockId) : Except Fault (List Edge) := do
  (← g.outgoing b).mapM fun (dst, kind) => do
    let _ ← g.block dst
    return ⟨b, dst, kind⟩

/-- The edges of the graph, block by block from entry up to exit. -/
def planned (g : Graph) : Except Fault (List Edge) := do
  let way := g.body
  let es ← way.blocks.mapM g.plannedFrom
  let _ ← way.finish
  return es.flatten

/-! ## Building -/

def connectAll (g : Graph) (es : List Edge) : Except Fault Graph :=
  es.foldlM (fun g e => do return (← g.connect e.src e.dst e.kind).2) g

/-- Replaces the edges of a graph by those its blocks call for. -/
def build (g : Graph) : Except Fault Graph := do
  let es ← g.planned
  g.disconnectAll.connectAll es

def builtLine (g : Graph) : LogLine :=
  let live := g.liveCount
  let edges := g.edgeCount
  ⟨.debug, s!"built cfg: {live} live blocks, {edges} edges"⟩

end FlowGraph.Graph
