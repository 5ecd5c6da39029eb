import FlowGraph.Graph.Basic

/-! # Consistency

The representation of a graph says some things twice. The check compares the two: links of
neighbours in the layout, the count of live blocks, the arrays of a block with the edges in the
pool, and the status of the blocks that edges touch. It reports every contradiction it meets and
changes nothing. -/

namespace FlowGraph

/-! ## Violations -/

inductive Violation where
  /-- A block lists an edge that has been deleted. -/
  | danglingEdge (block : BlockId) (edge : EdgeId)
  /-- A block lists as outgoing an edge that starts at another block. -/
  | wrongSource (edge : EdgeId) (block : BlockId)
  /-- A block lists as incoming an edge that ends at another block. -/
  | wrongDestination (edge : EdgeId) (block : BlockId)
  /-- An edge is not listed exactly once by its source and once by its destination. -/
  | asymmetric (edge : EdgeId) (succs preds : Nat)
  /-- An edge touches a block outside the layout. -/
  | edgeToDeadBlock (edge : EdgeId) (block : BlockId)
  /-- The block behind this one in the layout does not point back, or there is none. -/
  | brokenLink (block : BlockId)
  /-- Edges end at entry. -/
  | entryHasPredecessors (count : Nat)
  /-- Edges start at exit. -/
  | exitHasSuccessors (count : Nat)
  /-- The count of live blocks is not the length of the layout. -/
  | liveCount (recorded counted : Nat)
  /-- A mark has outlived its traversal. -/
  | staleMark (block : BlockId)
deriving DecidableEq, Repr, Inhabited

namespace Violation

def name : Violation → String
  | danglingEdge .. => "DanglingEdge"
  | wrongSource .. => "WrongSource"
  | wrongDestination .. => "WrongDestination"
  | asymmetric .. => "Asymmetric"
  | edgeToDeadBlock .. => "EdgeToDeadBlock"
  | brokenLink _ => "BrokenLink"
  | entryHasPredecessors _ => "EntryHasPredecessors"
  | exitHasSuccessors _ => "ExitHasSuccessors"
  | liveCount .. => "LiveCount"
  | staleMark _ => "StaleMark"

def message : Violation → String
  | danglingEdge b e => s!"{b} references freed edge {e}"
  | wrongSource e b => s!"{e} is listed as a successor of {b} but starts elsewhere"
  | wrongDestination e b => s!"{e} is listed as a predecessor of {b} but ends elsewhere"
  | asymmetric e succs preds =>
    s!"{e} is referenced {succs} times by its source and {preds} times by its destination"
  | edgeToDeadBlock e b => s!"{e} touches {b}, which is not live"
  | brokenLink b => s!"list link broken between {b} and its successor"
  | entryHasPredecessors n => s!"entry block has {n} predecessors"
  | exitHasSuccessors n => s!"exit block has {n} successors"
  | liveCount recorded counted =>
    s!"live block count is {recorded} but the list holds {counted}"
  | staleMark b => s!"{b} still carries a visited mark"

end Violation

namespace Graph

/-! ## The layout -/

/-- Follows the layout from a block as long as the block behind points back, and gives the blocks
met and the one where it breaks off, if it does. With `n` exhausted more blocks have been met than
there are, so the way goes round. -/
def survey (g : Graph) : Nat → BlockId → List BlockId → Except Fault (List BlockId × Option BlockId)
  | n, b, met => do
    match (← g.block b).next with
    | none => return ((b :: met).reverse, if b = .exit then none else some b)
    | some c =>
      if (← g.block c).prev = some b then
        match n with
        | 0 => return ((b :: met).reverse, some b)
        | n + 1 => survey g n c (b :: met)
      else return ((b :: met).reverse, some b)

def layoutViolations (g : Graph) : Except Fault (List Violation) := do
  let (met, broken) ← g.survey g.blockCount .entry []
  let stale := met.filter fun b => (g.block? b).any (·.marked)
  return stale.map .staleMark ++ (broken.map .brokenLink).toList ++
    if met.length = g.liveCount then [] else [.liveCount g.liveCount met.length]

/-! ## The arrays of blocks -/

def succViolation (g : Graph) (b : BlockId) (e : EdgeId) : Option Violation :=
  match g.edges.get? e with
  | none => some (.danglingEdge b e)
  | some edge => if edge.src = b then none else some (.wrongSource e b)

def predViolation (g : Graph) (b : BlockId) (e : EdgeId) : Option Violation :=
  match g.edges.get? e with
  | none => some (.danglingEdge b e)
  | some edge => if edge.dst = b then none else some (.wrongDestination e b)

def arrayViolations (g : Graph) (b : BlockId) (data : Block) : List Violation :=
  data.succs.filterMap (g.succViolation b) ++ data.preds.filterMap (g.predViolation b)

/-! ## The edges in the pool -/

def endViolation (e : EdgeId) (b : BlockId) (data : Block) : List Violation :=
  if data.isLive then [] else [.edgeToDeadBlock e b]

/-- Checks that an edge is listed once at each end and that both ends are live. -/
def edgeViolations (g : Graph) (e : EdgeId) (edge : Edge) : Except Fault (List Violation) := do
  let src ← g.block edge.src
  let dst ← g.block edge.dst
  let succs := src.succs.count e
  let preds := dst.preds.count e
  return (if succs = 1 ∧ preds = 1 then [] else [.asymmetric e succs preds]) ++
    endViolation e edge.src src ++ endViolation e edge.dst dst

/-! ## The whole graph -/

/-- Every block of the arena with its handle. -/
def members (g : Graph) : List (BlockId × Block) :=
  g.blocks.toList.zipIdx.map fun (data, i) => (⟨i⟩, data)

/-- Every contradiction in the representation: layout, arrays, edges, then the two ends of the
layout, where no edge may enter or leave. -/
def violations (g : Graph) : Except Fault (List Violation) := do
  let layout ← g.layoutViolations
  let arrays := g.members.flatMap fun (b, data) => g.arrayViolations b data
  let edges ← g.edges.entries.mapM fun (e, edge) => g.edgeViolations e edge
  let entry ← g.block .entry
  let exit ← g.block .exit
  return layout ++ arrays ++ edges.flatten ++
    (if entry.preds = [] then [] else [.entryHasPredecessors entry.preds.length]) ++
    (if exit.succs = [] then [] else [.exitHasSuccessors exit.succs.length])

end Graph

end FlowGraph
