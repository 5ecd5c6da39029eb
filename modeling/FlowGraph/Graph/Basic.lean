import FlowGraph.Block
import FlowGraph.Edge.Pool
import FlowGraph.Fault
import FlowGraph.Label.Table

/-! # The control flow graph of one function

A graph owns an arena of blocks, threaded by their links into the *layout*: a doubly linked list
from the entry block to the exit block. Beside it stand the pool of edges, the label table, the
blocks retired so far and, between two changes, the postorder computed last.

The same facts are kept more than once: an edge is in the pool and in the arrays of its two ends, a
block's status says whether it is in the layout, and the number of live blocks is counted as they
come and go. Every read of a block or an edge can fail, because a representation may contradict
itself; the operations fail before they change anything. -/

namespace FlowGraph

structure Graph where
  blocks : Array Block
  /-- Number of blocks in the layout, entry and exit included. -/
  liveCount : Nat
  /-- Retired blocks, in the order in which they left. -/
  retired : Array BlockId
  edges : EdgePool
  labels : LabelTable
  /-- Postorder computed last, until the next change that could alter it. -/
  order : Option (List BlockId)
  /-- Label of the handler of exceptions, if there is one. -/
  catcher : Option Label
deriving DecidableEq, Repr

namespace Graph

/-- The graph that holds only entry and exit, in this order. -/
def initial : Graph :=
  { blocks := #[{ Block.fresh with status := .live, next := some .exit },
      { Block.fresh with status := .live, prev := some .entry }]
    liveCount := 2, retired := #[], edges := .empty, labels := .empty, order := none
    catcher := none }

instance : Inhabited Graph := ⟨initial⟩

/-! ## Reading -/

def block? (g : Graph) (b : BlockId) : Option Block := g.blocks[b.index]?

/-- The block of a handle, which must belong to the graph. -/
def block (g : Graph) (b : BlockId) : Except Fault Block :=
  match g.block? b with
  | some data => .ok data
  | none => .error (.outOfRange b)

/-- The edge of a handle that some block lists. -/
def edge (g : Graph) (e : EdgeId) : Except Fault Edge :=
  match g.edges.get? e with
  | some data => .ok data
  | none => .error (.danglingEdge e)

def blockCount (g : Graph) : Nat := g.blocks.size

def edgeCount (g : Graph) : Nat := g.edges.size

/-- The block behind `b` in the layout, or the first one. -/
def after (g : Graph) : Option BlockId → Except Fault (Option BlockId)
  | some b => (g.block b).map (·.next)
  | none => .ok (some .entry)

/-- The block in front of `b` in the layout, or the last one. -/
def before (g : Graph) : Option BlockId → Except Fault (Option BlockId)
  | some b => (g.block b).map (·.prev)
  | none => .ok (some .exit)

/-! ## Writing -/

/-- Changes one block in place; nothing happens if the handle names none. -/
def modify (g : Graph) (b : BlockId) (f : Block → Block) : Graph :=
  { g with blocks := g.blocks.modify b.index f }

/-- Changes one block in place, which must belong to the graph. -/
def update (g : Graph) (b : BlockId) (f : Block → Block) : Except Fault Graph :=
  if b.index < g.blocks.size then .ok (g.modify b f) else .error (.outOfRange b)

def modifyAll (g : Graph) (bs : List BlockId) (f : Block → Block) : Graph :=
  bs.foldl (fun g b => g.modify b f) g

/-! ### How a change of one block is seen -/

theorem block_eq_ok {g : Graph} {b : BlockId} {data : Block} :
    g.block b = .ok data ↔ g.block? b = some data := by
  unfold block
  split <;> simp_all

theorem update_eq_ok {g g' : Graph} {b : BlockId} {f : Block → Block} :
    g.update b f = .ok g' ↔ (g.block? b).isSome ∧ g.modify b f = g' := by
  unfold update
  split <;> simp_all [block?]

theorem block?_modify (g : Graph) (b c : BlockId) (f : Block → Block) :
    (g.modify b f).block? c = if c = b then (g.block? c).map f else g.block? c := by
  obtain ⟨i⟩ := b
  obtain ⟨j⟩ := c
  simp only [block?, modify, Array.getElem?_modify, BlockId.mk.injEq, eq_comm (a := i)]

@[simp] theorem blockCount_modify (g : Graph) (b : BlockId) (f : Block → Block) :
    (g.modify b f).blockCount = g.blockCount := by
  simp [blockCount, modify]

end Graph

end FlowGraph
