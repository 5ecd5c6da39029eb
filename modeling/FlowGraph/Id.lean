/-! # Handles

Blocks and edges live in arenas owned by one graph and are named by their position there. A block
handle stays meaningful for the whole life of the graph, because a removed block keeps its place;
an edge handle may be issued again once its edge has been deleted. Labels are numbered by the
client. Each kind of handle is a type of its own, so that none can be used for another. -/

namespace FlowGraph

/-! ## Blocks -/

/-- Position of a block in the arena of its graph. -/
structure BlockId where
  index : Nat
deriving DecidableEq, Repr, Inhabited

namespace BlockId

/-- The permanent first block, where control enters. -/
def entry : BlockId := ⟨0⟩

/-- The permanent last block, where control leaves. -/
def exit : BlockId := ⟨1⟩

def text (b : BlockId) : String := "B" ++ toString b.index

def debug (b : BlockId) : String := "BlockId(" ++ toString b.index ++ ")"

instance : ToString BlockId := ⟨text⟩

end BlockId

/-! ## Edges -/

/-- Slot of an edge in the edge pool of its graph. -/
structure EdgeId where
  index : Nat
deriving DecidableEq, Repr, Inhabited

namespace EdgeId

def text (e : EdgeId) : String := "e" ++ toString e.index

def debug (e : EdgeId) : String := "EdgeId(" ++ toString e.index ++ ")"

instance : ToString EdgeId := ⟨text⟩

end EdgeId

/-! ## Labels -/

/-- Symbolic branch target. An undefined label is the absence of one. -/
structure Label where
  id : UInt32
deriving DecidableEq, Repr, Inhabited

namespace Label

def slot (l : Label) : Nat := l.id.toNat

def text (l : Label) : String := "L" ++ toString l.slot

def debug (l : Label) : String := "Label(" ++ toString l.slot ++ ")"

instance : ToString Label := ⟨text⟩

end Label

/-! ## Metadata tags -/

/-- Key under which a value is attached to a block. -/
structure MetaTag where
  value : UInt32
deriving DecidableEq, Repr, Inhabited

namespace MetaTag

/-- First value of the range kept for internal use. -/
def reservedStart : UInt32 := 10000

/-- The tag `offset` values into the reserved range, or the greatest tag if there is none so far up.
-/
def internal (offset : UInt32) : MetaTag :=
  ⟨.ofNat (min (reservedStart.toNat + offset.toNat) (UInt32.size - 1))⟩

def isReserved (t : MetaTag) : Bool := reservedStart ≤ t.value

def debug (t : MetaTag) : String := "MetaTag(" ++ toString t.value ++ ")"

end MetaTag

end FlowGraph
