import FlowGraph.Id

/-! # Faults

An operation on a graph fails for one of these reasons. The first three concern the program being
represented, and the graph stays as it was. The others say that an operation was applied where it
has no meaning, or met a representation that contradicts itself. -/

namespace FlowGraph

inductive Fault where
  /-- The last instruction of the block names a label that is bound to no block. -/
  | undefinedLabel (label : Label) (block : BlockId)
  /-- The last instruction of the block needs a destination and has none. -/
  | missingTarget (block : BlockId)
  /-- Nothing may branch to the entry block, so it has no labels. -/
  | entryLabel (label : Label)
  /-- Entry and exit belong to the graph for good. -/
  | sentinelDestroyed (block : BlockId)
  /-- The run holds a sentinel or does not start in the layout. -/
  | cannotDetach (first last : BlockId)
  /-- The run is not detached, or has no place behind this block. -/
  | cannotAttachAfter (pivot first last : BlockId)
  /-- The run is not detached, or has no place in front of this block. -/
  | cannotAttachBefore (pivot first last : BlockId)
  /-- A block lists an edge that has been deleted. -/
  | danglingEdge (edge : EdgeId)
  /-- A handle that names no block of the arena. -/
  | outOfRange (block : BlockId)
  /-- A count would leave the range of a 64-bit word. -/
  | countOverflow
  /-- A block that still has edges cannot be retired. -/
  | edgesRemain (block : BlockId)
  /-- Links of the representation lead in a circle, so that following them does not end. -/
  | endless
deriving DecidableEq, Repr, Inhabited

namespace Fault

def message : Fault → String
  | undefinedLabel l b => s!"Undefined label {l} referenced from {b}"
  | missingTarget b => s!"Control transfer in {b} has no target label"
  | entryLabel l => s!"Label {l} cannot be bound to the entry block"
  | sentinelDestroyed b => s!"sentinel {b} cannot be destroyed"
  | cannotDetach f l => s!"cannot detach {f}..={l}"
  | cannotAttachAfter p f l => s!"cannot attach {f}..={l} after {p}"
  | cannotAttachBefore p f l => s!"cannot attach {f}..={l} before {p}"
  | danglingEdge e => s!"{e} is referenced by a block but not allocated"
  | outOfRange b => s!"{b} is not a block of this graph"
  | countOverflow => "count out of range"
  | edgesRemain b => s!"{b} still has edges"
  | endless => "links lead in a circle"

instance : ToString Fault := ⟨message⟩

end Fault

/-- Goes on if `c` holds and fails with `f` otherwise. -/
def require (c : Prop) [Decidable c] (f : Fault) : Except Fault Unit :=
  if c then .ok () else .error f

theorem require_eq_ok {c : Prop} [Decidable c] {f : Fault} : require c f = .ok () ↔ c := by
  by_cases h : c <;> simp [require, h]

/-- A sequence of two steps succeeds exactly if the second one does on what the first one gives. -/
theorem bind_eq_ok {α β : Type} {x : Except Fault α} {f : α → Except Fault β} {b : β} :
    x >>= f = .ok b ↔ ∃ a, x = .ok a ∧ f a = .ok b := by
  cases x <;> simp [bind, Except.bind]

end FlowGraph
