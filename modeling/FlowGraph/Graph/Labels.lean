import FlowGraph.Graph.Basic

/-! # Labels of a graph

A label is bound to one block at a time. The labels of a block form a chain that starts at its
primary label and leads from each label to the one that was primary before it. Binding puts a label
in front of the chain of its block; moving the labels of one block to another takes them over one by
one, which turns their order round. -/

namespace FlowGraph.Graph

/-! ## Looking up -/

/-- The block a label is bound to. -/
def resolve (g : Graph) (l : Label) : Option BlockId := g.labels.resolve l

/-- The label behind `l` in the chain of `b`; none if `l` is not bound to `b`. -/
def olderLabel (g : Graph) (b : BlockId) (l : Label) : Option Label :=
  ((g.labels.get? l).filter (·.block = some b)).bind (·.older)

/-- The label behind a given one in the chain of `b`, or the first one. -/
def labelAfter (g : Graph) (b : BlockId) : Option Label → Except Fault (Option Label)
  | some l => .ok (g.olderLabel b l)
  | none => (g.block b).map (·.label)

/-- At most `n` labels of the chain of `b`, from a given one on. -/
def chain (g : Graph) (b : BlockId) : Nat → Option Label → List Label
  | 0, _ => []
  | _, none => []
  | n + 1, some l => l :: chain g b n (g.olderLabel b l)

/-- The first `n` labels of a block, the primary one first. -/
def firstLabels (g : Graph) (b : BlockId) (n : Nat) : Except Fault (List Label) := do
  return g.chain b n (← g.block b).label

/-- The labels of a block, the primary one first. All labels of a chain but its last are bound, so
one longer than the table by two has met some label twice and does not end. -/
def labelsOf (g : Graph) (b : BlockId) : Except Fault (List Label) := do
  let ls ← g.firstLabels b (g.labels.capacity + 2)
  require (ls.length < g.labels.capacity + 2) .endless
  return ls

/-! ## Binding -/

/-- Binds a label to a block, whose primary label it becomes. A label already bound to the block
stays where it is in the chain. -/
def bindLabel (g : Graph) (b : BlockId) (l : Label) : Except Fault Graph := do
  require (b ≠ .entry) (.entryLabel l)
  if g.resolve l = some b then return g
  let data ← g.block b
  let g := { g with labels := g.labels.bind l b data.label }
  return g.modify b ({ · with label := some l })

/-- Takes the labels of a chain over to `b`, each in front of those `b` has by then.

The links met on the way are turned round. A chain that runs into itself is therefore followed back
to where it began, and no label comes up more than twice unless the way never ends; that bounds the
number of steps. -/
def takeLabels (g : Graph) (b : BlockId) : Nat → Option Label → Except Fault Graph
  | _, none => .ok g
  | 0, some _ => .error .endless
  | n + 1, some l => do
    let data ← g.block b
    match g.labels.get? l with
    | none => return g
    | some slot =>
      let g := { g with labels := g.labels.set l ⟨some b, data.label⟩ }
      takeLabels (g.modify b ({ · with label := some l })) b n slot.older

def moveLabels (g : Graph) (b : BlockId) (l : Option Label) : Except Fault Graph :=
  g.takeLabels b (2 * g.labels.capacity + 2) l

end FlowGraph.Graph
