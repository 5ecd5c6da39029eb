import FlowGraph.Graph.Unreachable
import FlowGraph.Simplify.Rule

/-! # Simplification

A round drops the unreachable blocks and then tries the reduction rules on each block that was
reached, in postorder, so that what follows a block is reduced before the block. A reduction can
make room for others, also at blocks already passed, so rounds go on until one makes none or a limit
is met. A run that ends of its own accord keeps the postorder of its last round, in which no rule
applied. -/

namespace FlowGraph

/-- Which rules to use, and after how many rounds to stop at the latest; one round is always made.
-/
structure Settings where
  maxRounds : Option Nat
  foldBranches : Bool
  mergeEmpty : Bool
deriving DecidableEq, Repr

namespace Settings

def standard : Settings := ⟨none, true, true⟩

instance : Inhabited Settings := ⟨standard⟩

/-- The rules to be tried on each block, in this order. -/
def rules (s : Settings) : List Graph.Rule :=
  (if s.foldBranches then [Graph.foldBranch, Graph.foldConditional] else []) ++
    (if s.mergeEmpty then [Graph.mergeEmpty] else [])

/-- No round may follow the `n`th. -/
def exhausted (s : Settings) (n : Nat) : Bool := s.maxRounds.any (· ≤ n)

end Settings

namespace Graph

/-! ## One round -/

/-- Tries a rule at a block and adds to the reductions made so far, the last one first. -/
def tryRule (b : BlockId) (state : Graph × List Reduction) (rule : Rule) :
    Except Fault (Graph × List Reduction) := do
  let (g, made) := state
  let (g, r) ← rule g b
  return (g, r.toList ++ made)

/-- Tries the rules one after the other at a block, if it is still live. Entry and exit stay as they
are. -/
def reduceBlock (rules : List Rule) (state : Graph × List Reduction) (b : BlockId) :
    Except Fault (Graph × List Reduction) := do
  if b = .entry ∨ b = .exit then return state
  else if (← state.1.block b).isLive then rules.foldlM (tryRule b) state
  else return state

/-- Drops what cannot be reached and reduces the rest. Gives the postorder it went by. -/
def simplifyRound (g : Graph) (s : Settings) : Except Fault (List BlockId × Round × Graph) := do
  let (order, g) ← g.markReached
  let (dropped, g) ← g.eliminate order
  let (g, made) ← order.foldlM (reduceBlock s.rules) (g, [])
  return (order, ⟨dropped, made.reverse, g.liveCount⟩, g)

/-! ## Rounds without end -/

/-- Makes rounds until one makes no reduction or the limit is met. `made` holds the rounds so far,
the last one first. -/
def simplifyFrom (s : Settings) : Nat → List Round → Graph → Except Fault (Report × Graph)
  | 0, _, _ => .error .endless
  | n + 1, made, g => do
    let (order, round, g) ← g.simplifyRound s
    let made := round :: made
    if !round.changed then return (⟨made.reverse, true⟩, { g with order := some order })
    else if s.exhausted made.length then return (⟨made.reverse, false⟩, g)
    else simplifyFrom s n made g

/-- Rounds that a run can make at most: as many as a 64-bit word counts, and more only for a graph
too large for such a word. -/
def roundBound (g : Graph) : Nat := UInt64.size + 2 * (g.liveCount + g.edgeCount)

/-- Simplifies the graph, starting from the edges it has. -/
def simplify (g : Graph) (s : Settings) : Except Fault (Report × Graph) :=
  simplifyFrom s g.roundBound [] g

end Graph

end FlowGraph
