import FlowGraph.Fault
import FlowGraph.Log

/-! # What a simplification did

A run reports, round by round, the unreachable blocks it dropped and the reductions it made, in the
order in which they happened. Counters and log are read off the report. -/

namespace FlowGraph

/-! ## Reports -/

/-- A reduction that took place. -/
inductive Reduction where
  /-- A branch of `block` to the next block became a fallthrough. -/
  | branchFolded (block : BlockId)
  /-- A conditional branch of `block` became unconditional: its fallthrough to `next` led on to
  `dst`, where the branch goes too. -/
  | conditionalFolded (block next dst : BlockId)
  /-- The empty block `block` gave its label or edges to `target`; `moved` edges go there now. -/
  | blockMerged (block target : BlockId) (moved : Nat)
deriving DecidableEq, Repr, Inhabited

namespace Reduction

def isBranchFolded : Reduction → Bool
  | branchFolded _ => true
  | _ => false

def isConditionalFolded : Reduction → Bool
  | conditionalFolded .. => true
  | _ => false

def isBlockMerged : Reduction → Bool
  | blockMerged .. => true
  | _ => false

/-- Number of edges that a reduction gave another destination. -/
def moved : Reduction → Nat
  | blockMerged _ _ n => n
  | _ => 0

def message : Reduction → String
  | branchFolded b => s!"{b}: branch to next block folded into fallthrough"
  | conditionalFolded b next dst =>
    s!"{b}: conditional branch folded, {next} and the branch both reach {dst}"
  | blockMerged b target _ => s!"{b}: empty block merged into {target}"

end Reduction

/-- One round: the blocks dropped, the reductions made, and the live blocks left. -/
structure Round where
  dropped : List BlockId
  reductions : List Reduction
  live : Nat
deriving DecidableEq, Repr, Inhabited

/-- Something was reduced, so that another round may find more to do. -/
def Round.changed (r : Round) : Bool := !r.reductions.isEmpty

/-- A whole run. It is settled if its last round rewrote nothing. -/
structure Report where
  rounds : List Round
  settled : Bool
deriving DecidableEq, Repr, Inhabited

/-! ## Counters -/

structure Tally where
  rounds : Nat
  blocksDropped : Nat
  branchesFolded : Nat
  conditionalsFolded : Nat
  blocksMerged : Nat
  edgesMoved : Nat
deriving DecidableEq, Repr, Inhabited

namespace Tally

/-- Number of reductions that called for another round. -/
def reductions (t : Tally) : Nat := t.branchesFolded + t.conditionalsFolded + t.blocksMerged

/-- The number of reductions, provided it fits a 64-bit word. -/
def reductionCount (t : Tally) : Except Fault Nat := do
  require (t.reductions < UInt64.size) .countOverflow
  return t.reductions

end Tally

namespace Report

def reductions (r : Report) : List Reduction := r.rounds.flatMap (·.reductions)

def tally (r : Report) : Tally :=
  { rounds := r.rounds.length
    blocksDropped := (r.rounds.flatMap (·.dropped)).length
    branchesFolded := r.reductions.countP (·.isBranchFolded)
    conditionalsFolded := r.reductions.countP (·.isConditionalFolded)
    blocksMerged := r.reductions.countP (·.isBlockMerged)
    edgesMoved := r.reductions.foldl (fun n made => n + made.moved) 0 }

end Report

/-! ## Log -/

def droppedLine (b : BlockId) : LogLine := ⟨.trace, s!"eliminated unreachable {b}"⟩

/-- The lines of a round, which is the `n`th of its run. -/
def Round.log (r : Round) (n : Nat) : List LogLine :=
  let unreachable := r.dropped.length
  let live := r.live
  let changed := r.changed
  r.dropped.map droppedLine ++ r.reductions.map (⟨.trace, ·.message⟩) ++
    [⟨.debug,
      s!"clean round {n}: {unreachable} unreachable, {live} live blocks, changed={changed}"⟩]

def Tally.summary (t : Tally) : String :=
  let ⟨rounds, dropped, branches, conditionals, merged, _⟩ := t
  s!"clean finished after {rounds} rounds: {dropped} eliminated, {branches} branches folded, " ++
    s!"{conditionals} conditionals folded, {merged} merged"

/-- The lines of a whole run: its rounds, a warning if it stopped before it settled, a summary. -/
def Report.log (r : Report) : List LogLine :=
  let n := r.rounds.length
  (r.rounds.zipIdx 1).flatMap (fun (round, i) => round.log i) ++
    (if r.settled then []
      else [⟨.warn, s!"clean stopped after {n} rounds without reaching a fixed point"⟩]) ++
    [⟨.debug, r.tally.summary⟩]

end FlowGraph
