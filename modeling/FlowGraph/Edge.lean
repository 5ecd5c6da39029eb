import FlowGraph.Id

/-! # Control flow edges -/

namespace FlowGraph

/-- Why control can pass along an edge. -/
inductive EdgeKind where
  /-- It falls through to the next block of the layout. -/
  | fallthru
  /-- A branch or jump table names the destination. -/
  | branch
  /-- An exception goes to its handler, or leaves the function. -/
  | except
  /-- The function returns, always to the exit block. -/
  | ret
deriving DecidableEq, Repr, Inhabited

namespace EdgeKind

def all : List EdgeKind := [fallthru, branch, except, ret]

def name : EdgeKind → String
  | fallthru => "fallthru"
  | branch => "branch"
  | except => "except"
  | ret => "return"

def ofName? (s : String) : Option EdgeKind := all.find? (·.name == s)

/-- The destination is named by a label or is the exit block, so the edge can be given another
destination without moving a block. Only falling through depends on the layout. -/
def isExplicit : EdgeKind → Bool
  | fallthru => false
  | branch | except | ret => true

instance : ToString EdgeKind := ⟨name⟩

end EdgeKind

structure Edge where
  src : BlockId
  dst : BlockId
  kind : EdgeKind
deriving DecidableEq, Repr, Inhabited

end FlowGraph
