import FlowGraph.Graph.Code
import FlowGraph.Graph.Terminator
import FlowGraph.Proofs.Outcome
import FlowGraph.Simplify.Run

/-! # Runs of operations

A client builds and changes a graph by one operation after the other. An operation that fails leaves
the graph as it was, so a run of operations has a result whatever they are. What holds of the
initial graph and is kept by each operation holds of every graph that a run leads to; where an
operation keeps it only under some condition, the run has to meet the condition at each step. -/

namespace FlowGraph

/-- What a client may ask of a graph. -/
inductive Operation where
  | create
  | append
  | destroy (b : BlockId)
  | detach (first last : BlockId)
  | attachAfter (pivot first last : BlockId)
  | attachBefore (pivot first last : BlockId)
  | push (b : BlockId) (i : Instr)
  /-- Puts another instruction in the place of the last one of a block. -/
  | replaceLast (b : BlockId) (i : Instr)
  | setDeadEnd (b : BlockId) (dead : Bool)
  | bindLabel (b : BlockId) (l : Label)
  | setCatcher (l : Option Label)
  | setMeta (b : BlockId) (t : MetaTag) (v : MetaValue)
  | eraseMeta (b : BlockId) (t : MetaTag)
  | connect (src dst : BlockId) (kind : EdgeKind)
  | redirect (e : EdgeId) (dst : BlockId)
  | disconnect (e : EdgeId)
  | disconnectAll
  | build
  | postorder
  | simplify (s : Settings)
deriving DecidableEq, Repr

namespace Operation

/-- The graph that an operation leads to. -/
def apply (g : Graph) : Operation → Except Fault Graph
  | create => .ok g.create.2
  | append => (·.2) <$> g.append
  | destroy b => g.destroy b
  | detach first last => g.detach first last
  | attachAfter pivot first last => g.attachAfter pivot first last
  | attachBefore pivot first last => g.attachBefore pivot first last
  | push b i => g.push b i
  | replaceLast b i => g.modifyLast b fun _ => i
  | setDeadEnd b dead => g.setDeadEnd b dead
  | bindLabel b l => g.bindLabel b l
  | setCatcher l => .ok { g with catcher := l }
  | setMeta b t v => g.setMeta b t v
  | eraseMeta b t => g.eraseMeta b t
  | connect src dst kind => (·.2) <$> g.connect src dst kind
  | redirect e dst => g.redirect e dst
  | disconnect e => g.disconnect e
  | disconnectAll => .ok g.disconnectAll
  | build => g.build
  | postorder => (·.2) <$> g.postorder
  | simplify s => (·.2) <$> g.simplify s

end Operation

namespace Graph

/-! ## Carrying out operations -/

def perform (g : Graph) (op : Operation) : Graph :=
  match op.apply g with
  | .ok g' => g'
  | .error _ => g

def performAll (g : Graph) (ops : List Operation) : Graph := ops.foldl perform g

/-- Each operation of a run meets a condition in the state in which it is carried out. -/
def Throughout (ok : Graph → Operation → Prop) : Graph → List Operation → Prop
  | _, [] => True
  | g, op :: ops => ok g op ∧ Throughout ok (g.perform op) ops

instance Throughout.decidable (ok : Graph → Operation → Prop) [∀ g op, Decidable (ok g op)] :
    (g : Graph) → (ops : List Operation) → Decidable (Throughout ok g ops)
  | _, [] => inferInstanceAs (Decidable True)
  | g, op :: ops =>
    have := Throughout.decidable ok (g.perform op) ops
    inferInstanceAs (Decidable (_ ∧ _))

/-! ## Invariants of runs -/

variable {g : Graph} {inv : Graph → Prop}

theorem perform_of_yields {op : Operation} (holds : inv g)
    (step : Yields (fun _ => True) (op.apply g) inv) : inv (g.perform op) := by
  unfold perform
  cases result : op.apply g with
  | ok g' => exact step.of_eq_ok result
  | error f => exact holds

theorem Throughout.induction {ok : Graph → Operation → Prop}
    (keeps : ∀ g op, ok g op → inv g → inv (g.perform op)) {ops : List Operation} {g : Graph}
    (run : Throughout ok g ops) (start : inv g) : inv (g.performAll ops) := by
  induction ops generalizing g with
  | nil => exact start
  | cons op ops ih => exact ih run.2 (keeps g op run.1 start)

/-- The condition is met wherever the run is cut before an operation. -/
theorem throughout_iff {ok : Graph → Operation → Prop} {ops : List Operation} {g : Graph} :
    Throughout ok g ops ↔
      ∀ before op after, ops = before ++ op :: after → ok (g.performAll before) op := by
  induction ops generalizing g with
  | nil => simp [Throughout]
  | cons op ops ih =>
    rw [Throughout, ih]
    constructor
    · intro ⟨first, rest⟩ before op' after split
      cases before with
      | nil =>
        cases split
        exact first
      | cons op₁ before =>
        cases split
        exact rest before op' after rfl
    · intro each
      exact ⟨each [] op ops rfl, fun before op' after split =>
        each (op :: before) op' after (congrArg _ split)⟩

theorem throughout_of_forall {ok : Graph → Operation → Prop} {ops : List Operation}
    (each : ∀ op ∈ ops, ∀ g, ok g op) : ∀ g : Graph, Throughout ok g ops := by
  induction ops with
  | nil => exact fun _ => trivial
  | cons op ops ih =>
    intro g
    obtain ⟨first, rest⟩ := List.forall_mem_cons.1 each
    exact ⟨first g, ih rest (g.perform op)⟩

end Graph

end FlowGraph
