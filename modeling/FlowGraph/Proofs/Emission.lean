import FlowGraph.Proofs.Binding
import FlowGraph.Proofs.Consistency
import FlowGraph.Proofs.Growth
import FlowGraph.Proofs.Symmetry

/-! # Emitting code, building and simplifying

A client that only appends blocks, emits code and labels, builds and simplifies never has a block
that is neither live nor retired. What a build gives it has edges from live blocks alone, and each of
them leads to a live block too unless a label takes it to a retired one: a block that retires because
it could not be reached keeps its labels. Such edges are all that can be wrong with the graph. -/

namespace FlowGraph

/-- The operations of a client that does not move, destroy or connect blocks itself. -/
def Operation.emits : Operation → Bool
  | append | push .. | replaceLast .. | setDeadEnd .. | bindLabel .. | setCatcher _
  | disconnect _ | build | postorder | simplify _ => true
  | create | destroy _ | detach .. | attachAfter .. | attachBefore .. | setMeta .. | eraseMeta ..
  | connect .. | redirect .. | disconnectAll => false

namespace Graph

/-- What holds between the operations of such a client. -/
structure Emitted (g : Graph) : Prop where
  grown : ∃ xs, g.Grown xs
  clear : g.Clear
  accounted : g.Accounted

/-- The block has the status. -/
def HasStatus (g : Graph) (b : BlockId) (s : Status) : Prop :=
  ∃ data, g.block? b = some data ∧ data.status = s

section

variable {g g' : Graph} {xs : List BlockId}

/-! ## Operations -/

theorem Grown.bind {b : BlockId} {l : Label} (grown : g.Grown xs) (bound : Bound g b l g') :
    g'.Grown xs := by
  have resolve := bound.resolve
  obtain ⟨inner, -, data, -, rfl⟩ := bound
  refine grown.of_same (.modify _ b fun _ => rfl) rfl (fun l' => ?_) grown.target
  rw [resolve]
  split
  · exact fun here => inner (Option.some.inj here)
  · exact grown.bound l'

theorem Grown.touch (touch : Touch g g') (grown : ∃ xs, g.Grown xs) : ∃ xs, g'.Grown xs := by
  cases touch with
  | change change => exact Grown.change change grown
  | mark bs marked =>
    obtain ⟨xs, grown⟩ := grown
    exact ⟨xs, grown.setMarks bs marked⟩
  | reorder order =>
    obtain ⟨xs, grown⟩ := grown
    exact ⟨xs, grown.of_same (.refl _ g) rfl grown.bound grown.target⟩

/-- Blocks stay live or retired. -/
theorem Grown.effect (grown : g.Grown xs) {op : Operation} (emits : op.emits = true)
    (effect : Effect g op g') : ∃ xs, g'.Grown xs := by
  cases effect with
  | append ran => exact grown.append_yields.of_eq_ok ran
  | write inside writes =>
    have same : SameBlocks Block.standing g _ := (same_of_writes g writes).weaken Block.standing
    exact ⟨xs, grown.of_same same rfl grown.bound grown.target⟩
  | bind bound =>
    obtain rfl | bound := bound
    · exact ⟨xs, grown⟩
    · exact ⟨xs, grown.bind bound⟩
  | catcher l => exact ⟨xs, grown.of_same (.refl _ g) rfl grown.bound grown.target⟩
  | wire wires =>
    cases wires with
    | disconnect ran => exact ⟨xs, (grown.disconnect_yields _).of_eq_ok ran⟩
    | build ran => exact ⟨xs, (grown.build_yields.of_eq_ok ran).1⟩
    | connect | redirect | disconnectAll => cases emits
  | search searches =>
    exact searches.touches.keeps (fun h => ∃ xs, h.Grown xs) Grown.touch ⟨xs, grown⟩
  | move moves => cases moves <;> cases emits
  | create | destroy => cases emits

theorem Emitted.perform (emitted : g.Emitted) {op : Operation} (emits : op.emits = true) :
    (g.perform op).Emitted := by
  apply perform_of_effect emitted
  intro g' effect
  obtain ⟨xs, grown⟩ := emitted.grown
  have spares : g.SparesEdges op := by
    cases op with
    | destroy b => cases emits
    | _ => trivial
  exact ⟨grown.effect emits effect, emitted.clear.effect effect,
    emitted.accounted.effect spares effect⟩

/-! ## What a build gives -/

theorem Grown.hasStatus (grown : g.Grown xs) {b : BlockId} (inside : (g.block? b).isSome) :
    g.HasStatus b (if b ∈ xs then .live else .retired) := by
  obtain ⟨data, found⟩ := Option.isSome_iff_exists.1 inside
  exact ⟨data, found, grown.enrolled b data found⟩

theorem HasStatus.unique {b : BlockId} {s s' : Status} (one : g.HasStatus b s)
    (other : g.HasStatus b s') : s = s' := by
  obtain ⟨data, found, rfl⟩ := one
  obtain ⟨data', found', rfl⟩ := other
  rw [found] at found'
  cases found'
  rfl

/-- If its edges leave live blocks other than exit, the graph is consistent exactly if they lead to
live blocks too. -/
theorem Emitted.violations_iff (emitted : g.Emitted) (sources : ∀ e edge,
    g.edges.get? e = some edge → edge.src ≠ .exit ∧ g.HasStatus edge.src .live) :
    g.violations = .ok [] ↔
      ∀ e edge, g.edges.get? e = some edge → g.HasStatus edge.dst .live := by
  obtain ⟨⟨xs, grown⟩, clear, matched, -⟩ := emitted
  rw [violations_eq_nil_iff]
  constructor
  · intro ⟨ys, verified⟩ e edge stored
    obtain ⟨data, found, -, live⟩ := verified.target stored
    exact ⟨data, found, live⟩
  · intro targets
    have coherent : g.Coherent xs := by
      refine ⟨grown.laid, grown.count, matched.succs.array, matched.preds.array,
        fun {e edge} stored => ?_, fun {e edge} stored => ⟨grown.target e edge stored, ?_⟩⟩
      · obtain ⟨inner, data, found, live⟩ := sources e edge stored
        exact ⟨grown.mem_of_live found live, inner, data, found, live⟩
      · exact targets e edge stored
    exact ⟨xs, coherent.verified fun b _ => clear b⟩

end

theorem emitted_initial : initial.Emitted := by
  have laid : initial.LaidOut [.entry, .exit] :=
    ⟨by decide, rfl, rfl, .cons_cons ⟨rfl, rfl⟩ (.singleton _), rfl, rfl⟩
  have grown : initial.Grown [.entry, .exit] :=
    ⟨laid, rfl, by decide, fun l => nofun, fun e edge stored => nomatch stored⟩
  have clear : initial.Clear := by
    unfold Clear
    decide
  exact ⟨⟨_, grown⟩, clear, accounted_initial⟩

theorem performAll_emitted {ops : List Operation} (emits : ∀ op ∈ ops, op.emits = true) :
    (initial.performAll ops).Emitted :=
  have run : Throughout (fun _ op => op.emits = true) initial ops :=
    throughout_of_forall (fun op member _ => emits op member) initial
  run.induction (fun _ _ emits emitted => emitted.perform emits) emitted_initial

/-- A build after a run that only emits code gives edges from live blocks, each to a live block too
unless a label takes it to a retired one. The graph is consistent just if none is taken there. -/
theorem build_emitted (ops : List Operation) (emits : ∀ op ∈ ops, op.emits = true) {g' : Graph}
    (built : (initial.performAll ops).build = .ok g') :
    (∀ e edge, g'.edges.get? e = some edge → g'.HasStatus edge.src .live ∧
      (g'.HasStatus edge.dst .live ∨ g'.HasStatus edge.dst .retired ∧
        edge.kind.isExplicit = true ∧ ∃ l, g'.resolve l = some edge.dst)) ∧
    (g'.violations = .ok [] ↔
      ∀ e edge, g'.edges.get? e = some edge → ¬g'.HasStatus edge.dst .retired) := by
  have emitted := performAll_emitted emits
  have after : g'.Emitted := by
    have performed : (initial.performAll ops).perform .build = g' := by
      simp only [perform, Operation.apply, built]
    rw [← performed]
    exact emitted.perform rfl
  obtain ⟨xs, before⟩ := emitted.grown
  obtain ⟨grown, edges⟩ := before.build_yields.of_eq_ok built
  have source (e : EdgeId) (edge : Edge) (stored : g'.edges.get? e = some edge) :
      edge.src ≠ .exit ∧ g'.HasStatus edge.src .live := by
    obtain ⟨inside, inner, -⟩ := edges e edge stored
    have status := grown.hasStatus (after.accounted.matched.succs.inside stored)
    rw [if_pos inside] at status
    exact ⟨inner, status⟩
  have target (e : EdgeId) (edge : Edge) (stored : g'.edges.get? e = some edge) :
      g'.HasStatus edge.dst .live ∨ g'.HasStatus edge.dst .retired ∧
        edge.kind.isExplicit = true ∧ ∃ l, g'.resolve l = some edge.dst := by
    have status := grown.hasStatus (after.accounted.matched.preds.inside stored)
    obtain ⟨-, -, lead⟩ := edges e edge stored
    by_cases inside : edge.dst ∈ xs
    · rw [if_pos inside] at status
      exact .inl status
    · rw [if_neg inside] at status
      exact .inr ⟨status, lead.resolve_left inside⟩
  refine ⟨fun e edge stored => ⟨(source e edge stored).2, target e edge stored⟩, ?_⟩
  rw [after.violations_iff source]
  refine forall₃_congr fun e edge stored => ⟨fun live retired => ?_, fun notRetired => ?_⟩
  · cases live.unique retired
  · exact (target e edge stored).resolve_right fun other => notRetired other.1

/-- Block 3 cannot be reached and retires, but keeps its label, and an exception in block 2 is then
caught at the label. -/
def astray : List Operation :=
  [.append, .append, .bindLabel ⟨3⟩ ⟨1⟩, .push ⟨2⟩ (.plain .ret), .build, .simplify .standard,
    .setCatcher (some ⟨1⟩), .push ⟨2⟩ (.plain .throw)]

theorem build_emitted_astray : (∀ op ∈ astray, op.emits = true) ∧
    ∃ g', (initial.performAll astray).build = .ok g' ∧
      (∀ e edge, g'.edges.get? e = some edge → g'.HasStatus edge.src .live ∧
        (g'.HasStatus edge.dst .live ∨ g'.HasStatus edge.dst .retired ∧
          edge.kind.isExplicit = true ∧ ∃ l, g'.resolve l = some edge.dst)) ∧
      (g'.violations = .ok [] ↔
        ∀ e edge, g'.edges.get? e = some edge → ¬g'.HasStatus edge.dst .retired) := by
  have emits : ∀ op ∈ astray, op.emits = true := by decide
  obtain ⟨g', built, -⟩ : ∃ g', (initial.performAll astray).build = .ok g' ∧ True := by
    decide +kernel
  exact ⟨emits, g', built, build_emitted astray emits built⟩

/-- The last build makes an edge to the block that has retired, and so gives a graph that is not
consistent. -/
theorem astray_edgeToDeadBlock : (∀ op ∈ astray, op.emits = true) ∧
    ∃ g', (initial.performAll astray).build = .ok g' ∧
      (g'.edges.get? ⟨1⟩ = some ⟨⟨2⟩, ⟨3⟩, .except⟩ ∧
        (g'.block? ⟨3⟩).map (·.status) = some .retired) ∧
      g'.violations = .ok [.edgeToDeadBlock ⟨1⟩ ⟨3⟩] := by
  decide +kernel

end Graph

end FlowGraph
