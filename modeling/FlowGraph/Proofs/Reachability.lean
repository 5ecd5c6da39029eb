import FlowGraph.Proofs.DeadCode
import FlowGraph.Proofs.Postorder
import FlowGraph.Proofs.Sentinels
import FlowGraph.Proofs.Weight

/-! # Reachability without edges

The walk backwards through the layout looks at labels, dead ends and links, and at no edge. In a
faithful graph it still never denies what the edges allow. An edge that is explicit leads to a
labelled block, or to exit; any other leads from a block that is no dead end to the one behind it. So
along a path from entry each block is entered from the one before, and the walk finds that out. Every
part of a simplification keeps the graph faithful, and so every graph that comes from a build by
simplifications, however many, is answered for in this way. -/

namespace FlowGraph.Graph

section

variable {g g' : Graph} {xs : List BlockId} {b c : BlockId}

/-! ## Along an edge -/

/-- An edge leads out of the layout's blocks to a live one: to exit, to a labelled block, or from a
block that is no dead end to the one behind it. -/
theorem Faithful.of_steps (faithful : g.Faithful xs) (step : g.Steps b c) :
    b ≠ .exit ∧ g.HasStatus c .live ∧ (c = .exit ∨ g.Labelled c ∨
      c ∈ xs ∧ g.prev? c = some b ∧ ¬g.DeadEnd b) := by
  obtain ⟨data, e, edge, found, listed, stored, rfl⟩ := step
  obtain ⟨coherent, agrees, exact⟩ := faithful
  obtain ⟨edge', stored', rfl⟩ := coherent.edge_of_mem_succs found listed
  rw [stored] at stored'
  cases stored'
  obtain ⟨member, inner, -⟩ := coherent.source stored
  obtain ⟨-, target, foundTarget, live⟩ := coherent.target stored
  refine ⟨inner, ⟨target, foundTarget, live⟩, ?_⟩
  have arrow := (coherent.mem_arrows (view_eq found)).2 ⟨e, edge, stored, rfl, rfl⟩
  cases kind : edge.kind.isExplicit with
  | true =>
    obtain ⟨atExit, -⟩ | ⟨l, bound⟩ :=
      agrees.resolve_of_explicit member inner (view_eq found) arrow kind
    · exact .inl atExit
    · exact .inr (.inl ⟨target, foundTarget, exact.isSome_label foundTarget bound⟩)
  | false =>
    obtain ⟨explicit, called, split⟩ := agrees edge.src member inner _ (view_eq found)
    rw [split, List.mem_append] at arrow
    obtain called' | falls := arrow
    · have isExplicit := (mem_calls called called').1
      change edge.kind.isExplicit = true at isExplicit
      simp [kind] at isExplicit
    · obtain ⟨open', link, -⟩ := View.mem_fall.1 falls
      obtain ⟨inside, back⟩ := coherent.laid.next?_mem member link
      refine .inr (.inr ⟨inside, back, ?_⟩)
      rw [deadEnd_iff found, Bool.not_eq_true]
      exact open'

theorem Faithful.entered_of_way (faithful : g.Faithful xs) (way : g.Way .entry b) :
    b = .exit ∨ g.Entered b := by
  induction way with
  | refl => exact .inr .entry
  | tail _ step ih =>
    obtain ⟨inner, -, atExit | labelled | ⟨-, link, falls⟩⟩ := faithful.of_steps step
    · exact .inl atExit
    · exact .inr (.labelled labelled)
    · exact .inr (.behind link falls (ih.resolve_left inner))

theorem Faithful.succsStored (faithful : g.Faithful xs) : g.SuccsStored := by
  intro b data found e listed
  obtain ⟨edge, stored, -⟩ := faithful.coherent.edge_of_mem_succs found listed
  exact Option.isSome_of_eq_some stored

theorem Faithful.enclosed (faithful : g.Faithful xs) : g.Enclosed := by
  intro b way
  cases way with
  | refl =>
    have laid := faithful.coherent.laid
    exact Option.isSome_iff_exists.2 (laid.exists_block laid.entry_mem)
  | tail _ step =>
    obtain ⟨-, ⟨data, found, -⟩, -⟩ := faithful.of_steps step
    exact Option.isSome_of_eq_some found

theorem isReachable_of_labelled (live : g.HasStatus b .live) (labelled : g.Labelled b) :
    g.isReachable b = .ok true := by
  obtain ⟨data, found, status⟩ := live
  rw [labelled_iff found] at labelled
  rw [isReachable, block_bind found, if_pos (by simpa [Block.isLive] using status), entered]
  split
  · rfl
  · rw [block_bind found, if_pos labelled]
    rfl

/-- What a path from entry leads to is found reachable. -/
theorem Faithful.isReachable_of_way (faithful : g.Faithful xs) (open' : g.HasStatus .entry .live)
    (way : g.Way .entry b) (inner : b ≠ .exit) : g.isReachable b = .ok true := by
  have entered := (faithful.entered_of_way way).resolve_left inner
  have laid := faithful.coherent.laid
  have inLayout (member : b ∈ xs) (live : g.HasStatus b .live) : g.isReachable b = .ok true := by
    obtain ⟨answer, ran, exact⟩ := laid.isReachable_eq member live
    rw [ran, exact.2 entered]
  -- a block outside the layout can only be the target of an explicit edge, so it has a label
  cases way with
  | refl => exact inLayout laid.entry_mem open'
  | tail _ step =>
    obtain ⟨-, live, atExit | labelled | ⟨member, -⟩⟩ := faithful.of_steps step
    · exact absurd atExit inner
    · exact isReachable_of_labelled live labelled
    · exact inLayout member live

/-! ## Entry stays live, and no mark is left -/

/-- Entry is live and comes first, and no block is marked. -/
structure Poised (g : Graph) : Prop where
  foremost : g.Foremost
  clear : g.Clear

namespace Poised

/-- Whatever operation is carried out, with whatever handles. -/
theorem perform (poised : g.Poised) (op : Operation) : (g.perform op).Poised :=
  perform_of_effect poised fun _ effect =>
    ⟨poised.foremost.effect effect, poised.clear.effect effect⟩

theorem performAll (ops : List Operation) : ∀ {g : Graph}, g.Poised → (g.performAll ops).Poised := by
  induction ops with
  | nil => exact id
  | cons op ops ih => exact fun poised => ih (poised.perform op)

end Poised

theorem poised_initial : initial.Poised := by
  have clear : initial.Clear := by decide
  exact ⟨guarded_initial.foremost, clear⟩

/-! ## Runs of simplifications -/

/-- The graph is faithful along its layout, in which no mark is left over. -/
def Sound (g : Graph) : Prop := ∃ xs, g.Faithful xs ∧ Ready (fun _ => True) g xs

theorem Sound.simplifyAll (ss : List Settings) : ∀ {g : Graph}, g.Sound →
    (g.performAll (ss.map .simplify)).Sound := by
  induction ss with
  | nil => exact id
  | cons s ss ih =>
    intro g sound
    apply ih
    apply perform_of_yields sound
    obtain ⟨xs, faithful, ready⟩ := sound
    have holds : Bounded (fun _ => True) (fun _ _ => True) (g.weight xs) 0 g :=
      ⟨xs, faithful, ready, by omega, trivial⟩
    have run := (preserved_true.carries (g.weight xs)).simplify_yields (s := s) (.inl trivial) holds
    apply run.map
    intro (report, g') ⟨⟨xs', faithful', ready', _⟩, _⟩
    exact ⟨xs', faithful', ready'⟩

end

/-- After a build that the check accepts, with exact labels, and any simplifications after it: every
block but exit that the postorder lists is found reachable, and a block that is found unreachable is
one that no path from entry leads to. -/
theorem isReachable_conservative (ops : List Operation) (ss : List Settings) (g : Graph)
    (built : (initial.performAll ops).build = .ok g) (consistent : g.violations = .ok [])
    (exact : g.LabelsExact) :
    (∃ order g', (g.performAll (ss.map .simplify)).postorder = .ok (order, g') ∧
      ∀ b ∈ order, b ≠ .exit → (g.performAll (ss.map .simplify)).isReachable b = .ok true) ∧
    ∀ b, b ≠ .exit → (g.performAll (ss.map .simplify)).isReachable b = .ok false →
      ¬(g.performAll (ss.map .simplify)).Way .entry b := by
  have poised : g.Poised := by
    have poised := (poised_initial.performAll ops).perform .build
    have after : (initial.performAll ops).perform .build = g := perform_eq built
    rwa [after] at poised
  have sound : g.Sound := by
    obtain ⟨xs, faithful, ready, -⟩ := built_faithful built consistent exact
    exact ⟨xs, faithful, ready.unmarked, fun _ _ _ _ => .inr trivial⟩
  have poised' := poised.performAll (ss.map .simplify)
  have sound' := sound.simplifyAll ss
  generalize g.performAll (ss.map .simplify) = h at poised' sound'
  obtain ⟨xs, faithful, -⟩ := sound'
  have reachable {b : BlockId} (way : h.Way .entry b) (inner : b ≠ .exit) :
      h.isReachable b = .ok true :=
    faithful.isReachable_of_way poised'.foremost.live way inner
  constructor
  · obtain ⟨computed, lists⟩ := postorder_exact poised'.clear faithful.succsStored
    obtain ⟨order, g', ran⟩ := computed.2 faithful.enclosed
    obtain ⟨-, mem_iff, -⟩ := lists order g' ran
    exact ⟨order, g', ran, fun b member => reachable ((mem_iff b).1 member)⟩
  · intro b inner denied way
    rw [reachable way inner] at denied
    cases denied

/-- Block 2 branches over block 3 to block 4, which branches over block 5, where no path leads, to
block 6. -/
def detour : List Operation :=
  [.append, .append, .append, .append, .append, .bindLabel ⟨4⟩ ⟨1⟩, .bindLabel ⟨6⟩ ⟨2⟩,
    .push ⟨2⟩ (.branch .brItrue ⟨1⟩), .push ⟨3⟩ (.plain .iadd), .push ⟨4⟩ (.branch .br ⟨2⟩),
    .push ⟨5⟩ (.plain .iadd), .push ⟨6⟩ (.plain .ret)]

/-- One round without merges, and then all there are. -/
def cautious : List Settings := [⟨some 1, true, false⟩, .standard]

theorem isReachable_detour_conservative : ∃ g, (initial.performAll detour).build = .ok g ∧
    g.violations = .ok [] ∧ g.LabelsExact ∧
    (∃ order g', (g.performAll (cautious.map .simplify)).postorder = .ok (order, g') ∧
      ∀ b ∈ order, b ≠ .exit →
        (g.performAll (cautious.map .simplify)).isReachable b = .ok true) ∧
    ∀ b, b ≠ .exit → (g.performAll (cautious.map .simplify)).isReachable b = .ok false →
      ¬(g.performAll (cautious.map .simplify)).Way .entry b := by
  obtain ⟨g, built, consistent, exact⟩ : ∃ g, (initial.performAll detour).build = .ok g ∧
      g.violations = .ok [] ∧ g.LabelsExact := by decide +kernel
  exact ⟨g, built, consistent, exact,
    isReachable_conservative detour cautious g built consistent exact⟩

end FlowGraph.Graph
