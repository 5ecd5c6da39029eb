import FlowGraph.Proofs.Weight

/-! # Simplifying a graph just built

What a build gives is faithful if the check accepts it and labels are exact. Every part of a round
keeps it so and makes it lighter, so the rounds come to an end, and at the end the instructions still
call for exactly the edges there are. -/

namespace FlowGraph.Graph

theorem triangle_built :
    triangle.build = .ok triangle ∧ triangle.violations = .ok [] ∧ triangle.LabelsExact := by
  decide +kernel

/-- With exact labels, simplifying a graph just built returns whatever the settings, or stops at a
listed block that is not live. If it returns, it has made at most two reductions for each block and
edge, and at most one round more than it has made reductions. -/
theorem simplify_bounded (g₀ g : Graph) (s : Settings) (built : g₀.build = .ok g)
    (consistent : g.violations = .ok []) (exact : g.LabelsExact) :
    Yields g.Unlinkable (g.simplify s) fun (report, _) =>
      report.tally.reductions ≤ 2 * (g.liveCount + g.edgeCount) ∧
        report.tally.rounds ≤ report.tally.reductions + 1 := by
  apply (preserved_true.simplify_yields built consistent exact fun _ _ => trivial).mono
  intro ⟨report, g'⟩ ⟨few, rounds, _⟩
  show report.tally.reductions ≤ _ ∧ report.tally.rounds ≤ _
  rw [Report.tally_reductions]
  exact ⟨few, rounds⟩

theorem simplify_triangle_bounded :
    triangle.build = .ok triangle ∧ triangle.violations = .ok [] ∧ triangle.LabelsExact ∧
      ∃ report g', triangle.simplify .standard = .ok (report, g') ∧
        report.tally.reductions ≤ 2 * (triangle.liveCount + triangle.edgeCount) ∧
          report.tally.rounds ≤ report.tally.reductions + 1 := by
  obtain ⟨built, consistent, exact⟩ := triangle_built
  obtain ⟨⟨report, g'⟩, ran⟩ := triangle_simplifies
  have bounded := simplify_bounded triangle triangle .standard built consistent exact
  exact ⟨built, consistent, exact, report, g', ran, bounded.of_eq_ok ran⟩

/-- The links from block 4 lead through entry to block 2 and exit, so detaching the run from block 4
to entry makes block 2 detached, and then the links round it close again. No edge leads to block 2. -/
def aground : List Operation :=
  [.append, .create, .create, .attachAfter .entry ⟨3⟩ ⟨4⟩, .attachAfter .entry ⟨4⟩ .entry,
    .detach ⟨4⟩ .entry, .detach ⟨3⟩ ⟨4⟩, .setDeadEnd .entry true, .setDeadEnd ⟨2⟩ true]

/-- A simplification need not return: block 2, detached but in its place, is dropped and cannot be
linked out. -/
theorem simplify_aground_stops : ∃ g, (initial.performAll aground).build = .ok g ∧
    g.violations = .ok [] ∧ g.LabelsExact ∧ g.layout = .ok [.entry, ⟨2⟩, .exit] ∧
    (g.block? ⟨2⟩).map Block.status = some .detached ∧
    g.simplify .standard = .error (.cannotDetach ⟨2⟩ ⟨2⟩) := by
  decide +kernel

/-- After a simplification the edges of every block are still those that its instructions call for,
in the same order, so that building the graph anew succeeds and changes the successors of none. -/
theorem simplify_agrees (g₀ g : Graph) (s : Settings) (built : g₀.build = .ok g)
    (consistent : g.violations = .ok []) (exact : g.LabelsExact) :
    Yields g.Unlinkable (g.simplify s) fun (_, g') => ∃ xs, g'.layout = .ok xs ∧
      (∀ b ∈ xs, b ≠ .exit → ∃ out, g'.successors b = .ok out ∧ g'.outgoing b = .ok out) ∧
      ∃ g'', g'.build = .ok g'' ∧ g''.layout = .ok xs ∧ ∀ b, g''.successors b = g'.successors b := by
  apply (preserved_true.simplify_yields built consistent exact fun _ _ => trivial).mono
  intro ⟨report, g'⟩ ⟨_, _, xs, ⟨coherent, agrees, _⟩, _⟩
  refine ⟨xs, coherent.laid.layout_eq, fun b member inner => ?_, ?_⟩
  · obtain ⟨data, found⟩ := coherent.laid.exists_block member
    have called := agrees_iff.1 agrees b member inner _ (view_eq found)
    exact ⟨_, coherent.successors_eq (view_eq found), called⟩
  · obtain ⟨g'', rebuilt, laid, same⟩ := build_of_agrees coherent agrees
    exact ⟨g'', rebuilt, laid.layout_eq, same⟩

theorem simplify_triangle_agrees :
    triangle.build = .ok triangle ∧ triangle.violations = .ok [] ∧ triangle.LabelsExact ∧
      ∃ report g', triangle.simplify .standard = .ok (report, g') ∧ ∃ xs, g'.layout = .ok xs ∧
        (∀ b ∈ xs, b ≠ .exit → ∃ out, g'.successors b = .ok out ∧ g'.outgoing b = .ok out) ∧
        ∃ g'', g'.build = .ok g'' ∧ g''.layout = .ok xs ∧
          ∀ b, g''.successors b = g'.successors b := by
  obtain ⟨built, consistent, exact⟩ := triangle_built
  obtain ⟨⟨report, g'⟩, ran⟩ := triangle_simplifies
  have agrees := simplify_agrees triangle triangle .standard built consistent exact
  exact ⟨built, consistent, exact, report, g', ran, agrees.of_eq_ok ran⟩

end FlowGraph.Graph
