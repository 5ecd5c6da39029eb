import FlowGraph.Proofs.Build
import FlowGraph.Proofs.Consistency
import FlowGraph.Proofs.Reduction

/-! # Simplification never breaks a graph

An intact graph may have any edges, also such as its instructions do not call for. Each part of a
round keeps it intact and cannot fail, except that the labels of a merged block may form a chain
without end; that, and rounds without end, is all that can keep a simplification from returning. -/

namespace FlowGraph.Graph

/-- The check finds nothing, a block is live exactly if it is in the layout, and no block is marked,
whatever its status. -/
structure Intact (g : Graph) : Prop where
  consistent : g.violations = .ok []
  enrolled : ∃ xs, g.layout = .ok xs ∧
    ∀ b data, g.block? b = some data → (data.status = .live ↔ b ∈ xs)
  clear : ∀ b data, g.block? b = some data → data.marked = false

theorem intact_iff {g : Graph} : g.Intact ↔ ∃ xs, g.Coherent xs ∧ g.Settled xs := by
  constructor
  · intro ⟨consistent, ⟨xs, layout, enrolled⟩, clear⟩
    obtain ⟨ys, verified⟩ := violations_eq_nil_iff.1 consistent
    rw [verified.laid.layout_eq] at layout
    cases layout
    refine ⟨xs, verified.coherent fun e edge stored => ?_, enrolled, clear⟩
    obtain ⟨data, found, -, live⟩ := verified.source stored
    exact (enrolled _ data found).1 live
  · intro ⟨xs, coherent, enrolled, clear⟩
    have verified := coherent.verified fun b _ data found => clear b data found
    exact ⟨violations_eq_nil_iff.2 ⟨xs, verified⟩, ⟨xs, coherent.laid.layout_eq, enrolled⟩, clear⟩

instance (g : Graph) : Decidable g.Intact :=
  decidable_of_iff (g.violations = .ok [] ∧ (∃ xs, g.layout = .ok xs ∧
      ∀ b data, g.block? b = some data → (data.status = .live ↔ b ∈ xs)) ∧
      ∀ b data, g.block? b = some data → data.marked = false)
    ⟨fun ⟨consistent, enrolled, clear⟩ => ⟨consistent, enrolled, clear⟩,
      fun ⟨consistent, enrolled, clear⟩ => ⟨consistent, enrolled, clear⟩⟩

variable {allowed : Fault → Prop} {s : Settings}

/-- Exact labels are carried along if `strict` asks for them. -/
theorem settled_carries {strict : Prop} (safe : allowed .endless ∨ strict) :
    Carries allowed s fun _ g => ∃ xs, g.Coherent xs ∧ g.Settled xs ∧ (strict → g.LabelsExact) := by
  refine ⟨?prune, ?reduce, ?order⟩
  case prune =>
    intro n g ⟨xs, coherent, settled, exact⟩
    apply (prune_yields coherent (settled.ready coherent)).mono
    intro (order, g₁) dropped
    apply dropped.mono
    intro (gone, g₂) ⟨eliminated, inside⟩
    exact ⟨⟨_, eliminated.coherent, settled.evolves eliminated.evolves,
      fun asked => eliminated.labelsExact (exact asked)⟩, inside⟩
  case reduce =>
    intro n g b rule listed notEntry inside ⟨xs, coherent, settled, exact⟩
    apply (rule_evolves coherent (safe.imp_right exact) listed notEntry inside).mono
    intro (g', r) ⟨xs', evolves, exact'⟩
    exact ⟨⟨xs', evolves.coherent, settled.evolves evolves, fun asked => exact' (exact asked)⟩,
      evolves.inside⟩
  case order =>
    intro n g order ⟨xs, coherent, settled, exact⟩
    exact ⟨xs, coherent.reorder order, ⟨settled.enrolled, settled.clear⟩,
      fun asked => (exact asked).congr (.refl _ g) rfl⟩

/-- Whatever the settings and however many rounds are made, simplifying an intact graph fails only by
not coming to an end, and the result is intact. With exact labels and a limit on the rounds it does
come to an end. -/
theorem simplify_keeps_intact (g : Graph) (s : Settings) (intact : g.Intact) :
    (∀ rounds, Yields (· = .endless) (simplifyFrom s rounds [] g) fun (_, g') => g'.Intact) ∧
      Yields (· = .endless) (g.simplify s) (fun (_, g') => g'.Intact) ∧
      (g.LabelsExact → ∀ n < UInt64.size, s.maxRounds = some n →
        ∃ report g', g.simplify s = .ok (report, g')) := by
  obtain ⟨xs, coherent, settled⟩ := intact_iff.1 intact
  have rounds (n : Nat) :
      Yields (· = .endless) (simplifyFrom s n [] g) fun (_, g') => g'.Intact := by
    have carries : Carries (· = .endless) s _ := settled_carries (.inl rfl : _ ∨ False)
    have run := carries.simplifyFrom_yields n [] g (.inl rfl) ⟨xs, coherent, settled, False.elim⟩
      (by simp) (.inl rfl)
    apply run.mono
    intro (report, g') ⟨⟨xs', coherent', settled', _⟩, _⟩
    exact intact_iff.2 ⟨xs', coherent', settled'⟩
  refine ⟨rounds, rounds g.roundBound, fun exact n small limit => ?_⟩
  have carries : Carries (fun _ => False) s _ := settled_carries (.inr trivial)
  -- no fault is allowed now, so that the limit has to keep the rounds within bounds
  have enough : Suffices s (fun _ g => ∃ xs, g.Coherent xs ∧ g.Settled xs ∧ (True → g.LabelsExact))
      g.roundBound := by
    intro _ m _ _ _ going
    have bound : UInt64.size ≤ g.roundBound := Nat.le_add_right ..
    obtain rfl | going := going
    · omega
    · simp only [Settings.exhausted, limit, Option.any_some, decide_eq_false_iff_not] at going
      omega
  have run := carries.simplify_yields (.inr enough) ⟨xs, coherent, settled, fun _ => exact⟩
  obtain ⟨⟨report, g'⟩, returned, -⟩ := run.exists_ok
  exact ⟨report, g', returned⟩

theorem simplify_keeps_triangle_intact : triangle.Intact ∧
    ∃ report g', triangle.simplify .standard = .ok (report, g') ∧ g'.Intact := by
  have intact : triangle.Intact := by decide +kernel
  obtain ⟨⟨report, g'⟩, ran⟩ := triangle_simplifies
  have kept := (simplify_keeps_intact triangle .standard intact).2.1
  exact ⟨intact, report, g', ran, kept.of_eq_ok ran⟩

end FlowGraph.Graph
