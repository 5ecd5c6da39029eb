import FlowGraph.Proofs.DepthFirst

/-! # What the postorder lists

The recursion shows what the list is. It holds the blocks to which a path leads from entry, each of
them once, and entry comes last. An edge leads from a block to one listed earlier, unless a path
leads back along which the search had come. Without circles there is no such path, so every edge
leads from a later block to an earlier one. -/

namespace FlowGraph.Graph

/-- The list holds what paths from entry lead to, each block once and entry last. Every edge of a
listed block leads to one listed earlier, or closes a circle. -/
structure Postordered (g : Graph) (order : List BlockId) : Prop where
  distinct : order.Nodup
  mem_iff : ∀ b, b ∈ order ↔ g.Way .entry b
  last : order.getLast? = some .entry
  behind : ∀ l u r, order = l ++ u :: r → ∀ v, g.Steps u v → v ∈ l ∨ g.Way v u

section

variable {g g' : Graph} {n : Nat} {t : Tour} {order : List BlockId}

/-- Without circles, every edge leads to a block listed earlier. -/
theorem Postordered.behind_of_acyclic (postordered : g.Postordered order)
    (acyclic : ∀ b, ¬Relation.TransGen g.Steps b b) {l r : List BlockId} {u v : BlockId}
    (split : order = l ++ u :: r) (step : g.Steps u v) : v ∈ l :=
  (postordered.behind l u r split v step).resolve_right fun back =>
    acyclic u (Relation.TransGen.head' step back)

theorem explored_postordered (deep : g.blockCount < n) (ran : g.explore n .entry ⟨[], []⟩ = .ok t) :
    g.Postordered t.done ∧ ∀ b ∈ t.done, (g.block? b).isSome := by
  obtain ⟨fits, out, found⟩ := explore_of_eq_ok (fits_start deep) (by simp) ran
  obtain ⟨done, seen, reachable, closed, behind⟩ := found
  rw [List.nil_append] at done
  rw [List.append_nil, ← done] at seen
  rw [← done] at reachable closed behind
  refine ⟨⟨?distinct, fun b => ⟨reachable b, ?complete⟩, ?last, ?behind⟩, ?inside⟩
  case distinct => exact seen.nodup_iff.1 fits.distinct
  case complete =>
    intro way
    induction way with
    | refl => simp [done]
    | tail _ step ih => exact seen.mem_iff.1 (closed _ ih _ step)
  case last => simp [done]
  case behind =>
    intro l u r split v step
    exact (behind l u r split v step).resolve_left (by simp)
  case inside => exact fun b member => fits.inside b (seen.mem_iff.2 member)

/-- The search from entry in a graph without marks. -/
theorem reached_postordered (clear : g.Clear) (ran : g.reached = .ok order) :
    g.Postordered order ∧ ∀ b ∈ order, (g.block? b).isSome := by
  rw [reached_eq_explore clear (Nat.lt_succ_self g.blockCount)] at ran
  cases explored : g.explore (g.blockCount + 1) .entry ⟨[], []⟩ with
  | error f =>
    rw [explored] at ran
    cases ran
  | ok t =>
    rw [explored] at ran
    cases ran
    exact explored_postordered (Nat.lt_succ_self g.blockCount) explored

/-- Where nothing is marked and the listed edges are in the pool, a postorder is computed exactly if
no path from entry leads out of the arena. It holds each block that a path from entry leads to once,
and entry last; an edge leads to an earlier block or closes a circle, so without circles every edge
leads to an earlier one. No mark is left behind, and nothing but the order that is kept has
changed. -/
theorem postorder_exact (clear : g.Clear) (stored : g.SuccsStored) :
    ((∃ order g', g.postorder = .ok (order, g')) ↔ g.Enclosed) ∧
    ∀ order g', g.postorder = .ok (order, g') →
      order.Nodup ∧ (∀ b, b ∈ order ↔ g.Way .entry b) ∧ order.getLast? = some .entry ∧
      (∀ l u r, order = l ++ u :: r → ∀ v, g.Steps u v → v ∈ l ∨ g.Way v u) ∧
      ((∀ b, ¬Relation.TransGen g.Steps b b) →
        ∀ l u r, order = l ++ u :: r → ∀ v, g.Steps u v → v ∈ l) ∧
      g'.Clear ∧ g' = { g with order := some order } := by
  have ran {order : List BlockId} {g' : Graph} (computed : g.postorder = .ok (order, g')) :
      g.reached = .ok order ∧ g' = { g with order := some order } := by
    rw [postorder_eq clear] at computed
    cases reached : g.reached with
    | error f =>
      rw [reached] at computed
      cases computed
    | ok order =>
      rw [reached] at computed
      cases computed
      exact ⟨rfl, rfl⟩
  constructor
  · constructor
    · rintro ⟨order, g', computed⟩ b way
      obtain ⟨postordered, inside⟩ := reached_postordered clear (ran computed).1
      exact inside b ((postordered.mem_iff b).2 way)
    · intro enclosed
      obtain ⟨t, -, computed⟩ := (postorder_eq_explore clear).2.2 stored enclosed _
        (Nat.lt_succ_self g.blockCount)
      exact ⟨t.done, _, computed⟩
  · intro order g' computed
    obtain ⟨reached, rfl⟩ := ran computed
    obtain ⟨postordered, -⟩ := reached_postordered clear reached
    exact ⟨postordered.distinct, postordered.mem_iff, postordered.last, postordered.behind,
      fun acyclic l u r split v step => postordered.behind_of_acyclic acyclic split step, clear, rfl⟩

/-- Where every edge leads up a scale, no path leads back. -/
theorem acyclic_of_rank {rank : BlockId → Nat} (up : ∀ b c, g.Steps b c → rank b < rank c)
    (b : BlockId) : ¬Relation.TransGen g.Steps b b := by
  have further (c : BlockId) (path : Relation.TransGen g.Steps b c) : rank b < rank c := by
    induction path with
    | single step => exact up _ _ step
    | tail _ step ih => exact ih.trans (up _ _ step)
  exact fun circle => Nat.lt_irrefl _ (further b circle)

theorem postorder_exact_triangle : triangle.Clear ∧ triangle.SuccsStored ∧
    (∀ b, ¬Relation.TransGen triangle.Steps b b) ∧
    ∃ order g', triangle.postorder = .ok (order, g') ∧
      order.Nodup ∧ (∀ b, b ∈ order ↔ triangle.Way .entry b) ∧ order.getLast? = some .entry ∧
      (∀ l u r, order = l ++ u :: r → ∀ v, triangle.Steps u v → v ∈ l) ∧
      g'.Clear ∧ g' = { triangle with order := some order } := by
  have clear : triangle.Clear := by decide
  have stored : triangle.SuccsStored := by decide
  have inRange : triangle.InRange := by decide
  -- exit has the lowest number but comes last
  have up (b c : BlockId) (step : triangle.Steps b c) :
      (if b = .exit then 5 else b.index) < if c = .exit then 5 else c.index := by
    obtain ⟨data, e, edge, found, listed, stored, rfl⟩ := step
    have all : ∀ b data, triangle.block? b = some data → ∀ e ∈ data.succs,
        (triangle.edges.get? e).all fun edge => decide
          ((if b = .exit then 5 else b.index) < if edge.dst = .exit then 5 else edge.dst.index) := by
      decide
    have here := all b data found e listed
    rw [stored] at here
    simpa using here
  obtain ⟨computed, exact⟩ := postorder_exact clear stored
  obtain ⟨order, g', returned⟩ := computed.2 inRange.enclosed
  obtain ⟨distinct, mem_iff, last, -, behind, unmarked, same⟩ := exact order g' returned
  have acyclic := acyclic_of_rank (g := triangle) up
  exact ⟨clear, stored, acyclic, order, g', returned, distinct, mem_iff, last, behind acyclic,
    unmarked, same⟩

end

end FlowGraph.Graph
