import FlowGraph.Proofs.Integrity
import FlowGraph.Proofs.Quiet

/-! # Simplifying twice

The last round of a run may have dropped blocks after its search, and every rule has been tried once
more without success. Neither matters to another run with the same settings: its search finds what
the last one found, nothing is left in the layout that it does not find, and the rules are tried on
the very graph on which they have just failed. So it ends after one round and gives back the graph
it was given, down to the order that is kept. -/

namespace FlowGraph.Graph

section

variable {g g' : Graph} {s : Settings} {xs order : List BlockId}

/-- A round on a graph whose blocks are all found, and at which no rule applies. -/
theorem simplifyRound_idle (coherent : g.Coherent xs) (settled : g.Settled xs)
    (reached : g.reached = .ok order) (all : ∀ c ∈ xs, c ≠ .exit → c ∈ order)
    (idle : order.foldlM (reduceBlock s.rules) (({ g with order := none } : Graph), []) =
      .ok (({ g with order := none } : Graph), [])) :
    g.simplifyRound s = .ok (order, ⟨[], [], g.liveCount⟩, { g with order := none }) := by
  obtain ⟨explored, remarked, marks⟩ := marked_of_reached coherent reached
  have ready : Ready (fun _ => False) g xs := settled.ready coherent
  obtain ⟨⟨dropped, g₂⟩, eliminated, -, dropped_iff, still⟩ :=
    (eliminate_yields coherent ready.unmarked explored remarked marks ready.enlisted).exists_ok
  obtain rfl : dropped = [] := by
    refine List.eq_nil_iff_forall_not_mem.2 fun c member => ?_
    obtain ⟨inside, inner, missed⟩ := (dropped_iff c).1 member
    exact missed (all c inside inner)
  have same : g₂ = { g with order := none } :=
    (still rfl).trans (setMarks_setMarks settled.clear order none)
  subst same
  exact simplifyRound_eq_ok.2 ⟨[], _, [], reached, eliminated, idle, rfl⟩

/-- After a round without reductions, another one finds the same blocks and does nothing. -/
theorem simplifyRound_again (coherent : g.Coherent xs) (settled : g.Settled xs) {round : Round}
    (ran : g.simplifyRound s = .ok (order, round, g')) (quiet : round.changed = false) :
    ({ g' with order := some order } : Graph).simplifyRound s =
      .ok (order, ⟨[], [], g'.liveCount⟩, g') := by
  have ready : Ready (fun _ => False) g xs := settled.ready coherent
  have rested := simplifyRound_quiet coherent ready ran quiet
  have coherent' := rested.eliminated.coherent
  have settled' := settled.evolves rested.eliminated.evolves
  have reached' := reached_of_quiet ran quiet coherent.matched settled.clear coherent'.matched
    settled'.clear
  have forgotten : ({ g' with order := none } : Graph) = g' := by
    rw [← order_simplifyRound ran]
  have idle := simplifyRound_idle (s := s) (coherent'.reorder (some order))
    ⟨settled'.enrolled, settled'.clear⟩ (reached_reorder coherent'.matched settled'.clear reached' _)
    (fun c member inner => rested.mem_order member inner) (by rw [forgotten]; exact rested.idle)
  rwa [forgotten] at idle

end

/-- An intact graph keeps an order after a simplification exactly if the last round has reduced
nothing. Then another simplification with the same settings makes one round, in which nothing
happens, and leaves the graph as it is. -/
theorem simplify_idempotent (g : Graph) (s : Settings) (intact : g.Intact) {report : Report}
    {g' : Graph} (ran : g.simplify s = .ok (report, g')) :
    (g'.order = none ↔ ∃ round, report.rounds.getLast? = some round ∧ round.changed = true) ∧
      (g'.order ≠ none → ∃ again, g'.simplify s = .ok (again, g') ∧
        again.tally = ⟨1, 0, 0, 0, 0, 0⟩) := by
  have sound (h : Graph) (order : List BlockId) (round : Round) (h' : Graph)
      (holds : ∃ xs, h.Coherent xs ∧ h.Settled xs ∧ (False → h.LabelsExact))
      (made : h.simplifyRound s = .ok (order, round, h')) :
      ∃ xs, h'.Coherent xs ∧ h'.Settled xs ∧ (False → h'.LabelsExact) :=
    ((settled_carries (.inl trivial)).simplifyRound_yields (n := 0) holds :
      Yields (fun _ => True) _ _).of_eq_ok made
  obtain ⟨xs, coherent, settled⟩ := intact_iff.1 intact
  have ended := (simplifyFrom_ended sound _ [] g ⟨xs, coherent, settled, False.elim⟩).of_eq_ok ran
  obtain ⟨h, order, round, h', ⟨ys, coherent, settled, -⟩, made, isLast, last⟩ := ended.last
  have given := order_simplifyRound made
  rw [isLast]
  split at last
  · rename_i changed
    obtain ⟨rfl, -⟩ := last
    exact ⟨iff_of_true given ⟨round, rfl, changed⟩, fun kept => absurd given kept⟩
  · rename_i unchanged
    have quiet : round.changed = false := by simpa using unchanged
    subst last
    refine ⟨iff_of_false nofun ?_, fun _ => ?_⟩
    · rintro ⟨_, ⟨⟩, changed⟩
      exact unchanged changed
    have again := simplifyRound_again coherent settled made quiet
    obtain ⟨n, bound⟩ : ∃ n, ({ h' with order := some order } : Graph).roundBound = n + 1 := by
      refine Nat.exists_eq_add_one_of_ne_zero ?_
      have positive : 0 < UInt64.size := by decide
      unfold roundBound
      omega
    refine ⟨⟨[⟨[], [], h'.liveCount⟩], true⟩, ?_, rfl⟩
    rw [simplify, bound, simplifyFrom, again]
    rfl

theorem simplify_triangle_idempotent : triangle.Intact ∧
    ∃ report g', triangle.simplify .standard = .ok (report, g') ∧ g'.order ≠ none ∧
      ∃ again, g'.simplify .standard = .ok (again, g') ∧ again.tally = ⟨1, 0, 0, 0, 0, 0⟩ := by
  have intact : triangle.Intact := by decide +kernel
  have kept : ∃ result, triangle.simplify .standard = .ok result ∧ result.2.order ≠ none := by
    decide +kernel
  obtain ⟨⟨report, g'⟩, ran, kept⟩ := kept
  exact ⟨intact, report, g', ran, kept,
    (simplify_idempotent triangle .standard intact ran).2 kept⟩

end FlowGraph.Graph
