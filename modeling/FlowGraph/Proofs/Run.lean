import FlowGraph.Simplify.Run
import FlowGraph.Proofs.Evolution

/-! # Runs of rounds

What the dropping of unreachable blocks and every single reduction keep holds after a whole run. The
invariant may speak of the blocks dropped and the reductions made so far. Where it counts the
reductions, a bound on it bounds the run: every round but the last makes a reduction, and a run makes
at most one round more than it makes reductions. -/

namespace FlowGraph

/-! ## Counting reductions -/

theorem Report.tally_reductions (r : Report) : r.tally.reductions = r.reductions.length := by
  unfold Tally.reductions tally
  induction r.reductions with
  | nil => rfl
  | cons reduction reductions ih =>
    have kind : (if reduction.isBranchFolded then 1 else 0) +
        (if reduction.isConditionalFolded then 1 else 0) +
        (if reduction.isBlockMerged then 1 else 0) = 1 := by
      cases reduction <;> rfl
    simp only [List.countP_cons, List.length_cons] at ih ⊢
    omega

theorem length_le_reductions {made : List Round}
    (changed : ∀ round ∈ made, round.reductions ≠ []) :
    made.length ≤ (made.flatMap (·.reductions)).length := by
  induction made with
  | nil => simp
  | cons round made ih =>
    have rest := ih fun other member => changed other (List.mem_cons_of_mem _ member)
    have here := List.length_pos_iff.2 (changed round (List.mem_cons_self ..))
    rw [List.flatMap_cons, List.length_append, List.length_cons]
    omega

namespace Graph

/-! ## What the parts of a round keep -/

/-- The invariant, which may speak of the blocks dropped and the reductions made so far, is kept by
each part of a round. -/
structure Accrues (allowed : Fault → Prop) (s : Settings)
    (inv : List BlockId → List Reduction → Graph → Prop) : Prop where
  prune : ∀ dropped made g, inv dropped made g → Yields allowed g.markReached fun (order, g₁) =>
    Yields allowed (g₁.eliminate order) fun (gone, g₂) =>
      inv (dropped ++ gone) made g₂ ∧ ∀ b ∈ order, (g₂.block? b).isSome
  reduce : ∀ dropped made g b, ∀ rule ∈ s.rules, b ≠ .entry → (g.block? b).isSome →
    inv dropped made g → Yields allowed (rule g b) fun (g', r) =>
      inv dropped (made ++ r.toList) g' ∧ ∀ c, (g'.block? c).isSome = (g.block? c).isSome
  order : ∀ dropped made g order, inv dropped made g → inv dropped made { g with order := order }

/-- The invariant in the middle of a round, before which `made` had been made already: `bs` are the
blocks still to be reduced. -/
def During (inv : List Reduction → Graph → Prop) (made : List Reduction) (bs : List BlockId)
    (state : Graph × List Reduction) : Prop :=
  inv (made ++ state.2.reverse) state.1 ∧ ∀ b ∈ bs, (state.1.block? b).isSome

/-- As many rounds suffice, because the invariant or the settings allow no more. -/
def Suffices (s : Settings) (inv : Nat → Graph → Prop) (rounds : Nat) : Prop :=
  ∀ n m g, inv n g → m ≤ n → m = 0 ∨ s.exhausted m = false → m < rounds

/-- What a run ends with that has kept the invariant in each of its rounds. -/
structure Accrued (s : Settings) (inv : List BlockId → List Reduction → Graph → Prop)
    (result : Report × Graph) : Prop where
  holds : inv (result.1.rounds.flatMap (·.dropped)) result.1.reductions result.2
  few : result.1.rounds.length ≤ result.1.reductions.length + 1
  within : ∃ n, result.1.rounds.length = n + 1 ∧ (n = 0 ∨ s.exhausted n = false)

namespace Accrues

variable {allowed : Fault → Prop} {s : Settings} {g : Graph}
  {inv : List BlockId → List Reduction → Graph → Prop}

theorem reduceBlock_yields (accrues : Accrues allowed s inv) {dropped : List BlockId}
    {made : List Reduction} {bs : List BlockId} {state : Graph × List Reduction} {b : BlockId}
    (member : b ∈ bs) (holds : During (inv dropped) made bs state) :
    Yields allowed (reduceBlock s.rules state b) (During (inv dropped) made bs) := by
  obtain ⟨data, found⟩ := Option.isSome_iff_exists.1 (holds.2 b member)
  unfold reduceBlock
  split
  · exact yields_pure holds
  · rename_i inner
    rw [not_or] at inner
    rw [block_bind found]
    split
    · refine Yields.foldlM (fun _ => During (inv dropped) made bs) holds ?_
      intro done rule rest ⟨g, made'⟩ split ⟨kept, inside⟩
      have listed : rule ∈ s.rules := by simp [split]
      refine (accrues.reduce _ _ g b rule listed inner.1 (inside b member) kept).bind ?_
      intro ⟨g', r⟩ ⟨kept', same⟩
      refine yields_pure ⟨?_, fun c inBs => (same c).trans (inside c inBs)⟩
      -- a rule makes at most one reduction, which comes first in the list of those made
      have added : made ++ (r.toList ++ made').reverse = made ++ made'.reverse ++ r.toList := by
        cases r <;> simp
      change inv dropped (made ++ (r.toList ++ made').reverse) g'
      rwa [added]
    · exact yields_pure holds

theorem simplifyRound_yields (accrues : Accrues allowed s inv) (dropped : List BlockId)
    (made : List Reduction) (holds : inv dropped made g) :
    Yields allowed (g.simplifyRound s) fun (_, round, g') =>
      inv (dropped ++ round.dropped) (made ++ round.reductions) g' := by
  refine (accrues.prune dropped made g holds).bind ?_
  intro ⟨order, g₁⟩ pruned
  refine Yields.bind pruned ?_
  intro ⟨gone, g₂⟩ ⟨holds₂, inside⟩
  have reduced : Yields allowed (order.foldlM (reduceBlock s.rules) (g₂, []))
      (During (inv (dropped ++ gone)) made order) :=
    Yields.foldlM (fun _ => During (inv (dropped ++ gone)) made order)
      ⟨by simpa using holds₂, inside⟩
      fun done b rest state split during => accrues.reduceBlock_yields (by simp [split]) during
  refine reduced.bind ?_
  intro ⟨g', made'⟩ ⟨holds', _⟩
  exact yields_pure holds'

/-! ## Whole runs -/

theorem simplifyFrom_yields (accrues : Accrues allowed s inv) (fuel : Nat) :
    ∀ (made : List Round) (g : Graph),
      allowed .endless ∨ Suffices s (fun n g => ∃ dropped reductions, n = reductions.length ∧
        inv dropped reductions g) (fuel + made.length) →
      inv (made.reverse.flatMap (·.dropped)) (made.reverse.flatMap (·.reductions)) g →
      (∀ round ∈ made, round.reductions ≠ []) →
      made.length = 0 ∨ s.exhausted made.length = false →
      Yields allowed (simplifyFrom s fuel made g) (Accrued s inv) := by
  induction fuel with
  | zero =>
    intro made g enough holds changed going
    obtain endless | enough := enough
    · exact endless
    · -- a run that goes on has made a reduction in every round, so the rounds cannot have run out
      have short := length_le_reductions fun round member => changed round (List.mem_reverse.1 member)
      rw [List.length_reverse] at short
      have bound := enough _ _ g ⟨_, _, rfl, holds⟩ short going
      omega
  | succ fuel ih =>
    intro made g enough holds changed going
    refine (accrues.simplifyRound_yields _ _ holds).bind ?_
    intro ⟨order, round, g'⟩ holds'
    have dropped : (round :: made).reverse.flatMap (·.dropped) =
        made.reverse.flatMap (·.dropped) ++ round.dropped := by simp
    have reductions : (round :: made).reverse.flatMap (·.reductions) =
        made.reverse.flatMap (·.reductions) ++ round.reductions := by simp
    simp only [← dropped, ← reductions] at holds'
    have few : (round :: made).reverse.length ≤
        ((round :: made).reverse.flatMap (·.reductions)).length + 1 := by
      have short := length_le_reductions fun other member =>
        changed other (List.mem_reverse.1 member)
      rw [reductions, List.length_append, List.length_reverse, List.length_cons]
      rw [List.length_reverse] at short
      omega
    have within : ∃ n, (round :: made).reverse.length = n + 1 ∧ (n = 0 ∨ s.exhausted n = false) :=
      ⟨made.length, by simp, going⟩
    -- the round settles the run, meets the limit, or is followed by another one
    simp only
    split
    · exact yields_pure ⟨accrues.order _ _ _ _ holds', few, within⟩
    · rename_i unsettled
      split
      · exact yields_pure ⟨holds', few, within⟩
      · rename_i going'
        refine ih (round :: made) g' ?_ holds' ?_ (.inr (by simpa using going'))
        · rwa [List.length_cons, show fuel + (made.length + 1) = fuel + 1 + made.length by omega]
        · intro other member
          cases member with
          | head => simpa [Round.changed] using unsettled
          | tail _ member => exact changed other member

theorem simplify_yields (accrues : Accrues allowed s inv)
    (enough : allowed .endless ∨ Suffices s (fun n g => ∃ dropped reductions,
      n = reductions.length ∧ inv dropped reductions g) g.roundBound) (holds : inv [] [] g) :
    Yields allowed (g.simplify s) (Accrued s inv) :=
  accrues.simplifyFrom_yields _ [] g enough holds (by simp) (.inl rfl)

end Accrues

/-! ## Invariants that count -/

/-- The invariant, which may speak of the number of reductions made so far, is kept by each part of
a round. -/
structure Carries (allowed : Fault → Prop) (s : Settings) (inv : Nat → Graph → Prop) : Prop where
  prune : ∀ n g, inv n g → Yields allowed g.markReached fun (order, g₁) =>
    Yields allowed (g₁.eliminate order) fun (_, g₂) =>
      inv n g₂ ∧ ∀ b ∈ order, (g₂.block? b).isSome
  reduce : ∀ n g b, ∀ rule ∈ s.rules, b ≠ .entry → (g.block? b).isSome → inv n g →
    Yields allowed (rule g b) fun (g', r) => inv (n + r.toList.length) g' ∧
      ∀ c, (g'.block? c).isSome = (g.block? c).isSome
  order : ∀ n g order, inv n g → inv n { g with order := order }

/-- What a run from `g` ends with. -/
def Reported (inv : Nat → Graph → Prop) (result : Report × Graph) : Prop :=
  inv result.1.reductions.length result.2 ∧
    result.1.rounds.length ≤ result.1.reductions.length + 1

namespace Carries

variable {allowed : Fault → Prop} {s : Settings} {inv : Nat → Graph → Prop}

/-- The count may start anywhere. -/
theorem accrues (carries : Carries allowed s inv) (n : Nat) :
    Accrues allowed s fun _ made => inv (n + made.length) := by
  refine ⟨fun _ made g holds => carries.prune _ g holds, fun _ made g b rule listed inner inside
    holds => ?_, fun _ made g order holds => carries.order _ g order holds⟩
  simp only [List.length_append, ← Nat.add_assoc]
  exact carries.reduce _ g b rule listed inner inside holds

theorem simplifyRound_yields (carries : Carries allowed s inv) {n : Nat} {g : Graph}
    (holds : inv n g) : Yields allowed (g.simplifyRound s) fun (_, round, g') =>
      inv (n + round.reductions.length) g' :=
  (carries.accrues n).simplifyRound_yields [] [] holds

theorem simplifyFrom_yields (carries : Carries allowed s inv) (fuel : Nat) (made : List Round)
    (g : Graph) (enough : allowed .endless ∨ Suffices s inv (fuel + made.length))
    (holds : inv (made.flatMap (·.reductions)).length g)
    (changed : ∀ round ∈ made, round.reductions ≠ [])
    (going : made.length = 0 ∨ s.exhausted made.length = false) :
    Yields allowed (simplifyFrom s fuel made g) (Reported inv) := by
  have reversed : (made.reverse.flatMap (·.reductions)).length =
      (made.flatMap (·.reductions)).length := ((List.reverse_perm _).flatMap_right _).length_eq
  have accrues := carries.accrues 0
  simp only [Nat.zero_add] at accrues
  refine (accrues.simplifyFrom_yields fuel made g ?_ (by rwa [reversed]) changed going).mono
    fun result accrued => ⟨accrued.holds, accrued.few⟩
  refine enough.imp_right fun suffice n m g result => ?_
  obtain ⟨_, reductions, rfl, holds⟩ := result
  exact suffice _ m g holds

theorem simplify_yields (carries : Carries allowed s inv) {g : Graph}
    (enough : allowed .endless ∨ Suffices s inv g.roundBound) (holds : inv 0 g) :
    Yields allowed (g.simplify s) (Reported inv) :=
  carries.simplifyFrom_yields _ [] g enough holds (by simp) (.inl rfl)

end Carries

end Graph

end FlowGraph
