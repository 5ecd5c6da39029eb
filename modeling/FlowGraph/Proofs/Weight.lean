import FlowGraph.Proofs.Reduction
import Mathlib.Algebra.BigOperators.Ring.List
import Mathlib.Algebra.Ring.Nat

/-! # The weight of a graph

Not every reduction removes an edge, a block or a label: a fold may only turn a branch into a
fallthrough, and a merge may only hand labels and edges on to another block. What does fall with
every reduction is a weight that counts the blocks of the layout, those of them with a label, the
arrows, and the arrows that are branches once more. Handing labels on never raises it, because a
block that keeps its place gives its labels only to a block that has one already. -/

namespace FlowGraph

theorem sum_map_le_add {α : Type} [DecidableEq α] {l : List α} (distinct : l.Nodup)
    {f f' : α → Nat} {x : α} {k : Nat} (all : ∀ y ∈ l, f' y ≤ f y + if y = x then k else 0) :
    (l.map f').sum ≤ (l.map f).sum + k := by
  induction l with
  | nil => simp
  | cons y l ih =>
    obtain ⟨fresh, distinct⟩ := List.nodup_cons.1 distinct
    have head := all y (List.mem_cons_self ..)
    simp only [List.map_cons, List.sum_cons]
    by_cases here : y = x
    · -- `x` comes only once, so nothing behind it may grow
      have rest : (l.map f').sum ≤ (l.map f).sum := by
        apply List.sum_le_sum
        intro z member
        have other : z ≠ x := fun same => fresh (here ▸ same ▸ member)
        simpa [other] using all z (List.mem_cons_of_mem _ member)
      rw [if_pos here] at head
      omega
    · have rest := ih distinct fun z member => all z (List.mem_cons_of_mem _ member)
      rw [if_neg here] at head
      omega

/-! ## The weight of a block -/

def View.weight (v : View) : Nat :=
  1 + v.label.isSome.toNat + v.arrows.length + v.arrows.countP (·.2 = .branch)

theorem View.weight_sendOn {v : View} {label : Option Label} {b t : BlockId}
    {sent : EdgeKind → Bool} :
    View.weight { v with label := label, arrows := v.arrows.map (sendOn b t sent) } +
      v.label.isSome.toNat = v.weight + label.isSome.toNat := by
  have kind (a : BlockId × EdgeKind) : (sendOn b t sent a).2 = a.2 := by
    unfold sendOn
    split <;> rfl
  simp only [weight, List.length_map, List.countP_map, Function.comp_def, kind]
  omega

theorem View.weight_le {v : View} : v.weight ≤ 2 + 2 * v.arrows.length := by
  have labels := Bool.toNat_le v.label.isSome
  have branches := List.countP_le_length (p := (·.2 = .branch)) (l := v.arrows)
  unfold weight
  omega

namespace Graph

/-! ## The weight of a graph -/

def weightAt (g : Graph) (b : BlockId) : Nat := (g.view b).elim 0 View.weight

def weight (g : Graph) (xs : List BlockId) : Nat := (xs.map g.weightAt).sum

section

variable {g g' : Graph} {xs xs' : List BlockId} {b t : BlockId} {v : View}

theorem weightAt_eq (seen : g.view b = some v) : g.weightAt b = v.weight := by
  rw [weightAt, seen, Option.elim_some]

theorem Coherent.sum_succs_le (coherent : g.Coherent xs) :
    (xs.map fun b => ((g.block? b).elim [] Block.succs).length).sum ≤ g.edges.capacity := by
  let listed (b : BlockId) : List EdgeId := (g.block? b).elim [] Block.succs
  have source (b : BlockId) (e : EdgeId) (member : e ∈ listed b) :
      ∃ edge, g.edges.get? e = some edge ∧ edge.src = b := by
    cases found : g.block? b with
    | none => simp [listed, found] at member
    | some data => exact coherent.edge_of_mem_succs found (by simpa [listed, found] using member)
  -- an edge is listed by its source alone, and there only once
  have distinct : ((xs.flatMap listed).map EdgeId.index).Nodup := by
    refine List.Nodup.map (fun e e' => congrArg EdgeId.mk) (List.nodup_flatMap.2 ⟨fun b _ => ?_, ?_⟩)
    · cases found : g.block? b with
      | none => simp [listed, found]
      | some data => simpa [listed, found] using (coherent.succs found).1
    · refine coherent.laid.nodup.imp fun {b c} apart e inB inC => apart ?_
      obtain ⟨edge, stored, rfl⟩ := source b e inB
      obtain ⟨edge', stored', rfl⟩ := source c e inC
      rw [stored] at stored'
      cases stored'
      rfl
  have bounded : (xs.flatMap listed).map EdgeId.index ⊆ List.range g.edges.capacity := by
    intro i member
    obtain ⟨e, inside, rfl⟩ := List.mem_map.1 member
    obtain ⟨b, -, inB⟩ := List.mem_flatMap.1 inside
    obtain ⟨edge, stored, -⟩ := source b e inB
    refine List.mem_range.2 (Nat.lt_of_not_le fun outside => ?_)
    simp [EdgePool.get?, Array.getElem?_eq_none outside] at stored
  simpa [List.length_flatMap] using (List.subperm_of_subset distinct bounded).length_le

/-- At first there are two for each block and two for each edge. -/
theorem Coherent.weight_le (coherent : g.Coherent xs) (full : g.edges.free = []) :
    g.weight xs ≤ 2 * (g.liveCount + g.edgeCount) := by
  have each : g.weight xs ≤
      (xs.map fun b => 2 + 2 * ((g.block? b).elim [] Block.succs).length).sum := by
    apply List.sum_le_sum
    intro b member
    obtain ⟨data, found⟩ := coherent.laid.exists_block member
    have few := View.weight_le (v := g.look data)
    rw [weightAt_eq (view_eq found), found]
    rwa [look, coherent.length_arrows found] at few
  have edges : g.edgeCount = g.edges.capacity := by
    simp [edgeCount, EdgePool.size, EdgePool.capacity, full]
  have listed := coherent.sum_succs_le
  rw [List.sum_map_add, List.sum_map_mul_left] at each
  simp only [List.map_const', List.sum_replicate, Nat.nsmul_eq_mul] at each
  rw [coherent.count, edges]
  omega

theorem Eliminated.weight_le {gone : List BlockId} (eliminated : Eliminated xs gone g g')
    (coherent : g.Coherent xs) : g'.weight (xs.filter (· ∉ gone)) ≤ g.weight xs := by
  have same : (xs.filter (· ∉ gone)).map g'.weightAt = (xs.filter (· ∉ gone)).map g.weightAt := by
    apply List.map_congr_left
    intro c member
    have kept : c ∉ gone := by simpa using (List.mem_filter.1 member).2
    rw [weightAt, weightAt, eliminated.view coherent kept]
  rw [weight, same]
  exact ((List.filter_sublist).map g.weightAt).sum_le_sum fun _ _ => Nat.zero_le _

theorem Recoded.weight_lt {v' : View} (recoded : Recoded b v v' g g') (member : b ∈ xs)
    (lighter : v'.weight + 1 ≤ v.weight) : g'.weight xs + 1 ≤ g.weight xs := by
  refine sum_map_add_le member (fun c _ => ?_) ?_
  · by_cases here : c = b
    · rw [here, weightAt_eq recoded.before, weightAt_eq recoded.after]
      omega
    · rw [weightAt, weightAt, recoded.other c here]
  · rw [weightAt_eq recoded.before, weightAt_eq recoded.after]
    exact lighter

namespace Merged

variable {kind : EdgeKind}

/-- What another block gains or loses in weight is what it gains or loses in labels. -/
theorem weightAt_add {whole : Bool} (merged : Merged xs xs' b t v kind whole g g')
    (coherent : g.Coherent xs) {c : BlockId} (inside : c ∈ xs) (apart : c ≠ b) :
    ∃ u label, g.view c = some u ∧ (c ≠ t → label = u.label) ∧
      (label.isSome → v.label.isSome ∨ u.label.isSome) ∧
      g'.weightAt c + u.label.isSome.toNat = g.weightAt c + label.isSome.toNat := by
  obtain ⟨data, found⟩ := coherent.laid.exists_block inside
  obtain ⟨label, seen', same, gained⟩ := merged.other c _ apart (view_eq found)
  refine ⟨_, label, view_eq found, same, gained, ?_⟩
  rw [weightAt_eq seen', weightAt_eq (view_eq found), View.weight_sendOn]

/-- A block that stays loses its label to one that has a label already. -/
theorem weight_lt_of_stays (merged : Merged xs xs' b t v kind false g g')
    (coherent : g.Coherent xs) (member : b ∈ xs) : g'.weight xs' + 1 ≤ g.weight xs := by
  obtain rfl : xs' = xs := merged.remaining
  have own := weightAt_eq (merged.self rfl)
  have labelled := merged.labelled rfl
  have lighter : View.weight { v with label := none } + 1 ≤ v.weight := by
    simp only [View.weight, labelled, Option.isSome_none, Bool.toNat_true, Bool.toNat_false]
    omega
  refine sum_map_add_le member (fun c inside => ?_) (by rwa [own, weightAt_eq merged.seen])
  by_cases here : c = b
  · rw [here, own, weightAt_eq merged.seen]
    omega
  · obtain ⟨u, label, seen, same, -, balance⟩ := merged.weightAt_add coherent inside here
    have gain : label.isSome.toNat ≤ u.label.isSome.toNat := by
      by_cases atTarget : c = t
      · rw [merged.target rfl u (atTarget ▸ seen)]
        exact Bool.toNat_le _
      · rw [same atTarget]
    omega

/-- A block that goes takes its place with it, which outweighs the label it leaves behind. -/
theorem weight_lt_of_leaves (merged : Merged xs xs' b t v kind true g g')
    (coherent : g.Coherent xs) (member : b ∈ xs) : g'.weight xs' + 1 ≤ g.weight xs := by
  obtain rfl : xs' = xs.erase b := merged.remaining
  have split := List.sum_map_erase g.weightAt member
  have own : 2 + v.label.isSome.toNat ≤ g.weightAt b := by
    rw [weightAt_eq merged.seen, View.weight, merged.arrows, List.length_singleton]
    omega
  have rest : g'.weight (xs.erase b) ≤
      ((xs.erase b).map g.weightAt).sum + v.label.isSome.toNat := by
    apply sum_map_le_add (coherent.laid.nodup.erase b) (x := t)
    intro c inside
    have erased := coherent.laid.nodup.mem_erase_iff.1 inside
    obtain ⟨u, label, seen, same, gained, balance⟩ :=
      merged.weightAt_add coherent erased.2 erased.1
    by_cases atTarget : c = t
    · have gain : label.isSome.toNat ≤ v.label.isSome.toNat + u.label.isSome.toNat := by
        cases labelled : label.isSome with
        | false => exact Nat.zero_le _
        | true =>
          cases gained labelled with
          | inl own =>
            rw [own]
            omega
          | inr target =>
            rw [target]
            omega
      rw [if_pos atTarget]
      omega
    · rw [same atTarget] at balance
      omega
  simp only [weight] at rest ⊢
  omega

theorem weight_lt {whole : Bool} (merged : Merged xs xs' b t v kind whole g g')
    (coherent : g.Coherent xs) : g'.weight xs' + 1 ≤ g.weight xs := by
  have ownArrow : (t, kind) ∈ v.arrows := by simp [merged.arrows]
  obtain ⟨member, -⟩ := coherent.of_mem_arrows merged.seen ownArrow
  cases whole with
  | false => exact merged.weight_lt_of_stays coherent member
  | true => exact merged.weight_lt_of_leaves coherent member

end Merged

theorem Reduces.weight_lt {made : Reduction} (reduces : Reduces xs g g' xs' made)
    (coherent : g.Coherent xs) : g'.weight xs' + 1 ≤ g.weight xs := by
  cases reduces with
  | @branch b n v rest folded =>
    obtain ⟨member, -⟩ := coherent.of_mem_arrows (a := (n, .branch)) folded.recoded.before
      (by simp [folded.arrows])
    refine folded.recoded.weight_lt member ?_
    cases rest with
    -- a branch weighs twice as much as a fallthrough
    | nil => simp [View.weight, folded.arrows]
    | cons a rest => simp [View.weight, folded.arrows]; omega
  | @conditional b n d v u i folded =>
    obtain ⟨member, -⟩ := coherent.of_mem_arrows (a := (d, .branch)) folded.recoded.before
      (by simp [folded.arrows])
    refine folded.recoded.weight_lt member ?_
    simp [View.weight, folded.arrows]
  | merge _ merged => exact merged.weight_lt coherent

end

/-! ## Runs on faithful graphs -/

section

variable {allowed : Fault → Prop} {s : Settings} {inv : Graph → List BlockId → Prop}

/-- The reductions made so far and the weight that is left together never exceed `bound`. -/
def Bounded (allowed : Fault → Prop) (inv : Graph → List BlockId → Prop) (bound n : Nat)
    (g : Graph) : Prop :=
  ∃ xs, g.Faithful xs ∧ Ready allowed g xs ∧ n + g.weight xs ≤ bound ∧ inv g xs

theorem Preserved.carries (preserved : Preserved inv) (bound : Nat) :
    Carries allowed s (Bounded allowed inv bound) := by
  refine ⟨?prune, ?reduce, ?order⟩
  case prune =>
    intro n g ⟨xs, faithful, ready, few, holds⟩
    apply (prune_yields faithful.coherent ready).mono
    intro (order, g₁) dropped
    apply dropped.mono
    intro (gone, g₂) ⟨eliminated, inside⟩
    have lighter := eliminated.weight_le faithful.coherent
    exact ⟨⟨_, faithful.eliminated eliminated, ready.evolves eliminated.evolves, by omega,
      preserved.drop faithful holds eliminated⟩, inside⟩
  case reduce =>
    intro n g b rule listed notEntry inside ⟨xs, faithful, ready, few, holds⟩
    apply (faithful.rule_yields listed notEntry inside).mono
    intro (g', r) result
    obtain ⟨rfl, rfl⟩ | ⟨xs', made, rfl, evolves, faithful', reduces⟩ := result
    · exact ⟨⟨xs, faithful, ready, few, holds⟩, fun _ => rfl⟩
    · have lighter := reduces.weight_lt faithful.coherent
      exact ⟨⟨xs', faithful', ready.evolves evolves, by simp; omega,
        preserved.reduce faithful evolves holds reduces⟩, evolves.inside⟩
  case order =>
    intro n g order ⟨xs, faithful, ready, few, holds⟩
    exact ⟨xs, ⟨faithful.coherent.reorder order, faithful.agrees, faithful.exact.congr (.refl _ g) rfl⟩,
      ⟨ready.unmarked, ready.enlisted⟩, few, preserved.reorder order holds⟩

/-- A graph just built is no heavier than it has blocks and edges, twice counted. -/
theorem bounded_of_built {g₀ g : Graph} (built : g₀.build = .ok g) (consistent : g.violations = .ok [])
    (exact : g.LabelsExact) (start : ∀ xs, g.Faithful xs → inv g xs) :
    Bounded g.Unlinkable inv (2 * (g.liveCount + g.edgeCount)) 0 g := by
  obtain ⟨xs, faithful, ready, full⟩ := built_faithful built consistent exact
  have light := faithful.coherent.weight_le full
  exact ⟨xs, faithful, ready, by omega, start xs faithful⟩

/-- Simplifying a graph just built ends after a bounded number of reductions, unless the layout holds
a block that is not live, and carries along whatever is preserved. -/
theorem Preserved.simplify_yields (preserved : Preserved inv) {g₀ g : Graph}
    (built : g₀.build = .ok g) (consistent : g.violations = .ok []) (exact : g.LabelsExact)
    (start : ∀ xs, g.Faithful xs → inv g xs) :
    Yields g.Unlinkable (g.simplify s) fun (report, g') =>
      report.reductions.length ≤ 2 * (g.liveCount + g.edgeCount) ∧
        report.rounds.length ≤ report.reductions.length + 1 ∧ ∃ xs, g'.Faithful xs ∧ inv g' xs := by
  have holds := bounded_of_built built consistent exact start
  set bound := 2 * (g.liveCount + g.edgeCount) with isBound
  -- every round so far made a reduction, and the weight bounds their number
  have enough : Suffices s (Bounded g.Unlinkable inv bound) g.roundBound := by
    intro n m h ⟨_, _, _, few, _⟩ made _
    have positive : 0 < UInt64.size := by decide
    unfold roundBound
    omega
  refine ((preserved.carries bound).simplify_yields (.inr enough) holds).mono ?_
  intro ⟨report, g'⟩ ⟨⟨xs', faithful', _, few, holds'⟩, rounds⟩
  exact ⟨by simp only at few ⊢; omega, rounds, xs', faithful', holds'⟩

end

end Graph

end FlowGraph
