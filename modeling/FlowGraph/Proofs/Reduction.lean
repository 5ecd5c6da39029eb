import FlowGraph.Proofs.Build
import FlowGraph.Proofs.Consistency
import FlowGraph.Proofs.Folding
import FlowGraph.Proofs.Merging
import FlowGraph.Proofs.Run

/-! # The parts of a round together

Every reduction is a fold or a merge. In any coherent graph it keeps the graph coherent, and fails
for no other reason than a chain of labels without end. In a faithful graph, where arrows and
instructions agree and labels are exact, it cannot fail, and the graph stays faithful. -/

namespace FlowGraph

theorem Settings.mem_rules_iff {s : Settings} {rule : Graph.Rule} : rule ∈ s.rules ↔
    s.foldBranches = true ∧ (rule = Graph.foldBranch ∨ rule = Graph.foldConditional) ∨
      s.mergeEmpty = true ∧ rule = Graph.mergeEmpty := by
  unfold rules
  cases s.foldBranches <;> cases s.mergeEmpty <;> simp [or_assoc]

theorem Settings.mem_rules {s : Settings} {rule : Graph.Rule} (listed : rule ∈ s.rules) :
    rule = Graph.foldBranch ∨ rule = Graph.foldConditional ∨ rule = Graph.mergeEmpty := by
  obtain ⟨-, fold⟩ | ⟨-, merge⟩ := mem_rules_iff.1 listed
  · exact or_assoc.1 (.inl fold)
  · exact .inr (.inr merge)

namespace Graph

section

variable {allowed : Fault → Prop} {g g' : Graph} {xs : List BlockId} {s : Settings} {b : BlockId}

/-! ## Dropping unreachable blocks, and keeping the order of a search -/

theorem prune_swept (coherent : g.Coherent xs) (ready : Ready allowed g xs) :
    Yields allowed g.markReached fun (order, g₁) => Remarked g g₁ ∧
      Yields allowed (g₁.eliminate order) fun (gone, g₃) => Eliminated xs gone g g₃ ∧
        (∀ b ∈ order, (g₃.block? b).isSome) ∧
        ∃ t g₂, t.Sublist xs ∧ Swept g₁ xs t gone g₂ ∧ g₃ = g₂.setMarks order false := by
  apply (markReached_yields coherent).mono
  intro (order, g₁) ⟨explored, remarked, marks⟩
  refine ⟨remarked, ?_⟩
  have swept : Yields allowed (g₁.eliminate order) _ :=
    eliminate_swept coherent ready.unmarked explored remarked marks ready.enlisted
  apply ((eliminate_yields coherent ready.unmarked explored remarked marks
    ready.enlisted).and_of_eq_ok fun _ => swept.of_eq_ok).mono
  intro (gone, g₃) ⟨⟨eliminated, _⟩, ⟨t, g₂, split, swept, cleared⟩, _⟩
  refine ⟨eliminated, fun b member => ?_, t, g₂, ?_, swept, cleared⟩
  · rw [eliminated.label.isSome_eq]
    exact explored.inside b member
  · rw [split]
    exact List.sublist_cons_self _ t

theorem prune_yields (coherent : g.Coherent xs) (ready : Ready allowed g xs) :
    Yields allowed g.markReached fun (order, g₁) => Yields allowed (g₁.eliminate order)
      fun (gone, g₂) => Eliminated xs gone g g₂ ∧ ∀ b ∈ order, (g₂.block? b).isSome := by
  apply (prune_swept coherent ready).mono
  intro (order, g₁) ⟨_, swept⟩
  apply swept.mono
  intro (gone, g₂) ⟨eliminated, inside, _⟩
  exact ⟨eliminated, inside⟩

theorem Eliminated.labelsExact {gone : List BlockId} (eliminated : Eliminated xs gone g g')
    (exact : g.LabelsExact) : g'.LabelsExact :=
  exact.congr eliminated.label eliminated.labels

theorem Coherent.reorder (coherent : g.Coherent xs) (order : Option (List BlockId)) :
    ({ g with order := order } : Graph).Coherent xs :=
  coherent.congr (.refl _ g) (fun _ => rfl) rfl

/-! ## Reductions in a coherent graph -/

theorem passLabels_safe (safe : allowed .endless ∨ g.LabelsExact) {data : Block}
    (found : g.block? b = some data) {t : BlockId} {new : Block} (foundT : g.block? t = some new)
    (apart : b ≠ t) : Yields allowed (g.passLabels b t data.label) fun g₀ =>
      Relabelled g g₀ ∧ (g.LabelsExact → g₀.LabelsExact) := by
  by_cases exact : g.LabelsExact
  · exact (passLabels_exact exact apart found foundT).mono fun g₀ moved =>
      ⟨moved.relabelled, fun _ => moved.exact⟩
  · -- a chain that is not exact may lead in a circle, which is then an allowed failure
    have endless := safe.resolve_right exact
    have passed := passLabels_yields (b := b) (Option.isSome_of_eq_some foundT) data.label
    cases returned : g.passLabels b t data.label with
    | ok g₀ => exact ⟨passed.of_eq_ok returned, fun exact' => absurd exact' exact⟩
    | error f =>
      obtain rfl := passed.of_eq_error returned
      exact endless

theorem Recoded.labelsExact {v v' : View} (recoded : Recoded b v v' g g') (exact : g.LabelsExact)
    (label : v'.label = v.label) : g'.LabelsExact := by
  refine exact.congr (fun c => ?_) recoded.labels
  -- primary labels can be read off the views
  have read (h : Graph) : (h.block? c).map Block.label = (h.view c).map View.label := by
    rw [view, Option.map_map]
    rfl
  rw [read, read]
  by_cases here : c = b
  · rw [here, recoded.before, recoded.after, Option.map_some, Option.map_some, label]
  · rw [recoded.other c here]

/-- In a coherent graph, whose instructions may say something else than its edges, a rule fails only
if a chain of labels has no end. -/
theorem rule_evolves (coherent : g.Coherent xs) (safe : allowed .endless ∨ g.LabelsExact)
    {rule : Rule} (listed : rule ∈ s.rules) (notEntry : b ≠ .entry) (inside : (g.block? b).isSome) :
    Yields allowed (rule g b) fun (g', _) =>
      ∃ xs', Evolves xs xs' g g' ∧ (g.LabelsExact → g'.LabelsExact) := by
  obtain rfl | rfl | rfl := Settings.mem_rules listed
  · apply (foldBranch_yields coherent inside).mono
    intro (g', r) result
    obtain ⟨-, rfl⟩ | ⟨-, evolves, n, v, rest, folded⟩ := result
    · exact ⟨xs, .of_same coherent (.refl _ _), id⟩
    · exact ⟨xs, evolves, fun exact => folded.recoded.labelsExact exact rfl⟩
  · apply (foldConditional_yields coherent inside).mono
    intro (g', r) result
    obtain ⟨-, rfl⟩ | ⟨n, d, -, evolves, v, u, i, folded⟩ := result
    · exact ⟨xs, .of_same coherent (.refl _ _), id⟩
    · exact ⟨xs, evolves, fun exact => folded.recoded.labelsExact exact rfl⟩
  · obtain ⟨data, found⟩ := Option.isSome_iff_exists.1 inside
    have pass (t : BlockId) (new : Block) (foundT : g.block? t = some new) (apart : b ≠ t) :=
      passLabels_safe safe found foundT apart
    apply (mergeEmpty_yields coherent notEntry found pass).mono
    intro (g', r) result
    obtain ⟨-, rfl⟩ | ⟨xs', t, v, out, kind, ms, n, g₀, -, evolves, -, exact, merged⟩ := result
    · exact ⟨xs, .of_same coherent (.refl _ _), id⟩
    · exact ⟨xs', evolves, fun before => merged.labelsExact (exact before)⟩

/-- With exact labels a merge hands on all labels of the block, and cannot fail. -/
theorem mergeEmpty_exact (coherent : g.Coherent xs) (exact : g.LabelsExact) (notEntry : b ≠ .entry)
    (inside : (g.block? b).isSome) : Yields allowed (mergeEmpty g b) fun (g', r) =>
      (r = none ∧ g' = g) ∨ ∃ xs' t v out kind ms n g₀, r = some (.blockMerged b t n) ∧
        Evolves xs xs' g g' ∧ LabelsMoved b t g g₀ ∧ MergedFrom xs xs' b t v out kind ms g g₀ g' := by
  obtain ⟨data, found⟩ := Option.isSome_iff_exists.1 inside
  have pass (t : BlockId) (new : Block) (foundT : g.block? t = some new) (apart : b ≠ t) :
      Yields allowed (g.passLabels b t data.label) fun g₀ => Relabelled g g₀ ∧ LabelsMoved b t g g₀ :=
    (passLabels_exact exact apart found foundT).mono fun g₀ moved => ⟨moved.relabelled, moved⟩
  apply (mergeEmpty_yields coherent notEntry found pass).mono
  intro (g', r) result
  apply result.imp_right
  intro ⟨xs', t, v, out, kind, ms, n, g₀, made, evolves, _, moved, merged⟩
  exact ⟨xs', t, v, out, kind, ms, n, g₀, made, evolves, moved, merged⟩

end

/-! ## Reductions in a faithful graph -/

/-- The three accounts of control flow, in edges, in instructions and in labels, are the same. -/
structure Faithful (g : Graph) (xs : List BlockId) : Prop where
  coherent : g.Coherent xs
  agrees : g.Agrees xs
  exact : g.LabelsExact

/-- Some block of the layout is not live, so that it cannot be unlinked. -/
def Unlinkable (g : Graph) (f : Fault) : Prop :=
  ∃ xs b data, g.layout = .ok xs ∧ b ∈ xs ∧ g.block? b = some data ∧ data.status ≠ .live ∧
    f = .cannotDetach b b

/-- What the check accepts of a graph just built is faithful, provided that its labels are exact. -/
theorem built_faithful {g₀ g : Graph} (built : g₀.build = .ok g) (consistent : g.violations = .ok [])
    (exact : g.LabelsExact) : ∃ xs, g.Faithful xs ∧ Ready g.Unlinkable g xs ∧ g.edges.free = [] := by
  obtain ⟨xs, verified⟩ := violations_eq_nil_iff.1 consistent
  obtain ⟨agrees, sources, full⟩ := build_inv built verified.laid
  have layout := verified.laid.layout_eq
  refine ⟨xs, ⟨verified.coherent sources, agrees, exact⟩, ⟨fun c member => ?_,
    fun c member data found => ?_⟩, full⟩
  · obtain ⟨data, found⟩ := verified.laid.exists_block member
    exact ⟨data, found, verified.unmarked member found⟩
  · by_cases live : data.status = .live
    · exact .inl live
    · exact .inr ⟨xs, c, data, layout, member, found, live, rfl⟩

/-- What a reduction that is reported has done. -/
inductive Reduces (xs : List BlockId) (g g' : Graph) : List BlockId → Reduction → Prop where
  | branch {b n v rest} (folded : BranchFolded b n v rest g g') :
    Reduces xs g g' xs (.branchFolded b)
  | conditional {b n d v u i} (folded : ConditionalFolded b n d v u i g g') :
    Reduces xs g g' xs (.conditionalFolded b n d)
  | merge {xs' b t v kind whole n} (notEntry : b ≠ .entry)
    (merged : Merged xs xs' b t v kind whole g g') : Reduces xs g g' xs' (.blockMerged b t n)

section

variable {allowed : Fault → Prop} {g g' : Graph} {xs : List BlockId} {s : Settings} {b : BlockId}

theorem Faithful.eliminated {gone : List BlockId} (faithful : g.Faithful xs)
    (eliminated : Eliminated xs gone g g') : g'.Faithful (xs.filter (· ∉ gone)) :=
  ⟨eliminated.coherent, faithful.agrees.eliminated faithful.coherent eliminated,
    eliminated.labelsExact faithful.exact⟩

/-- In a faithful graph a rule does nothing, or makes the reduction it reports. -/
theorem Faithful.rule_yields (faithful : g.Faithful xs) {rule : Rule} (listed : rule ∈ s.rules)
    (notEntry : b ≠ .entry) (inside : (g.block? b).isSome) :
    Yields allowed (rule g b) fun (g', r) => (r = none ∧ g' = g) ∨
      ∃ xs' made, r = some made ∧ Evolves xs xs' g g' ∧ g'.Faithful xs' ∧ Reduces xs g g' xs' made := by
  obtain ⟨coherent, agrees, exact⟩ := faithful
  obtain rfl | rfl | rfl := Settings.mem_rules listed
  · apply (foldBranch_yields coherent inside).mono
    intro (g', r) result
    apply result.imp_right
    intro ⟨made, evolves, n, v, rest, folded⟩
    exact ⟨xs, _, made, evolves, ⟨evolves.coherent, folded.agrees coherent agrees,
      folded.recoded.labelsExact exact rfl⟩, .branch folded⟩
  · apply (foldConditional_yields coherent inside).mono
    intro (g', r) result
    apply result.imp_right
    intro ⟨n, d, made, evolves, v, u, i, folded⟩
    exact ⟨xs, _, made, evolves, ⟨evolves.coherent, folded.agrees coherent agrees,
      folded.recoded.labelsExact exact rfl⟩, .conditional folded⟩
  · apply (mergeEmpty_exact coherent exact notEntry inside).mono
    intro (g', r) result
    apply result.imp_right
    intro ⟨xs', t, v, out, kind, ms, n, g₀, made, evolves, moved, sent⟩
    obtain ⟨whole, merged⟩ := sent.merged coherent agrees moved exact
    exact ⟨xs', _, made, evolves, ⟨evolves.coherent, merged.agrees, merged.exact⟩,
      .merge notEntry merged⟩

end

/-- A property of faithful graphs that no part of a round destroys. -/
structure Preserved (inv : Graph → List BlockId → Prop) : Prop where
  drop {g g' : Graph} {xs gone : List BlockId} : g.Faithful xs → inv g xs →
    Eliminated xs gone g g' → inv g' (xs.filter (· ∉ gone))
  reduce {g g' : Graph} {xs xs' : List BlockId} {made : Reduction} : g.Faithful xs →
    Evolves xs xs' g g' → inv g xs → Reduces xs g g' xs' made → inv g' xs'
  reorder {g : Graph} {xs : List BlockId} (order : Option (List BlockId)) : inv g xs →
    inv { g with order := order } xs

theorem preserved_true : Preserved fun _ _ => True :=
  ⟨fun _ _ _ => trivial, fun _ _ _ _ => trivial, fun _ _ => trivial⟩

end Graph

end FlowGraph
