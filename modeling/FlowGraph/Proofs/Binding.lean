import FlowGraph.Proofs.Doubling
import FlowGraph.Proofs.Labels
import FlowGraph.Proofs.Operation

/-! # What binding does to chains

A label that was bound to no block comes in front of the chain of its block, and exact labels stay
exact. A label that was bound to another block is taken from the middle of that block's chain: the
link that led on from it now belongs to its new block, so the old chain no longer comes to its end.
Binding further labels does not mend this. So labels bound one after the other stay exact as long as,
and only as long as, none is taken from the block it is bound to. -/

namespace FlowGraph

/-! ## Binding in the table -/

namespace LabelTable

section

variable (t : LabelTable) {l l' : Label} (b : BlockId) (older : Option Label)

theorem get?_bind_self : (t.bind l b older).get? l = some ⟨some b, older⟩ := by
  rw [get?_eq_some_iff rfl, known_bind, if_pos rfl]

theorem get?_bind_of_ne (apart : l' ≠ l) {slot : LabelSlot} {c : BlockId}
    (bound : slot.block = some c) :
    (t.bind l b older).get? l' = some slot ↔ t.get? l' = some slot := by
  rw [get?_eq_some_iff bound, get?_eq_some_iff bound, known_bind, if_neg apart]

theorem resolve_bind (l l' : Label) :
    (t.bind l b older).resolve l' = if l' = l then some b else t.resolve l' := by
  rw [resolve_eq, known_bind, resolve_eq]
  split <;> rfl

end

/-! ### Chains before and after -/

namespace Chain

variable {t : LabelTable} {b c : BlockId} {l : Label} {o older : Option Label} {ls ls' : List Label}

theorem unique (chain : t.Chain b o ls) (chain' : t.Chain b o ls') : ls = ls' := by
  induction ls generalizing o ls' with
  | nil =>
    obtain rfl : o = none := chain
    cases ls' with
    | nil => rfl
    | cons l' ls' => cases chain'.1
  | cons l ls ih =>
    obtain ⟨rfl, older, slot, rest⟩ := chain
    cases ls' with
    | nil => cases chain'
    | cons l' ls' =>
      obtain ⟨same, older', slot', rest'⟩ := chain'
      cases same
      rw [slot] at slot'
      cases slot'
      rw [ih rest rest']

/-- From each of its labels on, a chain goes on as a chain. -/
theorem of_mem (chain : t.Chain b o ls) (member : l ∈ ls) :
    ∃ rest, t.Chain b (some l) rest ∧ rest.length ≤ ls.length := by
  induction ls generalizing o with
  | nil => cases member
  | cons l' ls ih =>
    cases member with
    | head =>
      obtain ⟨rfl, -⟩ := id chain
      exact ⟨_, chain, le_rfl⟩
    | tail _ member =>
      obtain ⟨-, older, -, tail⟩ := chain
      obtain ⟨rest, chain', short⟩ := ih tail member
      exact ⟨rest, chain', short.trans (Nat.le_succ _)⟩

/-- A chain that comes to its end does not meet its first label again. -/
theorem head_not_mem (chain : t.Chain b o (l :: ls)) : l ∉ ls := by
  intro member
  obtain ⟨rfl, older, -, tail⟩ := id chain
  obtain ⟨rest, chain', short⟩ := tail.of_mem member
  rw [← chain.unique chain', List.length_cons] at short
  omega

/-- The binding of a label is seen by no chain without it. -/
theorem bind_iff (absent : l ∉ ls) : (t.bind l b older).Chain c o ls ↔ t.Chain c o ls := by
  induction ls generalizing o with
  | nil => rfl
  | cons l' ls ih =>
    simp only [List.mem_cons, not_or] at absent
    have slot (next : Option Label) :
        (t.bind l b older).get? l' = some ⟨some c, next⟩ ↔ t.get? l' = some ⟨some c, next⟩ :=
      get?_bind_of_ne t b older (Ne.symm absent.1) rfl
    simp only [Chain, slot, ih absent.2]

end Chain

end LabelTable

namespace Graph

/-! ## Binding one label -/

variable {g : Graph} {b c : BlockId} {l : Label}

/-- A label that is not bound to `b` yet has been bound to it. -/
structure Bound (g : Graph) (b : BlockId) (l : Label) (g' : Graph) : Prop where
  inner : b ≠ .entry
  fresh : g.resolve l ≠ some b
  eq : ∃ data, g.block? b = some data ∧
    g' = ({ g with labels := g.labels.bind l b data.label } : Graph).modify b
      ({ · with label := some l })

theorem bindLabel_yields (g : Graph) (b : BlockId) (l : Label) :
    Yields (fun _ => True) (g.bindLabel b l) fun g' => g' = g ∨ Bound g b l g' := by
  refine require_yields.bind fun _ inner => ?_
  split
  · exact yields_pure (.inl rfl)
  · rename_i fresh
    exact (block_yields g b).bind fun data found =>
      yields_pure (.inr ⟨inner, fresh, data, found, rfl⟩)

theorem perform_bindLabel (g : Graph) (b : BlockId) (l : Label) :
    g.perform (.bindLabel b l) = g ∨ Bound g b l (g.perform (.bindLabel b l)) :=
  have step : Yields (fun _ => True) ((Operation.bindLabel b l).apply g)
      fun g' => g' = g ∨ Bound g b l g' := bindLabel_yields g b l
  perform_of_yields (.inl rfl) step

theorem Bound.resolve {g' : Graph} (bound : Bound g b l g') (l' : Label) :
    g'.resolve l' = if l' = l then some b else g.resolve l' := by
  obtain ⟨-, -, data, -, rfl⟩ := bound
  exact LabelTable.resolve_bind g.labels b data.label l l'

theorem Bound.isSome_eq {g' : Graph} (bound : Bound g b l g') (c : BlockId) :
    (g'.block? c).isSome = (g.block? c).isSome := by
  obtain ⟨-, -, data, -, rfl⟩ := bound
  exact isSome_block?_modify

theorem Bound.block_of_ne {g' : Graph} (bound : Bound g b l g') (apart : c ≠ b) :
    g'.block? c = g.block? c := by
  obtain ⟨-, -, data, -, rfl⟩ := bound
  rw [block?_modify, if_neg apart]
  rfl

/-- A label without a block comes in front. -/
theorem Bound.labelsExact {g' : Graph} (bound : Bound g b l g') (exact : g.LabelsExact)
    (free : g.resolve l = none) : g'.LabelsExact := by
  have resolve := bound.resolve
  apply labelsExact_iff.2
  intro c data' found'
  have absent {ls : List Label} {d : BlockId} {o : Option Label} (owns : g.Owns d o ls) : l ∉ ls := by
    intro member
    rw [(owns.mem_iff l).1 member] at free
    cases free
  by_cases here : c = b
  · subst c
    obtain ⟨-, -, data, found, rfl⟩ := bound
    change (Graph.modify _ b _).block? b = _ at found'
    rw [block?_modify, if_pos rfl] at found'
    change (g.block? b).map _ = _ at found'
    rw [found, Option.map_some] at found'
    cases found'
    obtain ⟨ls, owns⟩ := labelsExact_iff.1 exact b data found
    refine ⟨l :: ls, ⟨rfl, data.label, g.labels.get?_bind_self b data.label,
      (LabelTable.Chain.bind_iff (absent owns)).2 owns.chain⟩,
      List.nodup_cons.2 ⟨absent owns, owns.distinct⟩, fun l' here => ?_⟩
    rw [resolve] at here
    split at here
    · exact List.mem_cons.2 (.inl ‹_›)
    · exact List.mem_cons_of_mem _ (owns.complete l' here)
  · rw [bound.block_of_ne here] at found'
    obtain ⟨ls, owns⟩ := labelsExact_iff.1 exact c data' found'
    refine ⟨ls, ?_, owns.distinct, fun l' there => owns.complete l' ?_⟩
    · obtain ⟨-, -, data, -, rfl⟩ := bound
      exact (LabelTable.Chain.bind_iff (absent owns)).2 owns.chain
    · rw [resolve] at there
      split at there
      · exact absurd (Option.some.inj there).symm here
      · exact there

/-! ## Chains that have lost a label -/

/-- The links that start at the block do not come to an end within its own labels. -/
def Unchained (g : Graph) (c : BlockId) : Prop :=
  ∃ data, g.block? c = some data ∧ ∀ ls, ¬g.labels.Chain c data.label ls

theorem Unchained.not_exact (unchained : g.Unchained c) : ¬g.LabelsExact := by
  intro exact
  obtain ⟨data, found, broken⟩ := unchained
  obtain ⟨ls, owns⟩ := labelsExact_iff.1 exact c data found
  exact broken ls owns.chain

/-- No binding mends a chain. A label that comes in front leads into what there was before. -/
theorem Bound.unchained {g' : Graph} (bound : Bound g b l g') (unchained : g.Unchained c) :
    g'.Unchained c := by
  obtain ⟨data, found, broken⟩ := unchained
  by_cases here : c = b
  · subst c
    obtain ⟨-, -, data', found', rfl⟩ := bound
    rw [found] at found'
    cases found'
    refine ⟨{ data with label := some l }, ?_, fun ls chain => ?_⟩
    · rw [block?_modify, if_pos rfl]
      change (g.block? b).map _ = _
      rw [found, Option.map_some]
    · cases ls with
      | nil => cases chain
      | cons l' ls =>
        obtain ⟨same, older, slot, rest⟩ := id chain
        cases same
        have again := g.labels.get?_bind_self (l := l) b data.label
        rw [show (g.labels.bind l b data.label).get? l = _ from slot] at again
        cases again
        exact broken ls ((LabelTable.Chain.bind_iff chain.head_not_mem).1 rest)
  · have found' : g'.block? c = some data := by rw [bound.block_of_ne here, found]
    refine ⟨data, found', fun ls chain => ?_⟩
    have resolve := bound.resolve l
    rw [if_pos rfl] at resolve
    -- the chain is all bound to `c`, and the label is bound to `b` now
    have absent : l ∉ ls := by
      intro member
      have there := chain.resolve_of_mem member
      rw [show g'.labels.resolve l = _ from resolve] at there
      exact here (Option.some.inj there).symm
    obtain ⟨-, -, data', -, rfl⟩ := bound
    exact broken ls ((LabelTable.Chain.bind_iff absent).1 chain)

/-- The block that a label is taken from keeps the link to it. -/
theorem Bound.unchained_of_taken {g' : Graph} (bound : Bound g b l g') (exact : g.LabelsExact)
    (taken : g.resolve l = some c) (inside : (g.block? c).isSome) : g'.Unchained c := by
  have apart : c ≠ b := by
    rintro rfl
    exact bound.fresh taken
  obtain ⟨data, found⟩ := Option.isSome_iff_exists.1 inside
  obtain ⟨ls, owns⟩ := labelsExact_iff.1 exact c data found
  refine ⟨data, by rw [bound.block_of_ne apart, found], fun ls' chain => ?_⟩
  have resolve := bound.resolve l
  rw [if_pos rfl] at resolve
  have absent : l ∉ ls' := by
    intro member
    have there := chain.resolve_of_mem member
    rw [show g'.labels.resolve l = _ from resolve] at there
    exact apart (Option.some.inj there).symm
  -- without the label the chain would have been one before, but that one held the label
  obtain ⟨-, -, data', -, rfl⟩ := bound
  have before := (LabelTable.Chain.bind_iff absent).1 chain
  rw [← owns.chain.unique before] at absent
  exact absent ((owns.mem_iff l).2 taken)

/-! ## Binding many labels -/

def bindings (calls : List (BlockId × Label)) : List Operation :=
  calls.map fun (b, l) => .bindLabel b l

theorem Unchained.performAll (unchained : g.Unchained c) (calls : List (BlockId × Label)) :
    (g.performAll (bindings calls)).Unchained c := by
  induction calls generalizing g with
  | nil => exact unchained
  | cons call calls ih =>
    obtain same | bound := g.perform_bindLabel call.1 call.2
    · refine ih ?_
      change (g.perform (.bindLabel call.1 call.2)).Unchained c
      rwa [same]
    · exact ih (bound.unchained unchained)

/-- The operation leaves every label that is bound with its block. -/
def KeepsBindings (g : Graph) (op : Operation) : Prop :=
  ∀ l b, g.resolve l = some b → (g.perform op).resolve l = some b

/-- Starting from exact labels, binding labels one after the other ends with exact labels if and only
if no label is taken from its block on the way. -/
theorem bindings_exact_iff (g : Graph) (exact : g.LabelsExact)
    (inside : ∀ l b, g.resolve l = some b → (g.block? b).isSome) (calls : List (BlockId × Label)) :
    (g.performAll (bindings calls)).LabelsExact ↔ Throughout KeepsBindings g (bindings calls) := by
  induction calls generalizing g with
  | nil => exact iff_of_true exact trivial
  | cons call calls ih =>
    obtain ⟨b, l⟩ := call
    change ((g.perform (.bindLabel b l)).performAll (bindings calls)).LabelsExact ↔
      g.KeepsBindings (.bindLabel b l) ∧ Throughout KeepsBindings _ (bindings calls)
    obtain same | bound := g.perform_bindLabel b l
    · have keeps : g.KeepsBindings (.bindLabel b l) := by
        intro l' b' here
        rwa [same]
      rw [same, ih g exact inside, and_iff_right keeps]
    · have resolve := bound.resolve
      cases owner : g.resolve l with
      | none =>
        have keeps : g.KeepsBindings (.bindLabel b l) := by
          intro l' b' here
          rw [resolve, if_neg (by rintro rfl; simp [owner] at here)]
          exact here
        have inside' : ∀ l' b', (g.perform (.bindLabel b l)).resolve l' = some b' →
            ((g.perform (.bindLabel b l)).block? b').isSome := by
          intro l' b' here
          rw [bound.isSome_eq]
          rw [resolve] at here
          split at here
          · cases here
            obtain ⟨-, -, data, found, -⟩ := bound
            exact Option.isSome_of_eq_some found
          · exact inside l' b' here
        rw [ih _ (bound.labelsExact exact owner) inside', and_iff_right keeps]
      | some c =>
        have taken : ¬g.KeepsBindings (.bindLabel b l) := by
          intro keeps
          have still := keeps l c owner
          rw [resolve, if_pos rfl, ← owner] at still
          exact bound.fresh still.symm
        have unchained := bound.unchained_of_taken exact owner (inside l c owner)
        exact iff_of_false (unchained.performAll calls).not_exact fun both => taken both.1

/-- A graph with two blocks beside entry and exit, and no labels. -/
def twoBlocks : Graph := initial.performAll [.append, .append]

theorem bindings_exact_iff_twoBlocks : twoBlocks.LabelsExact ∧
    (∀ l b, twoBlocks.resolve l = some b → (twoBlocks.block? b).isSome) ∧
    ((twoBlocks.performAll (bindings [(⟨2⟩, ⟨1⟩), (⟨3⟩, ⟨2⟩), (⟨2⟩, ⟨70⟩)])).LabelsExact ↔
      Throughout KeepsBindings twoBlocks (bindings [(⟨2⟩, ⟨1⟩), (⟨3⟩, ⟨2⟩), (⟨2⟩, ⟨70⟩)])) := by
  have exact : twoBlocks.LabelsExact := by decide +kernel
  have labels : twoBlocks.labels = .empty := by decide +kernel
  have inside : ∀ l b, twoBlocks.resolve l = some b → (twoBlocks.block? b).isSome := by
    intro l b bound
    rw [resolve, labels] at bound
    cases bound
  exact ⟨exact, inside, bindings_exact_iff twoBlocks exact inside _⟩

/-- Block 2 has lost its second label to block 3. -/
def robbed : Graph := twoBlocks.performAll (bindings [(⟨2⟩, ⟨1⟩), (⟨2⟩, ⟨2⟩), (⟨3⟩, ⟨2⟩)])

/-- Block 2 has lost its first label to block 3 and got it back. -/
def restored : Graph :=
  twoBlocks.performAll (bindings [(⟨2⟩, ⟨1⟩), (⟨2⟩, ⟨2⟩), (⟨3⟩, ⟨1⟩), (⟨2⟩, ⟨1⟩)])

/-- A block that has lost a label may go on listing it instead of the one that it still has, and the
labels of a block that got one back may lead in a circle. -/
theorem bindings_take_label :
    (robbed.resolve ⟨1⟩ = some ⟨2⟩ ∧ robbed.resolve ⟨2⟩ = some ⟨3⟩ ∧
      robbed.labelsOf ⟨2⟩ = .ok [⟨2⟩]) ∧
    restored.resolve ⟨1⟩ = some ⟨2⟩ ∧ restored.resolve ⟨2⟩ = some ⟨2⟩ ∧
      restored.labelsOf ⟨2⟩ = .error .endless := by
  decide +kernel

end Graph

end FlowGraph
