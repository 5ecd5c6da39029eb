import FlowGraph.Graph.Labels
import FlowGraph.Simplify.Rule
import FlowGraph.Proofs.Consistency
import FlowGraph.Proofs.Operation

/-! # Chains of labels

The labels of a block are exact if following the links of the label table from its primary label
meets each label bound to the block once and nothing else. Moving a chain to another block takes the
labels over one at a time. In between, the labels still to come and those that have arrived form two
chains without common labels; the first shrinks by its head, which becomes the head of the second.
So the move ends with the chain turned round in front of the labels the other block had, and the
chains of all other blocks are as they were.

Without exactness a chain may lead in a circle, and then moving it does not end. Even so nothing but
labels is changed on the way. -/

namespace FlowGraph

/-! ## Chains in the table -/

/-- Following the links from `o` meets `ls`, all of it bound to `b`, and comes to an end. -/
def LabelTable.Chain (t : LabelTable) (b : BlockId) : Option Label → List Label → Prop
  | o, [] => o = none
  | o, l :: ls => o = some l ∧ ∃ older, t.get? l = some ⟨some b, older⟩ ∧ t.Chain b older ls

namespace LabelTable.Chain

variable {t t' : LabelTable} {b : BlockId} {o : Option Label} {ls : List Label}

theorem head?_eq (chain : t.Chain b o ls) : ls.head? = o := by
  cases ls with
  | nil => exact chain.symm
  | cons l ls => exact chain.1.symm

theorem resolve_of_mem (chain : t.Chain b o ls) {l : Label} (member : l ∈ ls) :
    t.resolve l = some b := by
  induction ls generalizing o with
  | nil => cases member
  | cons l' ls ih =>
    obtain ⟨-, older, slot, rest⟩ := chain
    cases member with
    | head => simp [resolve, slot]
    | tail _ member => exact ih rest member

theorem congr (chain : t.Chain b o ls) (same : ∀ l ∈ ls, t'.get? l = t.get? l) :
    t'.Chain b o ls := by
  induction ls generalizing o with
  | nil => exact chain
  | cons l ls ih =>
    obtain ⟨rfl, older, slot, rest⟩ := chain
    refine ⟨rfl, older, ?_, ih rest fun l' member => same l' (List.mem_cons_of_mem _ member)⟩
    rw [same l (List.mem_cons_self ..), slot]

theorem length_le (chain : t.Chain b o ls) (distinct : ls.Nodup) : ls.length ≤ t.capacity := by
  -- labels of a chain have slots, so there are no more of them than the table has
  have slots : (ls.map Label.slot).Nodup := distinct.map fun l l' => Label.slot_inj.1
  have bounded : ls.map Label.slot ⊆ List.range t.capacity := by
    intro i member
    obtain ⟨l, inside, rfl⟩ := List.mem_map.1 member
    obtain ⟨slot, found, -⟩ := Option.bind_eq_some_iff.1 (chain.resolve_of_mem inside)
    exact List.mem_range.2 (Array.getElem?_eq_some_iff.1 found).1
  simpa using (List.subperm_of_subset slots bounded).length_le

end LabelTable.Chain

namespace Graph

/-! ## Exact labels -/

/-- The chain from `o` lists the labels bound to `b`, each once. -/
structure Owns (g : Graph) (b : BlockId) (o : Option Label) (ls : List Label) : Prop where
  chain : g.labels.Chain b o ls
  distinct : ls.Nodup
  complete : ∀ l, g.resolve l = some b → l ∈ ls

theorem Owns.mem_iff {g : Graph} {b : BlockId} {o : Option Label} {ls : List Label}
    (owns : g.Owns b o ls) (l : Label) : l ∈ ls ↔ g.resolve l = some b :=
  ⟨owns.chain.resolve_of_mem, owns.complete l⟩

/-- Every block lists each label bound to it once, and no others. -/
def LabelsExact (g : Graph) : Prop :=
  ∀ b data, g.block? b = some data →
    ∃ ls, g.labelsOf b = .ok ls ∧ ls.Nodup ∧ ∀ l, l ∈ ls ↔ g.resolve l = some b

theorem forall_resolve_iff {g : Graph} {b : BlockId} {ls : List Label} :
    ((∀ l ∈ ls, g.resolve l = some b) ∧ ∀ entry ∈ g.labels.slots.toList.zipIdx,
      entry.2 < UInt32.size → entry.1.block = some b → ⟨.ofNat entry.2⟩ ∈ ls) ↔
      ∀ l, l ∈ ls ↔ g.resolve l = some b := by
  have bound_iff (l : Label) : g.resolve l = some b ↔
      ∃ slot, (slot, l.slot) ∈ g.labels.slots.toList.zipIdx ∧ slot.block = some b := by
    simp only [List.mem_zipIdx_iff_getElem?, Array.getElem?_toList]
    exact Option.bind_eq_some_iff
  constructor
  · intro ⟨listed, complete⟩ l
    refine ⟨listed l, fun bound => ?_⟩
    obtain ⟨slot, member, here⟩ := (bound_iff l).1 bound
    have inside := complete (slot, l.slot) member l.id.toNat_lt_size here
    rwa [show UInt32.ofNat l.slot = l.id from UInt32.ofNat_toNat] at inside
  · intro exact
    refine ⟨fun l => (exact l).1, fun (slot, i) member small here => ?_⟩
    refine (exact _).2 ((bound_iff _).2 ⟨slot, ?_, here⟩)
    rwa [Label.slot, UInt32.toNat_ofNat_of_lt' small]

instance (g : Graph) (b : BlockId) (ls : List Label) :
    Decidable (∀ l, l ∈ ls ↔ g.resolve l = some b) :=
  decidable_of_iff _ forall_resolve_iff

instance (g : Graph) : Decidable g.LabelsExact :=
  inferInstanceAs (Decidable (∀ b data, g.block? b = some data →
    ∃ ls, g.labelsOf b = .ok ls ∧ ls.Nodup ∧ ∀ l, l ∈ ls ↔ g.resolve l = some b))

theorem olderLabel_eq {g : Graph} {b : BlockId} {l : Label} {older : Option Label}
    (slot : g.labels.get? l = some ⟨some b, older⟩) : g.olderLabel b l = older := by
  simp [olderLabel, slot, Option.filter]

theorem chain_eq {g : Graph} {b : BlockId} (ls : List Label) :
    ∀ (n : Nat) (o : Option Label), g.labels.Chain b o ls → ls.length ≤ n → g.chain b n o = ls := by
  induction ls with
  | nil =>
    rintro n o rfl _
    cases n <;> rfl
  | cons l ls ih =>
    rintro n o ⟨rfl, older, slot, rest⟩ enough
    obtain ⟨n, rfl⟩ := Nat.exists_eq_add_one_of_ne_zero (n := n) (by simp at enough; omega)
    rw [chain, olderLabel_eq slot, ih n older rest (by simpa using enough)]

theorem chain_of_short {g : Graph} {b : BlockId} (n : Nat) :
    ∀ (o : Option Label), (g.chain b n o).length < n →
      (∀ l ∈ g.chain b n o, g.resolve l = some b) → g.labels.Chain b o (g.chain b n o) := by
  -- a chain that was cut off would be as long as the steps allow
  induction n with
  | zero => intro o short; omega
  | succ n ih =>
    intro o short bound
    cases o with
    | none => rfl
    | some l =>
      simp only [chain, List.length_cons, Nat.add_lt_add_iff_right, List.mem_cons,
        forall_eq_or_imp] at short bound ⊢
      obtain ⟨⟨block, older⟩, slot, here⟩ := Option.bind_eq_some_iff.1 bound.1
      obtain rfl : block = some b := here
      rw [olderLabel_eq slot] at short bound ⊢
      exact ⟨rfl, older, slot, ih older short bound.2⟩

theorem labelsOf_eq {g : Graph} {b : BlockId} {data : Block} (found : g.block? b = some data)
    {ls : List Label} (chain : g.labels.Chain b data.label ls) (distinct : ls.Nodup) :
    g.labelsOf b = .ok ls := by
  have bound := chain.length_le distinct
  rw [labelsOf, firstLabels, block_bind found, pure_bind_fault,
    chain_eq ls _ _ chain (by omega), require_bind (by omega)]
  rfl

theorem labelsExact_iff {g : Graph} :
    g.LabelsExact ↔ ∀ b data, g.block? b = some data → ∃ ls, g.Owns b data.label ls := by
  constructor
  · intro exact b data found
    obtain ⟨ls, listed, distinct, members⟩ := exact b data found
    rw [labelsOf, firstLabels, block_bind found, pure_bind_fault, bind_eq_ok] at listed
    obtain ⟨⟨⟩, short, rest⟩ := listed
    cases rest
    exact ⟨_, chain_of_short _ _ (require_eq_ok.1 short) fun l member => (members l).1 member,
      distinct, fun l here => (members l).2 here⟩
  · intro exact b data found
    obtain ⟨ls, owns⟩ := exact b data found
    exact ⟨ls, labelsOf_eq found owns.chain owns.distinct, owns.distinct, owns.mem_iff⟩

theorem resolve_congr {g g' : Graph} (labels : g'.labels = g.labels) (l : Label) :
    g'.resolve l = g.resolve l := by
  rw [Graph.resolve, Graph.resolve, labels]

theorem LabelsExact.congr {g g' : Graph} (exact : g.LabelsExact) (same : SameBlocks Block.label g g')
    (labels : g'.labels = g.labels) : g'.LabelsExact := by
  apply labelsExact_iff.2
  intro b data' found'
  obtain ⟨data, found, label⟩ := same.symm.exists_block found'
  obtain ⟨ls, chain, distinct, complete⟩ := labelsExact_iff.1 exact b data found
  refine ⟨ls, ?_, distinct, fun l bound => complete l ?_⟩
  · rw [labels, ← label]
    exact chain
  · rw [← bound, resolve_congr labels]

theorem LabelsExact.isSome_label {g : Graph} (exact : g.LabelsExact) {b : BlockId} {data : Block}
    (found : g.block? b = some data) {l : Label} (bound : g.resolve l = some b) :
    data.label.isSome := by
  obtain ⟨ls, chain, -, complete⟩ := labelsExact_iff.1 exact b data found
  have member := complete l bound
  rw [← chain.head?_eq]
  cases ls with
  | nil => cases member
  | cons l ls => rfl

/-! ## Moving labels -/

end Graph

def Block.withoutLabel (d : Block) : Block := { d with label := none }

namespace Graph

/-- Nothing has changed but labels. -/
structure Relabelled (g g' : Graph) : Prop where
  block : SameBlocks Block.withoutLabel g g'
  edges : g'.edges = g.edges
  liveCount : g'.liveCount = g.liveCount
  retired : g'.retired = g.retired
  catcher : g'.catcher = g.catcher

theorem Relabelled.refl (g : Graph) : Relabelled g g := ⟨.refl _ g, rfl, rfl, rfl, rfl⟩

theorem Relabelled.trans {g₁ g₂ g₃ : Graph} (first : Relabelled g₁ g₂)
    (second : Relabelled g₂ g₃) : Relabelled g₁ g₃ :=
  ⟨first.1.trans second.1, second.2.trans first.2, second.3.trans first.3,
    second.4.trans first.4, second.5.trans first.5⟩

theorem relabelled_modify (g : Graph) (t : LabelTable) (b : BlockId) (o : Option Label) :
    Relabelled g (({ g with labels := t } : Graph).modify b ({ · with label := o })) := by
  refine ⟨.of_map (block?_modify_eq_map _ b · _) fun c data => ?_, rfl, rfl, rfl, rfl⟩
  split <;> rfl

theorem Coherent.relabelled {g g' : Graph} {xs : List BlockId} (coherent : g.Coherent xs)
    (relabelled : Relabelled g g') : g'.Coherent xs :=
  coherent.congr (relabelled.block.weaken Block.frame) (fun e => by rw [relabelled.edges])
    relabelled.liveCount

/-- Whatever the chain is like, taking it over fails for no other reason than that it has no end. -/
theorem takeLabels_yields (b : BlockId) (n : Nat) : ∀ (g : Graph) (o : Option Label),
    (g.block? b).isSome → Yields (· = .endless) (g.takeLabels b n o) (Relabelled g) := by
  -- every step leads along one link, whether or not it belongs to a chain
  induction n with
  | zero =>
    intro g o _
    cases o with
    | none => exact yields_ok (.refl g)
    | some l => exact rfl
  | succ n ih =>
    intro g o inside
    obtain ⟨data, found⟩ := Option.isSome_iff_exists.1 inside
    cases o with
    | none => exact yields_ok (.refl g)
    | some l =>
      rw [takeLabels, block_bind found]
      cases g.labels.get? l with
      | none => exact yields_ok (.refl g)
      | some slot =>
        refine (ih _ slot.older ?_).mono fun g' rest => (relabelled_modify g _ b _).trans rest
        rw [isSome_block?_modify]
        exact inside

theorem passLabels_yields {g : Graph} {b t : BlockId} (inside : (g.block? t).isSome)
    (o : Option Label) : Yields (· = .endless) (g.passLabels b t o) (Relabelled g) := by
  cases o with
  | none => exact yields_ok (.refl g)
  | some l =>
    refine (takeLabels_yields t _ _ (some l) ?_).mono fun g' rest =>
      (relabelled_modify g g.labels b none).trans rest
    rw [isSome_block?_modify]
    exact inside

/-! ## Moving exact labels -/

variable {allowed : Fault → Prop}

theorem takeLabels_chain {b t : BlockId} (apart : b ≠ t) (ls : List Label) :
    ∀ (g : Graph) (n : Nat) (o : Option Label) (data : Block) (ts : List Label),
      g.block? t = some data → g.labels.Chain b o ls → ls.Nodup → g.labels.Chain t data.label ts →
      ls.length ≤ n → Yields allowed (g.takeLabels t n o) fun g' => Relabelled g g' ∧
        (∃ data', g'.block? t = some data' ∧ g'.labels.Chain t data'.label (ls.reverse ++ ts)) ∧
        (∀ c, c ≠ t → g'.block? c = g.block? c) ∧
        ∀ l, l ∉ ls → g'.labels.get? l = g.labels.get? l := by
  -- on the labels still to come, in front of `ts`, those that have arrived
  induction ls with
  | nil =>
    intro g n o data ts found chain _ chainT _
    obtain rfl : o = none := chain
    cases n <;> exact yields_ok ⟨.refl g, ⟨data, found, chainT⟩, fun _ _ => rfl, fun _ _ => rfl⟩
  | cons l ls ih =>
    intro g n o data ts found chain distinct chainT enough
    obtain ⟨rfl, older, slot, rest⟩ := chain
    obtain ⟨fresh, distinct⟩ := List.nodup_cons.1 distinct
    obtain ⟨n, rfl⟩ := Nat.exists_eq_add_one_of_ne_zero (n := n) (by simp at enough; omega)
    -- `l` is bound to `b`, so it is not yet among the labels that have arrived
    have absent : l ∉ ts := by
      intro member
      have here := chainT.resolve_of_mem member
      simp [LabelTable.resolve, slot, apart] at here
    let table := g.labels.set l ⟨some t, data.label⟩
    let g₁ : Graph := ({ g with labels := table } : Graph).modify t ({ · with label := some l })
    have found₁ : g₁.block? t = some { data with label := some l } := by
      rw [block?_modify_eq_map]
      change (g.block? t).map _ = _
      rw [found, Option.map_some, if_pos rfl]
    have other {l' : Label} (apart : l' ≠ l) : table.get? l' = g.labels.get? l' := by
      rw [LabelTable.get?_set, if_neg apart]
    have arrived : g₁.labels.Chain t (some l) (l :: ts) := by
      refine ⟨rfl, data.label, ?_, chainT.congr fun l' member => other ?_⟩
      · change table.get? l = _
        rw [LabelTable.get?_set, if_pos rfl, slot, Option.map_some]
      · intro same
        exact absent (same ▸ member)
    have remaining : g₁.labels.Chain b older ls :=
      rest.congr fun l' member => other fun same => fresh (same ▸ member)
    rw [takeLabels, block_bind found, slot]
    have tail := ih g₁ n older _ (l :: ts) found₁ remaining distinct arrived (by simpa using enough)
    apply tail.mono
    intro g' result
    obtain ⟨relabelled, ⟨data', found', chain'⟩, blocks, slots⟩ := result
    refine ⟨(relabelled_modify g table t (some l)).trans relabelled, ⟨data', found', ?_⟩, ?_, ?_⟩
    · simpa using chain'
    · intro c other
      rw [blocks c other, block?_modify, if_neg other]
      rfl
    · intro l' notIn
      simp only [List.mem_cons, not_or] at notIn
      rw [slots l' notIn.2]
      exact other notIn.1

/-- The labels `ls` of `b` have come in front of the labels `ts` of `t`. -/
structure ChainMoved (b t : BlockId) (ls ts : List Label) (g g' : Graph) : Prop where
  relabelled : Relabelled g g'
  target : ∃ data, g'.block? t = some data ∧ g'.labels.Chain t data.label (ls.reverse ++ ts)
  source : ∀ data, g'.block? b = some data → data.label = none
  other : ∀ c, c ≠ b → c ≠ t → g'.block? c = g.block? c
  slot : ∀ l, l ∉ ls → g'.labels.get? l = g.labels.get? l

theorem passLabels_chain {g : Graph} {b t : BlockId} (apart : b ≠ t) {old new : Block}
    (found : g.block? b = some old) (foundT : g.block? t = some new) {ls ts : List Label}
    (chain : g.labels.Chain b old.label ls) (distinct : ls.Nodup)
    (chainT : g.labels.Chain t new.label ts) :
    Yields allowed (g.passLabels b t old.label) (ChainMoved b t ls ts g) := by
  have bound := chain.length_le distinct
  cases primary : old.label with
  | none =>
    rw [primary] at chain
    cases ls with
    | cons l ls => cases chain.1
    | nil =>
      refine yields_ok ⟨.refl g, ⟨new, foundT, chainT⟩, fun data here => ?_, fun _ _ _ => rfl,
        fun _ _ => rfl⟩
      rw [found] at here
      cases here
      exact primary
  | some l =>
    let g₀ : Graph := g.modify b ({ · with label := none })
    have found₀ : g₀.block? t = some new := by rw [block?_modify, if_neg apart.symm, foundT]
    rw [primary] at chain
    -- the chain is no longer than the table, so the steps suffice
    have enough : ls.length ≤ 2 * g₀.labels.capacity + 2 := by
      simp only [g₀, labels_modify]
      omega
    apply (takeLabels_chain apart ls g₀ _ (some l) new ts found₀ chain distinct chainT enough).mono
    intro g' result
    obtain ⟨relabelled, target, blocks, slot⟩ := result
    refine ⟨(relabelled_modify g g.labels b none).trans relabelled, target, fun data here => ?_,
      fun c notB notT => ?_, slot⟩
    · rw [blocks b apart, block?_modify, if_pos rfl, found] at here
      cases here
      rfl
    · rw [blocks c notT, block?_modify, if_neg notB]

/-- All labels of `b` are bound to `t` now, and `b` has none. -/
structure LabelsMoved (b t : BlockId) (g g' : Graph) : Prop where
  relabelled : Relabelled g g'
  resolve : ∀ l, g'.resolve l = if g.resolve l = some b then some t else g.resolve l
  source : ∀ data, g'.block? b = some data → data.label = none
  target : ∀ old new data, g.block? b = some old → g.block? t = some new → g'.block? t = some data →
    data.label.isSome → old.label.isSome ∨ new.label.isSome
  other : ∀ c, c ≠ b → c ≠ t → g'.block? c = g.block? c
  exact : g'.LabelsExact

section

variable {g g' : Graph} {b t : BlockId} {o p : Option Label} {ls ts : List Label}

theorem ChainMoved.resolve (moved : ChainMoved b t ls ts g g') (owns : g.Owns b o ls) (l : Label) :
    g'.resolve l = if g.resolve l = some b then some t else g.resolve l := by
  obtain ⟨data, -, chain⟩ := moved.target
  by_cases member : l ∈ ls
  · rw [if_pos ((owns.mem_iff l).1 member)]
    exact chain.resolve_of_mem (by simp [member])
  · rw [if_neg fun here => member ((owns.mem_iff l).2 here)]
    simp only [Graph.resolve, LabelTable.resolve, moved.slot l member]

theorem ChainMoved.owns_source (moved : ChainMoved b t ls ts g g') (owns : g.Owns b o ls)
    (apart : b ≠ t) : g'.Owns b none [] := by
  refine ⟨rfl, List.nodup_nil, fun l bound => ?_⟩
  rw [moved.resolve owns] at bound
  split at bound
  · exact absurd (Option.some.inj bound) apart.symm
  · contradiction

theorem ChainMoved.owns_target (moved : ChainMoved b t ls ts g g') (owns : g.Owns b o ls)
    (ownsT : g.Owns t p ts) (apart : b ≠ t) {data : Block} (found : g'.block? t = some data) :
    g'.Owns t data.label (ls.reverse ++ ts) := by
  obtain ⟨data', found', chain⟩ := moved.target
  rw [found] at found'
  cases found'
  refine ⟨chain, ?_, fun l bound => ?_⟩
  · refine List.nodup_append.2 ⟨List.nodup_reverse.2 owns.distinct, ownsT.distinct, ?_⟩
    intro l member l' memberT same
    subst l'
    -- a label common to both would be bound to both blocks
    have here := (owns.mem_iff l).1 (List.mem_reverse.1 member)
    rw [(ownsT.mem_iff l).1 memberT] at here
    exact apart (Option.some.inj here).symm
  · rw [moved.resolve owns] at bound
    rw [List.mem_append, List.mem_reverse, owns.mem_iff]
    split at bound
    · exact .inl ‹_›
    · exact .inr (ownsT.complete l bound)

theorem ChainMoved.owns_other (moved : ChainMoved b t ls ts g g') (owns : g.Owns b o ls)
    {c : BlockId} {cs : List Label} (ownsC : g.Owns c p cs) (notB : c ≠ b) (notT : c ≠ t) :
    g'.Owns c p cs := by
  refine ⟨ownsC.chain.congr fun l member => moved.slot l fun inB => ?_, ownsC.distinct,
    fun l bound => ?_⟩
  · have there := (owns.mem_iff l).1 inB
    rw [(ownsC.mem_iff l).1 member] at there
    exact notB (Option.some.inj there)
  · rw [moved.resolve owns] at bound
    split at bound
    · exact absurd (Option.some.inj bound).symm notT
    · exact ownsC.complete l bound

theorem ChainMoved.exact (moved : ChainMoved b t ls ts g g') (exact : g.LabelsExact)
    (owns : g.Owns b o ls) (ownsT : g.Owns t p ts) (apart : b ≠ t) : g'.LabelsExact := by
  refine labelsExact_iff.2 fun c data here => ?_
  by_cases atB : c = b
  · subst c
    rw [moved.source data here]
    exact ⟨[], moved.owns_source owns apart⟩
  · by_cases atT : c = t
    · subst c
      exact ⟨_, moved.owns_target owns ownsT apart here⟩
    · rw [moved.other c atB atT] at here
      obtain ⟨cs, ownsC⟩ := labelsExact_iff.1 exact c data here
      exact ⟨cs, moved.owns_other owns ownsC atB atT⟩

end

theorem passLabels_exact {g : Graph} {b t : BlockId} (exact : g.LabelsExact) (apart : b ≠ t)
    {old new : Block} (found : g.block? b = some old) (foundT : g.block? t = some new) :
    Yields allowed (g.passLabels b t old.label) (LabelsMoved b t g) := by
  obtain ⟨ls, owns⟩ := labelsExact_iff.1 exact b old found
  obtain ⟨ts, ownsT⟩ := labelsExact_iff.1 exact t new foundT
  apply (passLabels_chain apart found foundT owns.chain owns.distinct ownsT.chain).mono
  intro g' moved
  refine ⟨moved.relabelled, moved.resolve owns, moved.source, ?_, moved.other,
    moved.exact exact owns ownsT apart⟩
  intro old' new' data foundOld foundNew foundData labelled
  rw [found] at foundOld
  rw [foundT] at foundNew
  cases foundOld
  cases foundNew
  -- the primary label is the head of the joined chain, so one of the two chains has a head
  rw [← (moved.owns_target owns ownsT apart foundData).chain.head?_eq] at labelled
  rw [← owns.chain.head?_eq, ← ownsT.chain.head?_eq]
  cases ls with
  | nil => exact .inr (by simpa using labelled)
  | cons l ls => exact .inl rfl

/-! ## A whole chain -/

theorem LabelsExact.owns_of_listed {g : Graph} (exact : g.LabelsExact) {b : BlockId}
    {ls : List Label} (listed : g.labelsOf b = .ok ls) :
    ∃ data, g.block? b = some data ∧ g.Owns b data.label ls := by
  have found : ∃ data, g.block? b = some data := by
    obtain ⟨_, first, -⟩ := bind_eq_ok.1 listed
    obtain ⟨data, found, -⟩ := bind_eq_ok.1 first
    exact ⟨data, block_eq_ok.1 found⟩
  obtain ⟨data, found⟩ := found
  obtain ⟨ls', owns⟩ := labelsExact_iff.1 exact b data found
  rw [labelsOf_eq found owns.chain owns.distinct] at listed
  cases listed
  exact ⟨data, found, owns⟩

theorem order_takeLabels (b : BlockId) (n : Nat) : ∀ (g g' : Graph) (o : Option Label),
    g.takeLabels b n o = .ok g' → g'.order = g.order := by
  induction n with
  | zero =>
    intro g g' o taken
    cases o with
    | none =>
      cases taken
      rfl
    | some l => cases taken
  | succ n ih =>
    intro g g' o taken
    cases o with
    | none =>
      cases taken
      rfl
    | some l =>
      rw [takeLabels] at taken
      obtain ⟨data, -, taken⟩ := bind_eq_ok.1 taken
      cases slot : g.labels.get? l with
      | none =>
        rw [slot] at taken
        cases taken
        rfl
      | some slot' =>
        rw [slot] at taken
        have rest := ih _ _ _ taken
        exact rest

/-- Passing labels on is taking the primary label from the block and moving the chain behind it. -/
theorem passLabels_eq {g : Graph} {b : BlockId} {data : Block} (found : g.block? b = some data)
    (t : BlockId) : g.passLabels b t data.label =
      (g.modify b ({ · with label := none })).moveLabels t data.label := by
  cases primary : data.label with
  | some l => rfl
  | none =>
    -- a block without a primary label has none to lose
    have same : g.blocks.modify b.index ({ · with label := none }) = g.blocks := by
      apply Array.ext_getElem?
      intro i
      rw [Array.getElem?_modify]
      split
      · rename_i here
        rw [block?, here] at found
        rw [found, Option.map_some, ← primary]
      · rfl
    rw [passLabels, modify, same, moveLabels, takeLabels]

/-- The chain of one block, moved to another, is turned round and comes in front of the chain that
is there. The labels of the chain resolve to the new block, all other labels and chains are as they
were, and nothing but labels has changed. -/
theorem moveLabels_whole (g : Graph) (b t : BlockId) (ls ts : List Label) (exact : g.LabelsExact)
    (apart : b ≠ t) (source : g.labelsOf b = .ok ls) (target : g.labelsOf t = .ok ts) :
    ∃ g', (g.modify b ({ · with label := none })).moveLabels t ls.head? = .ok g' ∧
      (∀ l ∈ ls, g'.resolve l = some t) ∧ (∀ l, l ∉ ls → g'.resolve l = g.resolve l) ∧
      g'.labelsOf t = .ok (ls.reverse ++ ts) ∧ g'.labelsOf b = .ok [] ∧
      (∀ c, c ≠ b → c ≠ t → g'.labelsOf c = g.labelsOf c) ∧
      g'.LabelsExact ∧ Relabelled g g' ∧ g'.order = g.order := by
  obtain ⟨old, found, owns⟩ := exact.owns_of_listed source
  obtain ⟨new, foundT, ownsT⟩ := exact.owns_of_listed target
  have passed : Yields (fun _ => False) (g.passLabels b t old.label) (ChainMoved b t ls ts g) :=
    passLabels_chain apart found foundT owns.chain owns.distinct ownsT.chain
  obtain ⟨g', ran, moved⟩ := passed.exists_ok
  rw [passLabels_eq found, ← owns.chain.head?_eq] at ran
  refine ⟨g', ran, ?_, ?_, ?_, ?_, ?_, moved.exact exact owns ownsT apart, moved.relabelled, ?_⟩
  · intro l member
    rw [moved.resolve owns, if_pos ((owns.mem_iff l).1 member)]
  · intro l outside
    rw [moved.resolve owns, if_neg fun here => outside ((owns.mem_iff l).2 here)]
  · obtain ⟨data, foundT', chain⟩ := moved.target
    exact labelsOf_eq foundT' chain (moved.owns_target owns ownsT apart foundT').distinct
  · obtain ⟨data, found'⟩ := Option.isSome_iff_exists.1
      ((moved.relabelled.block.isSome_eq b).trans (Option.isSome_of_eq_some found))
    apply labelsOf_eq found' _ List.nodup_nil
    exact moved.source data found'
  · intro c notB notT
    have same := moved.other c notB notT
    cases inside : g.block? c with
    | none =>
      rw [labelsOf, labelsOf, firstLabels, firstLabels, block, block, same, inside]
      rfl
    | some data =>
      obtain ⟨cs, ownsC⟩ := labelsExact_iff.1 exact c data inside
      have ownsC' := moved.owns_other owns ownsC notB notT
      rw [labelsOf_eq inside ownsC.chain ownsC.distinct,
        labelsOf_eq (same.trans inside) ownsC'.chain ownsC'.distinct]
  · have kept := order_takeLabels t _ _ _ _ ran
    exact kept

/-- Block 2 has three labels and block 3 two. -/
def tagged : Graph :=
  initial.performAll [.append, .append, .bindLabel ⟨2⟩ ⟨1⟩, .bindLabel ⟨2⟩ ⟨2⟩, .bindLabel ⟨2⟩ ⟨3⟩,
    .bindLabel ⟨3⟩ ⟨4⟩, .bindLabel ⟨3⟩ ⟨5⟩]

theorem moveLabels_tagged_whole :
    tagged.LabelsExact ∧ (⟨2⟩ : BlockId) ≠ ⟨3⟩ ∧ tagged.labelsOf ⟨2⟩ = .ok [⟨3⟩, ⟨2⟩, ⟨1⟩] ∧
      tagged.labelsOf ⟨3⟩ = .ok [⟨5⟩, ⟨4⟩] ∧
      ∃ g', (tagged.modify ⟨2⟩ ({ · with label := none })).moveLabels ⟨3⟩ (some ⟨3⟩) = .ok g' ∧
        g'.labelsOf ⟨3⟩ = .ok [⟨1⟩, ⟨2⟩, ⟨3⟩, ⟨5⟩, ⟨4⟩] ∧ g'.labelsOf ⟨2⟩ = .ok [] := by
  have exact : tagged.LabelsExact := by decide +kernel
  have apart : (⟨2⟩ : BlockId) ≠ ⟨3⟩ := by decide
  have source : tagged.labelsOf ⟨2⟩ = .ok [⟨3⟩, ⟨2⟩, ⟨1⟩] := by decide +kernel
  have target : tagged.labelsOf ⟨3⟩ = .ok [⟨5⟩, ⟨4⟩] := by decide +kernel
  obtain ⟨g', ran, -, -, chain, empty, -⟩ :=
    moveLabels_whole tagged ⟨2⟩ ⟨3⟩ _ _ exact apart source target
  exact ⟨exact, apart, source, target, g', ran, chain, empty⟩

end Graph

end FlowGraph
