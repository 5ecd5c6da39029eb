import FlowGraph.Proofs.Effect

/-! # Metadata of blocks

What a block holds under a tag is the value that was stored there last, of whatever type, unless it
has been erased or the block been destroyed since. No other operation touches metadata, not even that of a block it
retires: retiring a block gives up its code, and only destroying it gives up its metadata too. An
operation that fails stores nothing and erases nothing, so that in a run it is as if it had not been
asked for. -/

namespace FlowGraph

/-! ## Tags of one block -/

namespace Metadata

@[simp] theorem find?_empty (t : MetaTag) : empty.find? t = none := rfl

theorem tags_set (m : Metadata) (t : MetaTag) (v : MetaValue) :
    (m.set t v).tags = if t ∈ m.tags then m.tags else m.tags ++ [t] := by
  obtain ⟨entries⟩ := m
  simp only [set, tags]
  induction entries with
  | nil => rfl
  | cons entry rest ih =>
    obtain ⟨u, w⟩ := entry
    by_cases here : u = t
    · simp [store, here]
    · simp only [store, if_neg here, List.map_cons, ih]
      by_cases later : t ∈ rest.map (·.1) <;> simp [later, Ne.symm here]

theorem tags_erase (m : Metadata) (t : MetaTag) : (m.erase t).tags = m.tags.filter (· ≠ t) := by
  simp [erase, tags, List.filter_map, Function.comp_def]

theorem nodup_set {m : Metadata} (distinct : m.tags.Nodup) (t : MetaTag) (v : MetaValue) :
    (m.set t v).tags.Nodup := by
  rw [tags_set]
  split
  · exact distinct
  · rename_i fresh
    rw [← List.concat_eq_append]
    exact distinct.concat fresh

theorem nodup_erase {m : Metadata} (distinct : m.tags.Nodup) (t : MetaTag) :
    (m.erase t).tags.Nodup := by
  rw [tags_erase]
  exact distinct.filter _

end Metadata

/-! ## What operations ask for -/

namespace Operation

/-- What an operation makes of the metadata of `b` when it is carried out. -/
def annotate (b : BlockId) (m : Metadata) : Operation → Metadata
  | setMeta c t v => if c = b then m.set t v else m
  | eraseMeta c t => if c = b then m.erase t else m
  | destroy c => if c = b then .empty else m
  | _ => m

/-- An operation settles what `b` holds under `t` when it is carried out. -/
def settles (b : BlockId) (t : MetaTag) : Operation → Bool
  | setMeta c u _ => c = b && u = t
  | eraseMeta c u => c = b && u = t
  | destroy c => c = b
  | _ => false

variable {op : Operation} {b : BlockId} {m : Metadata}

theorem find?_annotate {t : MetaTag} {v : MetaValue} :
    (op.annotate b m).find? t = some v ↔
      op = .setMeta b t v ∨ op.settles b t = false ∧ m.find? t = some v := by
  cases op with
  | setMeta c u w =>
    by_cases tag : u = t
    · subst u
      by_cases block : c = b <;> simp [annotate, settles, block, Metadata.find?_set]
    · by_cases block : c = b <;>
        simp [annotate, settles, block, tag, Ne.symm tag, Metadata.find?_set]
  | eraseMeta c u =>
    by_cases tag : u = t
    · subst u
      by_cases block : c = b <;> simp [annotate, settles, block, Metadata.find?_erase]
    · by_cases block : c = b <;>
        simp [annotate, settles, block, tag, Ne.symm tag, Metadata.find?_erase]
  | destroy c => by_cases block : c = b <;> simp [annotate, settles, block]
  | _ => simp [annotate, settles]

theorem annotate_of_unsettled (unsettled : ∀ t, op.settles b t = false) : op.annotate b m = m := by
  cases op with
  | setMeta c u w =>
    have apart : c ≠ b := by simpa [settles] using unsettled u
    exact if_neg apart
  | eraseMeta c u =>
    have apart : c ≠ b := by simpa [settles] using unsettled u
    exact if_neg apart
  | destroy c =>
    have apart : c ≠ b := by simpa [settles] using unsettled default
    exact if_neg apart
  | _ => rfl

theorem nodup_annotate (distinct : m.tags.Nodup) : (op.annotate b m).tags.Nodup := by
  cases op with
  | setMeta c t v =>
    rw [annotate]
    split
    · exact Metadata.nodup_set distinct t v
    · exact distinct
  | eraseMeta c t =>
    rw [annotate]
    split
    · exact Metadata.nodup_erase distinct t
    · exact distinct
  | destroy c =>
    rw [annotate]
    split
    · exact List.nodup_nil
    · exact distinct
  | _ => exact distinct

end Operation

namespace Graph

/-! ## What operations do -/

/-- The metadata of a block; of a block that does not exist, nothing. -/
def metadataOf (g : Graph) (b : BlockId) : Metadata :=
  ((g.block? b).map Block.metadata).getD .empty

theorem metadataOf_eq {g : Graph} {b : BlockId} {data : Block} (found : g.block? b = some data) :
    g.metadataOf b = data.metadata := by
  rw [metadataOf, found]
  rfl

theorem Change.metadata {g g' : Graph} (change : Change g g') :
    SameBlocks Block.metadata g g' := by
  obtain ⟨same, -⟩ | ⟨b, ran⟩ := change.steady
  · exact same.weaken Block.metadata
  · obtain ⟨data, g₁, -, -, -, -, relaid, rfl⟩ := (retire_yields_relaid g b).of_eq_ok ran
    have spent : SameBlocks Block.metadata g₁ (g₁.modify b Block.spent) :=
      .modify g₁ b fun _ => rfl
    exact (relaid.block.weaken Block.metadata).trans spent

theorem Touch.metadata {g g' : Graph} (touch : Touch g g') : SameBlocks Block.metadata g g' := by
  cases touch with
  | change change => exact change.metadata
  | mark bs marked => exact (remarked_setMarks bs marked g).block.weaken Block.metadata
  | reorder order => exact .refl _ g

/-- As far as metadata go, `op` has been carried out. Blocks that have come hold nothing. -/
structure Annotated (op : Operation) (g g' : Graph) : Prop where
  present : ∀ b, (g.block? b).isSome → (g'.block? b).isSome
  metadata : ∀ b, g'.metadataOf b = op.annotate b (g.metadataOf b)

namespace Annotated

variable {op : Operation} {g g₁ g' : Graph} {b : BlockId}

theorem of_same (idle : ∀ b m, op.annotate b m = m) (same : SameBlocks Block.metadata g g') :
    Annotated op g g' := by
  refine ⟨fun b inside => (same.isSome_eq b).trans inside, fun b => ?_⟩
  rw [metadataOf, same b, idle]
  rfl

theorem trans_same (annotated : Annotated op g g₁) (same : SameBlocks Block.metadata g₁ g') :
    Annotated op g g' := by
  refine ⟨fun b inside => (same.isSome_eq b).trans (annotated.present b inside), fun b => ?_⟩
  rw [← annotated.metadata, metadataOf, metadataOf, same b]

theorem create (g : Graph) : Annotated .create g g.create.2 := by
  refine ⟨fun b inside => ?_, fun b => ?_⟩
  · rw [block?_create]
    split
    · rfl
    · exact inside
  · rw [metadataOf, block?_create]
    split
    · rename_i isNew
      rw [isNew, metadataOf, block?_create_self]
      rfl
    · rfl

/-- Creating a block that is then linked in is all that appending does. -/
theorem append (g : Graph) : Annotated .append g g.create.2 := ⟨(create g).1, (create g).2⟩

theorem wipe (vacates : Vacates g b g₁) : Annotated (.destroy b) g (g₁.modify b Block.wiped) := by
  have same : SameBlocks Block.metadata g g₁ := vacates.relaid.block.weaken Block.metadata
  refine ⟨fun c inside => ?_, fun c => ?_⟩
  · rw [isSome_block?_modify, same.isSome_eq]
    exact inside
  · rw [metadataOf, block?_modify]
    by_cases here : c = b
    · subst c
      rw [if_pos rfl]
      cases g₁.block? b <;> simp [Operation.annotate, Block.wiped]
    · rw [if_neg here, same c, metadataOf, Operation.annotate, if_neg (Ne.symm here)]

theorem write {f : Block → Block} (inside : (g.block? b).isSome) (writes : op.Writes b f) :
    Annotated op g (g.modify b f) := by
  obtain ⟨data, found⟩ := Option.isSome_iff_exists.1 inside
  refine ⟨fun c inside => ?_, fun c => ?_⟩
  · rw [isSome_block?_modify]
    exact inside
  · by_cases here : c = b
    · subst c
      have found' : (g.modify b f).block? b = some (f data) := by
        rw [block?_modify, if_pos rfl, found, Option.map_some]
      rw [metadataOf_eq found', metadataOf_eq found]
      cases writes with
      | setMeta | eraseMeta => exact (if_pos rfl).symm
      | replaceLast _ i =>
        have same := congrArg Block.metadata (data.withoutCode_modifyLast fun _ => i)
        exact same
      | push | setDeadEnd => rfl
    · rw [metadataOf, block?_modify, if_neg here, ← metadataOf]
      cases writes with
      | setMeta | eraseMeta => exact (if_neg (Ne.symm here)).symm
      | push | replaceLast | setDeadEnd => rfl

/-- Every operation on every graph does to metadata what it asks for and no more. -/
theorem of_effect (effect : Effect g op g') : Annotated op g g' := by
  cases effect with
  | create => exact .create g
  | append ran =>
    exact (append g).trans_same ((relaid_of_append ran).block.weaken Block.metadata)
  | destroy notEntry notExit vacates => exact .wipe vacates
  | move moves =>
    have idle (b : BlockId) (m : Metadata) : op.annotate b m = m := by cases moves <;> rfl
    exact .of_same idle (moves.relaid.block.weaken Block.metadata)
  | write inside writes => exact .write inside writes
  | bind bound =>
    obtain rfl | ⟨-, -, data, -, rfl⟩ := bound
    · exact .of_same (fun _ _ => rfl) (.refl _ _)
    · exact .of_same (fun _ _ => rfl) (.modify _ _ fun _ => rfl)
  | catcher l => exact .of_same (fun _ _ => rfl) (.refl _ g)
  | wire wires =>
    have idle (b : BlockId) (m : Metadata) : op.annotate b m = m := by cases wires <;> rfl
    exact .of_same idle (wires.rewired.1.block.weaken Block.metadata)
  | search searches =>
    have idle (b : BlockId) (m : Metadata) : op.annotate b m = m := by cases searches <;> rfl
    exact .of_same idle (searches.touches.keeps (SameBlocks Block.metadata g)
      (fun touch same => same.trans touch.metadata) (.refl _ g))

end Annotated

/-! ## Runs -/

/-- The operation is carried out: it does not fail. -/
def Accepts (g : Graph) (op : Operation) : Prop := ∃ g', op.apply g = .ok g'

/-- What `b` holds under `t` stays as it is: the operation does not settle it, or it fails. -/
def Spares (b : BlockId) (t : MetaTag) (g : Graph) (op : Operation) : Prop :=
  op.settles b t = true → ¬g.Accepts op

/-- In the run `ops` from `g`, at some time `v` is stored in `b` under `t`, and nothing behind settles
anew what `b` holds there. -/
def LastStored (g : Graph) (ops : List Operation) (b : BlockId) (t : MetaTag) (v : MetaValue) : Prop :=
  ∃ before after, ops = before ++ .setMeta b t v :: after ∧
    (g.performAll before).Accepts (.setMeta b t v) ∧
    Throughout (Spares b t) (g.performAll (before ++ [.setMeta b t v])) after

section

variable {g : Graph} {op : Operation} {ops : List Operation} {b : BlockId} {t : MetaTag}
  {v : MetaValue}

theorem lastStored_cons : g.LastStored (op :: ops) b t v ↔ (g.perform op).LastStored ops b t v ∨
    op = .setMeta b t v ∧ g.Accepts op ∧ Throughout (Spares b t) (g.perform op) ops := by
  constructor
  · rintro ⟨before, after, split, accepted, spared⟩
    cases before with
    | nil =>
      cases split
      exact .inr ⟨rfl, accepted, spared⟩
    | cons first before =>
      cases split
      exact .inl ⟨before, after, rfl, accepted, spared⟩
  · rintro (⟨before, after, rfl, accepted, spared⟩ | ⟨rfl, accepted, spared⟩)
    · exact ⟨op :: before, after, rfl, accepted, spared⟩
    · exact ⟨[], ops, rfl, accepted, spared⟩

theorem find?_perform : ((g.perform op).metadataOf b).find? t = some v ↔
    op = .setMeta b t v ∧ g.Accepts op ∨ Spares b t g op ∧ (g.metadataOf b).find? t = some v := by
  unfold Spares Accepts perform
  cases ran : op.apply g with
  | ok g' =>
    have annotated := Annotated.of_effect (.of_apply ran)
    simp only [annotated.metadata, Operation.find?_annotate]
    simp
  | error f => simp

/-- What is found after a run was stored last in it, or was there before and has been spared. -/
theorem find?_performAll : ∀ {g : Graph},
    ((g.performAll ops).metadataOf b).find? t = some v ↔
      g.LastStored ops b t v ∨
        Throughout (Spares b t) g ops ∧ (g.metadataOf b).find? t = some v := by
  induction ops with
  | nil =>
    intro g
    have nothing : ¬g.LastStored [] b t v := by
      rintro ⟨before, after, split, -⟩
      simp at split
    simp [nothing, performAll, Throughout]
  | cons op ops ih =>
    intro g
    change (((g.perform op).performAll ops).metadataOf b).find? t = some v ↔ _
    rw [ih, find?_perform, lastStored_cons, Throughout]
    tauto

end

/-- No block holds a tag twice. -/
def SingleTags (g : Graph) : Prop := ∀ b, (g.metadataOf b).tags.Nodup

theorem SingleTags.perform {g : Graph} (single : g.SingleTags) (op : Operation) :
    (g.perform op).SingleTags := by
  apply perform_of_effect single
  intro g' effect b
  rw [(Annotated.of_effect effect).metadata]
  exact Operation.nodup_annotate (single b)

theorem metadataOf_initial (b : BlockId) : initial.metadataOf b = .empty := by
  have empties : ∀ b data, initial.block? b = some data → data.metadata = .empty := by decide
  cases found : initial.block? b with
  | none => rw [metadataOf, found, Option.map_none, Option.getD_none]
  | some data => rw [metadataOf_eq found, empties b data found]

theorem performAll_singleTags (ops : List Operation) : (initial.performAll ops).SingleTags := by
  have run : Throughout (fun _ _ => True) initial ops :=
    throughout_of_forall (fun _ _ _ => trivial) initial
  refine run.induction (fun _ op _ single => single.perform op) fun b => ?_
  rw [metadataOf_initial]
  exact List.nodup_nil

/-- After any run, a block holds each tag once, and under it the value that was stored there last and
has neither been erased nor gone with the block. It is found by a reader that asks for the type it
was stored with, whatever type that is, and by no other. On whatever graph, an operation that neither
stores nor erases under any tag of a block, nor destroys it, leaves its metadata as they are, and so
does the retirement of a block. -/
theorem performAll_metadata (ops : List Operation) :
    (∀ b data, (initial.performAll ops).block? b = some data → data.metadata.tags.Nodup ∧
      (∀ t v, data.metadata.find? t = some v ↔ initial.LastStored ops b t v) ∧
      ∀ (α : Type) [Storable α] t, ∃ found, (initial.performAll ops).getMeta α b t = .ok found ∧
        (∀ a, found = some a ↔ initial.LastStored ops b t (.of a)) ∧
        ∀ v, initial.LastStored ops b t v → v.kind ≠ Storable.kind α → found = none) ∧
    ∀ g g' : Graph,
      (∀ (op : Operation) b, op.apply g = .ok g' → (∀ t, op.settles b t = false) → ∀ data,
        g.block? b = some data → ∃ data', g'.block? b = some data' ∧ data'.metadata = data.metadata) ∧
      ∀ b, g.retire b = .ok g' → SameBlocks Block.metadata g g' := by
  refine ⟨fun b data found => ?held, fun g g' => ⟨fun op b ran idle data found => ?frame,
    fun b ran => Change.metadata (.retire ran)⟩⟩
  case held =>
    have stored (t : MetaTag) (v : MetaValue) :
        data.metadata.find? t = some v ↔ initial.LastStored ops b t v := by
      rw [← metadataOf_eq found, find?_performAll, metadataOf_initial]
      simp
    refine ⟨?_, stored, fun α _ t => ⟨data.metadata.get? α t, ?_, fun a => ?_, fun v last other => ?_⟩⟩
    · rw [← metadataOf_eq found]
      exact performAll_singleTags ops b
    · rw [getMeta, block_eq_ok.2 found]
      rfl
    · rw [Metadata.get?_eq_some, stored]
    · rw [Metadata.get?, (stored t v).2 last, Option.bind_some, MetaValue.as?, if_neg other]
  case frame =>
    have annotated := Annotated.of_effect (.of_apply ran)
    obtain ⟨data', found'⟩ := Option.isSome_iff_exists.1
      (annotated.present b (Option.isSome_of_eq_some found))
    refine ⟨data', found', ?_⟩
    rw [← metadataOf_eq found', ← metadataOf_eq found, annotated.metadata,
      Operation.annotate_of_unsettled idle]

/-- Block 2 is given two values under one tag, the second of another type, then a list, and a text
under a tag that is erased again. Being empty, it is then retired. -/
def jotted : List Operation :=
  [.append, .append, .setMeta ⟨2⟩ ⟨1⟩ (.of (7 : UInt32)), .setMeta ⟨2⟩ ⟨2⟩ (.of "hot"),
    .setMeta ⟨2⟩ ⟨1⟩ (.of (5 : Int64)), .eraseMeta ⟨2⟩ ⟨2⟩, .setMeta ⟨2⟩ ⟨3⟩ (.of [(1 : UInt8), 2]),
    .push ⟨3⟩ (.plain .ret), .build, .simplify .standard]

theorem performAll_jotted_metadata : ∃ data, (initial.performAll jotted).block? ⟨2⟩ = some data ∧
    data.status = .retired ∧ data.metadata.tags.Nodup ∧
    (∀ t v, data.metadata.find? t = some v ↔ initial.LastStored jotted ⟨2⟩ t v) ∧
    initial.LastStored jotted ⟨2⟩ ⟨1⟩ (.of (5 : Int64)) := by
  have retired : ((initial.performAll jotted).block? ⟨2⟩).map Block.status = some .retired := by
    decide +kernel
  have read : (initial.performAll jotted).getMeta Int64 ⟨2⟩ ⟨1⟩ = .ok (some 5) := by decide +kernel
  obtain ⟨data, found, status⟩ := Option.map_eq_some_iff.1 retired
  obtain ⟨distinct, stored, typed⟩ := (performAll_metadata jotted).1 ⟨2⟩ data found
  obtain ⟨_, same, last, -⟩ := typed Int64 ⟨1⟩
  rw [read, Except.ok.injEq] at same
  exact ⟨data, found, status, distinct, stored, (last 5).1 same.symm⟩

example : (initial.performAll jotted).getMeta Int64 ⟨2⟩ ⟨1⟩ = .ok (some 5) ∧
    (initial.performAll jotted).getMeta UInt32 ⟨2⟩ ⟨1⟩ = .ok none ∧
    (initial.performAll jotted).getMeta String ⟨2⟩ ⟨2⟩ = .ok none ∧
    (initial.performAll jotted).getMeta (List UInt8) ⟨2⟩ ⟨3⟩ = .ok (some [1, 2]) := by
  decide +kernel

end Graph

end FlowGraph
