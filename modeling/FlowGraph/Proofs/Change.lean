import FlowGraph.Proofs.Frame
import FlowGraph.Proofs.Reduction
import Mathlib.Logic.Relation

/-! # The changes that make up a simplification

Beside setting and clearing marks, a simplification of whatever graph is a sequence of changes of a
few kinds, each of one block, one edge or one label. Hence what each kind of change keeps is kept by
every simplification, however the graph contradicts itself; only that labels and edges are never
sent anywhere but to a block that an edge led to before has to be noted on the way. -/

namespace FlowGraph

/-- What a block holds beside its code. -/
def Block.withoutCode (d : Block) : Block := { d with instrs := [], deadEnd := false }

/-- What a block holds beside its code, its label and its edges. -/
def Block.steady (d : Block) : Block := { d.withoutCode with label := none, succs := [], preds := [] }

theorem Block.withoutCode_modifyLast (d : Block) (f : Instr → Instr) :
    (d.modifyLast f).withoutCode = d.withoutCode := by
  unfold Block.modifyLast
  split <;> rfl

namespace Graph

/-! ## Kinds of change -/

/-- Some edge ends at `t`. -/
def LedTo (g : Graph) (t : BlockId) : Prop := ∃ e edge, g.edges.get? e = some edge ∧ edge.dst = t

inductive Change : Graph → Graph → Prop where
  | forget (g : Graph) : Change g { g with order := none }
  | recode (g : Graph) (b : BlockId) (f : Block → Block)
      (code : ∀ data, (f data).withoutCode = data.withoutCode) : Change g (g.modify b f)
  | recast (g : Graph) (e : EdgeId) (kind : EdgeKind) :
      Change g { g with edges := g.edges.modify e ({ · with kind := kind }) }
  | unlabel (g : Graph) (b : BlockId) : Change g (g.modify b ({ · with label := none }))
  | relabel (g : Graph) (t : BlockId) (l : Label) {data : Block} {slot : LabelSlot}
      (led : g.LedTo t) (found : g.block? t = some data) (old : g.labels.get? l = some slot) :
      Change g (({ g with labels := g.labels.set l ⟨some t, data.label⟩ } : Graph).modify t
        ({ · with label := some l }))
  | disconnect {g g' : Graph} {e : EdgeId} (ran : g.disconnect e = .ok g') : Change g g'
  | redirect {g g' : Graph} {e : EdgeId} {t : BlockId} (led : g.LedTo t)
      (ran : g.redirect e t = .ok g') : Change g g'
  | retire {g g' : Graph} {b : BlockId} (ran : g.retire b = .ok g') : Change g g'

/-- What one step keeps is kept by any number of steps. -/
theorem keeps_of_steps {step : Graph → Graph → Prop} (inv : Graph → Prop)
    (keeps : ∀ {g g'}, step g g' → inv g → inv g') {g g' : Graph}
    (steps : Relation.ReflTransGen step g g') (holds : inv g) : inv g' := by
  induction steps with
  | refl => exact holds
  | tail _ last ih => exact keeps last ih

/-- Any number of changes, one after the other. -/
abbrev Changes : Graph → Graph → Prop := Relation.ReflTransGen Change

theorem Changes.keeps (inv : Graph → Prop) (change : ∀ {g g'}, Change g g' → inv g → inv g')
    {g g' : Graph} (changes : Changes g g') (holds : inv g) : inv g' :=
  keeps_of_steps inv change changes holds

/-! ## What no change does -/

section

variable {g g' : Graph}

/-- No change but a retirement touches more of any block than its code, its label and its edges. -/
theorem Change.steady (change : Change g g') :
    SameBlocks Block.steady g g' ∧ g'.liveCount = g.liveCount ∨ ∃ b, g.retire b = .ok g' := by
  have rewired (rewired : Rewired g g') :
      SameBlocks Block.steady g g' ∧ g'.liveCount = g.liveCount :=
    ⟨rewired.block.weaken Block.steady, rewired.globals.liveCount⟩
  cases change with
  | forget => exact .inl ⟨.refl _ g, rfl⟩
  | recode b f code =>
    have same (data : Block) := congrArg Block.steady (code data)
    exact .inl ⟨.modify g b same, rfl⟩
  | recast e kind => exact .inl ⟨.refl _ g, rfl⟩
  | unlabel b => exact .inl ⟨.modify g b fun _ => rfl, rfl⟩
  | relabel t l led found old => exact .inl ⟨.modify _ t fun _ => rfl, rfl⟩
  | disconnect ran => exact .inl (rewired ((Rewired.disconnect_yields g _).of_eq_ok ran).1)
  | redirect led ran => exact .inl (rewired ((Rewired.redirect_yields g _ _).of_eq_ok ran).1)
  | retire ran => exact .inr ⟨_, ran⟩

/-- No block comes into the arena or leaves it. -/
theorem Change.isSome_eq (change : Change g g') (c : BlockId) :
    (g'.block? c).isSome = (g.block? c).isSome := by
  obtain ⟨same, -⟩ | ⟨b, ran⟩ := change.steady
  · exact same.isSome_eq c
  · obtain ⟨data, g₁, -, -, -, -, relaid, rfl⟩ := (retire_yields_relaid g b).of_eq_ok ran
    exact isSome_block?_modify.trans (relaid.block.isSome_eq c)

/-- A cached postorder is kept or given up. -/
theorem Change.order (change : Change g g') : g'.order = none ∨ g'.order = g.order := by
  cases change with
  | forget => exact .inl rfl
  | recode b f code => exact .inr rfl
  | recast e kind => exact .inr rfl
  | unlabel b => exact .inr rfl
  | relabel t l led found old => exact .inr rfl
  | disconnect ran =>
    obtain rfl | gone := order_of_disconnect ran
    · exact .inr rfl
    · exact .inl gone
  | redirect led ran => exact .inl (order_of_redirect ran)
  | retire ran =>
    obtain ⟨data, g₁, -, -, -, -, relaid, rfl⟩ := (retire_yields_relaid g _).of_eq_ok ran
    exact relaid.order

/-- Whatever is marked in `g'` was marked in `g`. -/
def MarkedFrom (g g' : Graph) : Prop :=
  ∀ b data', g'.block? b = some data' → data'.marked = true →
    ∃ data, g.block? b = some data ∧ data.marked = true

theorem MarkedFrom.trans {g'' : Graph} (first : MarkedFrom g g') (second : MarkedFrom g' g'') :
    MarkedFrom g g'' := by
  intro b data'' found'' marked''
  obtain ⟨data', found', marked'⟩ := second b data'' found'' marked''
  exact first b data' found' marked'

theorem MarkedFrom.of_same (same : SameBlocks Block.marked g g') : MarkedFrom g g' := by
  intro b data' found' marked
  obtain ⟨data, found, mark⟩ := same.symm.exists_block found'
  exact ⟨data, found, mark.trans marked⟩

theorem Change.markedFrom (change : Change g g') : MarkedFrom g g' := by
  obtain ⟨same, -⟩ | ⟨b, ran⟩ := change.steady
  · exact .of_same (same.weaken Block.marked)
  · obtain ⟨data, g₁, -, -, -, -, relaid, rfl⟩ := (retire_yields_relaid g b).of_eq_ok ran
    have moved : MarkedFrom g g₁ := .of_same (relaid.block.weaken Block.marked)
    -- the block that retires loses its mark, if it has one
    refine moved.trans fun c data' found' marked => ?_
    change (g₁.modify b _).block? c = some data' at found'
    rw [block?_modify] at found'
    split at found'
    · obtain ⟨_, -, rfl⟩ := Option.map_eq_some_iff.1 found'
      cases marked
    · exact ⟨data', found', marked⟩

end

/-! ## Steps that return -/

section

variable (g : Graph)

theorem disconnect_changes (e : EdgeId) : Yields (fun _ => True) (g.disconnect e) (Changes g) :=
  yields_of_forall fun _ ran => .single (.disconnect ran)

theorem retire_changes (b : BlockId) : Yields (fun _ => True) (g.retire b) (Changes g) :=
  yields_of_forall fun _ ran => .single (.retire ran)

end

/-! ## Unreachable blocks -/

theorem dropSide_changes (side : Block → List EdgeId) (b : BlockId) (n : Nat) : ∀ g : Graph,
    Yields (fun _ => True) (g.dropSide side b n) (Changes g) := by
  induction n with
  | zero =>
    intro g
    refine (block_yields g b).bind fun data _ => ?_
    exact require_yields.bind fun _ _ => yields_pure .refl
  | succ n ih =>
    intro g
    refine (block_yields g b).bind fun data _ => ?_
    split
    · exact yields_pure .refl
    · refine (disconnect_changes g _).bind fun g₁ first => ?_
      exact (ih g₁).mono fun g' rest => first.trans rest

theorem drop_changes (g : Graph) (b : BlockId) :
    Yields (fun _ => True) (g.drop b) (Changes g) := by
  refine (block_yields g b).bind fun data _ => ?_
  refine (dropSide_changes _ b _ g).bind fun g₁ first => ?_
  refine (block_yields g₁ b).bind fun data₁ _ => ?_
  refine (dropSide_changes _ b _ g₁).bind fun g₂ second => ?_
  exact (retire_changes g₂ b).mono fun g' third => (first.trans second).trans third

theorem sweep_changes (n : Nat) : ∀ (g : Graph) (o : Option BlockId) (dropped : List BlockId),
    Yields (fun _ => True) (g.sweep n o dropped) fun (_, g') => Changes g g' := by
  induction n with
  | zero =>
    intro g o dropped
    cases o with
    | none => exact yields_ok .refl
    | some b => exact trivial
  | succ n ih =>
    intro g o dropped
    cases o with
    | none => exact yields_ok .refl
    | some b =>
      rw [sweep]
      split
      · exact yields_pure .refl
      · refine (block_yields g b).bind fun data _ => ?_
        split
        · exact ih g data.next dropped
        · refine (drop_changes g b).bind fun g₁ first => ?_
          exact (ih g₁ data.next (b :: dropped)).mono fun _ rest => first.trans rest

/-- What happens between the search and the clearing of marks is a sequence of changes. -/
theorem eliminate_changes (g : Graph) (order : List BlockId) :
    Yields (fun _ => True) (g.eliminate order) fun (_, g') =>
      ∃ g₁, Changes g g₁ ∧ g₁.clearMarks order = .ok g' := by
  refine (block_yields g .entry).bind fun data _ => ?_
  refine (sweep_changes _ g data.next []).bind fun (dropped, g₁) swept => ?_
  exact (yields_of_forall fun _ => id).bind fun g' cleared => yields_pure ⟨g₁, swept, cleared⟩

/-! ## Rules -/

theorem foldBranch_changes (g : Graph) (b : BlockId) :
    Yields (fun _ => True) (foldBranch g b) fun (g', _) => Changes g g' := by
  have nop (g : Graph) : Changes g (g.modify b (·.modifyLast fun _ => .plain .nop)) :=
    .single (.recode g b _ fun data => data.withoutCode_modifyLast _)
  have fall (g : Graph) (e : EdgeId) : Changes g { g.modify b ({ · with deadEnd := false }) with
      edges := g.edges.modify e ({ · with kind := .fallthru }), order := none } := by
    have first : Change g (g.modify b ({ · with deadEnd := false })) := .recode g b _ fun _ => rfl
    exact ((Relation.ReflTransGen.single first).tail (.recast _ e .fallthru)).tail (.forget _)
  refine (block_yields g b).bind fun data _ => ?_
  split
  · exact yields_pure .refl
  · refine (edge_yields g _).bind fun edge _ => ?_
    split
    · dsimp only
      split
      · exact yields_pure ((nop g).trans (fall _ _))
      · exact (disconnect_changes _ _).bind fun g' last => yields_pure ((nop g).trans last)
    · exact yields_pure .refl

theorem foldConditional_changes (g : Graph) (b : BlockId) :
    Yields (fun _ => True) (foldConditional g b) fun (g', _) => Changes g g' := by
  have jump (g : Graph) : Changes g (g.modify b fun data =>
      { data.modifyLast (·.withOpcode .br) with deadEnd := true }) :=
    .single (.recode g b _ fun data => data.withoutCode_modifyLast _)
  refine (block_yields g b).bind fun data _ => ?_
  split
  · refine (edge_yields g _).bind fun taken _ => ?_
    refine (edge_yields g _).bind fun fall _ => ?_
    split
    · refine (block_yields g _).bind fun between _ => ?_
      split
      · refine (edge_yields g _).bind fun edge _ => ?_
        split
        · exact (disconnect_changes _ _).bind fun g' last => yields_pure ((jump g).trans last)
        · exact yields_pure .refl
      · exact yields_pure .refl
    · exact yields_pure .refl
  · exact yields_pure .refl

/-- Changes that leave an edge to `t`. -/
def ChangesTo (t : BlockId) (g g' : Graph) : Prop := Changes g g' ∧ g'.LedTo t

theorem ChangesTo.trans {t : BlockId} {g₁ g₂ g₃ : Graph} (first : ChangesTo t g₁ g₂)
    (second : ChangesTo t g₂ g₃) : ChangesTo t g₁ g₃ :=
  ⟨first.1.trans second.1, second.2⟩

theorem takeLabels_changes (t : BlockId) (n : Nat) : ∀ (g : Graph) (o : Option Label), g.LedTo t →
    Yields (fun _ => True) (g.takeLabels t n o) (ChangesTo t g) := by
  induction n with
  | zero =>
    intro g o led
    cases o with
    | none => exact yields_ok ⟨.refl, led⟩
    | some l => exact trivial
  | succ n ih =>
    intro g o led
    cases o with
    | none => exact yields_ok ⟨.refl, led⟩
    | some l =>
      refine (block_yields g t).bind fun data found => ?_
      cases old : g.labels.get? l with
      | none => exact yields_pure ⟨.refl, led⟩
      | some slot =>
        -- edges stay as they are, so the one to `t` is still there
        have step : ChangesTo t g (({ g with labels := g.labels.set l ⟨some t, data.label⟩ } :
            Graph).modify t ({ · with label := some l })) :=
          ⟨.single (.relabel g t l led found old), led⟩
        exact (ih _ slot.older step.2).mono fun g' rest => step.trans rest

theorem passLabels_changes {g : Graph} {b t : BlockId} (o : Option Label) (led : g.LedTo t) :
    Yields (fun _ => True) (g.passLabels b t o) (ChangesTo t g) := by
  cases o with
  | none => exact yields_ok ⟨.refl, led⟩
  | some l =>
    have step : ChangesTo t g (g.modify b ({ · with label := none })) :=
      ⟨.single (.unlabel g b), led⟩
    exact (takeLabels_changes t _ _ _ step.2).mono fun g' rest => step.trans rest

theorem redirect_changes {g : Graph} {t : BlockId} (e : EdgeId) (led : g.LedTo t) :
    Yields (fun _ => True) (g.redirect e t) (ChangesTo t g) := by
  refine (yields_of_forall fun _ => id).mono fun g' ran => ⟨.single (.redirect led ran), ?_⟩
  -- the edge itself leads to `t` now
  simp only [redirect, bind_eq_ok, edge_eq_ok, update_eq_ok] at ran
  obtain ⟨_, _, edge, stored, _, ⟨_, rfl⟩, _, rfl⟩ := ran
  refine ⟨e, { edge with dst := t }, ?_, rfl⟩
  change (g.edges.modify e _).get? e = _
  rw [EdgePool.get?_modify, if_pos rfl, stored]
  rfl

theorem passEdges_changes {g : Graph} {b t : BlockId} (es : List EdgeId) (led : g.LedTo t) :
    Yields (fun _ => True) (es.foldlM (passEdge b t) (g, none, 0)) fun (g', _) =>
      ChangesTo t g g' := by
  refine Yields.foldlM (fun _ (state : Graph × Option EdgeId × Nat) => ChangesTo t g state.1)
    ⟨.refl, led⟩ ?_
  intro done e rest (g₁, kept, moved) _ before
  refine (edge_yields g₁ e).bind fun edge _ => ?_
  split
  · refine (redirect_changes e before.2).bind fun g₂ step => ?_
    exact require_yields.bind fun _ _ => yields_pure (before.trans step)
  · exact yields_pure before

theorem passKept_changes {g : Graph} {t : BlockId} (kind : EdgeKind) (kept : Option EdgeId)
    (moved : Nat) (led : g.LedTo t) :
    Yields (fun _ => True) (passKept t kind (g, kept, moved)) fun (g', _) => ChangesTo t g g' := by
  have nothing : ChangesTo t g g := ⟨.refl, led⟩
  cases kept with
  | none => exact yields_pure nothing
  | some e =>
    cases kind with
    | fallthru => exact (redirect_changes e led).bind fun g' step => yields_pure step
    | branch | except | ret => exact yields_pure nothing

theorem mergeEmpty_changes (g : Graph) (b : BlockId) :
    Yields (fun _ => True) (mergeEmpty g b) fun (g', _) => Changes g g' := by
  refine (block_yields g b).bind fun data _ => ?_
  split
  · rename_i out _
    refine (edge_yields g out).bind fun edge stored => ?_
    split
    · have led : g.LedTo edge.dst := ⟨out, edge, stored, rfl⟩
      refine (passLabels_changes data.label led).bind fun g₁ first => ?_
      refine (passEdges_changes data.preds first.2).bind fun (g₂, kept, moved) second => ?_
      refine (passKept_changes edge.kind kept moved second.2).bind fun (g₃, moved') third => ?_
      have forwarded := ((first.trans second).trans third).1
      refine (block_yields g₃ b).bind fun data' _ => ?_
      split
      · refine (disconnect_changes g₃ out).bind fun g₄ fourth => ?_
        exact (retire_changes g₄ b).bind fun g' fifth =>
          yields_pure ((forwarded.trans fourth).trans fifth)
      · split <;> exact yields_pure forwarded
    · exact yields_pure .refl
  · exact yields_pure .refl

/-! ## Marks -/

/-- Only blocks among `bs` are marked. -/
def MarkedIn (g : Graph) (bs : List BlockId) : Prop :=
  ∀ b data, g.block? b = some data → data.marked = true → b ∈ bs

/-- No block is marked. -/
def Clear (g : Graph) : Prop := ∀ b data, g.block? b = some data → data.marked = false

instance (g : Graph) : Decidable g.Clear :=
  inferInstanceAs (Decidable (∀ b data, g.block? b = some data → data.marked = false))

section

variable {g g' : Graph} {bs : List BlockId}

theorem MarkedFrom.markedIn (markedFrom : MarkedFrom g g') (within : g.MarkedIn bs) :
    g'.MarkedIn bs := by
  intro b data' found' marked'
  obtain ⟨data, found, marked⟩ := markedFrom b data' found' marked'
  exact within b data found marked

theorem MarkedFrom.clear (markedFrom : MarkedFrom g g') (clear : g.Clear) : g'.Clear := by
  intro b data' found'
  cases mark : data'.marked with
  | false => rfl
  | true =>
    obtain ⟨data, found, marked⟩ := markedFrom b data' found' mark
    simp [clear b data found] at marked

theorem Clear.of_same (clear : g.Clear) (same : SameBlocks Block.marked g g') : g'.Clear :=
  (MarkedFrom.of_same same).clear clear

theorem Clear.markedIn_setMarks (clear : g.Clear) : (g.setMarks bs true).MarkedIn bs := by
  intro b data found marked
  rw [block?_setMarks, Option.map_eq_some_iff] at found
  obtain ⟨data, found, rfl⟩ := found
  by_cases member : b ∈ bs
  · exact member
  · rw [if_neg member, clear b data found] at marked
    cases marked

theorem MarkedIn.clear_setMarks (within : g.MarkedIn bs) : (g.setMarks bs false).Clear := by
  intro b data found
  rw [block?_setMarks, Option.map_eq_some_iff] at found
  obtain ⟨data, found, rfl⟩ := found
  by_cases member : b ∈ bs
  · rw [if_pos member]
  · rw [if_neg member]
    exact Bool.eq_false_iff.2 fun marked => member (within b data found marked)

/-- Where no mark was set before, setting marks and clearing them again changes nothing. -/
theorem setMarks_setMarks (clear : g.Clear) (order : List BlockId) (kept : Option (List BlockId)) :
    ({ g.setMarks order true with order := kept } : Graph).setMarks order false =
      { g with order := kept } := by
  set marked : Graph := { g.setMarks order true with order := kept } with isMarked
  have blocks : (marked.setMarks order false).blocks = g.blocks := by
    apply Array.ext_getElem?
    intro i
    have seen : marked.block? ⟨i⟩ = _ := block?_setMarks order true g ⟨i⟩
    have back := block?_setMarks order false marked ⟨i⟩
    rw [seen, Option.map_map] at back
    refine back.trans ?_
    change _ = g.block? ⟨i⟩
    cases found : g.block? ⟨i⟩ with
    | none => rfl
    | some data =>
      have unmarked : data.marked = false := clear _ data found
      obtain ⟨⟩ := data
      cases unmarked
      simp only [Option.map_some, Function.comp_apply]
      split <;> rfl
  refine (modifyAll_eq order _ marked).trans ?_
  change { marked with blocks := (marked.setMarks order false).blocks } = _
  rw [blocks, isMarked, setMarks, modifyAll_eq]

/-- A search for a postorder clears the marks it sets. -/
theorem postorder_clears (clear : g.Clear) :
    Yields (fun _ => True) g.postorder fun (_, g') => g'.Clear := by
  have reached : Yields (fun _ => True) g.markReached fun (order, g₁) => g₁.MarkedIn order :=
    (yields_of_forall fun _ => id).bind fun order _ => yields_pure clear.markedIn_setMarks
  exact reached.bind fun _ within => yields_pure within.clear_setMarks

end

/-! ## Whole runs -/

theorem rule_changes {s : Settings} {rule : Rule} (listed : rule ∈ s.rules) (g : Graph)
    (b : BlockId) : Yields (fun _ => True) (rule g b) fun (g', _) => Changes g g' := by
  obtain rfl | rfl | rfl := Settings.mem_rules listed
  · exact foldBranch_changes g b
  · exact foldConditional_changes g b
  · exact mergeEmpty_changes g b

theorem clearMarks_yields (bs : List BlockId) : ∀ g : Graph,
    Yields (fun _ => True) (g.clearMarks bs) fun g' =>
      g' = g.setMarks bs false ∧ ∀ b ∈ bs, (g'.block? b).isSome := by
  induction bs with
  | nil => exact fun g => yields_pure ⟨rfl, by simp⟩
  | cons b bs ih =>
    intro g
    rw [clearMarks, List.foldlM_cons]
    refine (update_yields g b _).bind fun g₁ result => ?_
    obtain ⟨inside, rfl⟩ := result
    apply (ih _).mono
    intro g' result
    obtain ⟨rest, insideRest⟩ := result
    refine ⟨rest, fun c member => ?_⟩
    cases member with
    | head =>
      rw [rest, (remarked_setMarks bs false _).block.isSome_eq, isSome_block?_modify]
      exact inside
    | tail _ member => exact insideRest c member

/-- Dropping what cannot be reached is a sequence of changes between the setting of marks and their
clearing. -/
theorem prune_changes (g : Graph) : Yields (fun _ => True) g.markReached fun (order, g₁) =>
    g₁ = { g.setMarks order true with order := none } ∧
      Yields (fun _ => True) (g₁.eliminate order) fun (_, g₂) =>
        (∀ b ∈ order, (g₂.block? b).isSome) ∧
          ∃ g', Changes g₁ g' ∧ g₂ = g'.setMarks order false := by
  refine (yields_of_forall fun _ => id).bind fun order _ => yields_pure ⟨rfl, ?_⟩
  apply (eliminate_changes _ order).mono
  intro (dropped, g₂) ⟨g', changes, cleared⟩
  obtain ⟨same, inside⟩ := (clearMarks_yields order g').of_eq_ok cleared
  exact ⟨inside, g', changes, same⟩

theorem Changes.isSome_eq {g g' : Graph} (changes : Changes g g') (c : BlockId) :
    (g'.block? c).isSome = (g.block? c).isSome :=
  changes.keeps (fun h => (h.block? c).isSome = (g.block? c).isSome)
    (fun change same => (change.isSome_eq c).trans same) rfl

/-- What a search or a simplification does at a time: a change, marks that are set or cleared, or an
order that is kept or forgotten. -/
inductive Touch : Graph → Graph → Prop where
  | change {g g' : Graph} (change : Change g g') : Touch g g'
  | mark (g : Graph) (bs : List BlockId) (marked : Bool) : Touch g (g.setMarks bs marked)
  | reorder (g : Graph) (order : Option (List BlockId)) : Touch g { g with order := order }

abbrev Touches : Graph → Graph → Prop := Relation.ReflTransGen Touch

theorem Touches.keeps (inv : Graph → Prop) (touch : ∀ {g g'}, Touch g g' → inv g → inv g')
    {g g' : Graph} (touches : Touches g g') (holds : inv g) : inv g' :=
  keeps_of_steps inv touch touches holds

section

variable {s : Settings} {g : Graph}

/-- What is kept by every touch is kept by each part of a round. -/
theorem Carries.of_touch {inv : Graph → Prop} (touch : ∀ {g g'}, Touch g g' → inv g → inv g') :
    Carries (fun _ => True) s fun _ => inv := by
  have changed {g g' : Graph} (changes : Changes g g') (holds : inv g) : inv g' :=
    changes.keeps inv (fun change => touch (.change change)) holds
  refine ⟨fun _ g holds => ?_, fun _ g b rule listed _ _ holds => ?_, fun _ g order holds => ?_⟩
  · apply (prune_changes g).mono
    intro (order, g₁) ⟨marked, pruned⟩
    apply pruned.mono
    intro (dropped, g₂) ⟨inside, g', changes, cleared⟩
    have holds₁ : inv g₁ := by
      rw [marked]
      exact touch (.reorder _ none) (touch (.mark g order true) holds)
    refine ⟨?_, inside⟩
    rw [cleared]
    exact touch (.mark g' order false) (changed changes holds₁)
  · apply (rule_changes listed g b).mono
    intro (g', r) changes
    exact ⟨changed changes holds, changes.isSome_eq⟩
  · exact touch (.reorder g order) holds

theorem simplify_touches (g : Graph) (s : Settings) :
    Yields (fun _ => True) (g.simplify s) fun (_, g') => Touches g g' :=
  have carries : Carries (fun _ => True) s fun _ => Touches g :=
    .of_touch fun touch before => before.tail touch
  (carries.simplify_yields (.inl trivial) .refl).mono fun _ => And.left

theorem postorder_touches (g : Graph) :
    Yields (fun _ => True) g.postorder fun (_, g') => Touches g g' := by
  have reached : Yields (fun _ => True) g.markReached fun (_, g₁) => Touches g g₁ :=
    (yields_of_forall fun _ => id).bind fun order _ =>
      yields_pure ((Relation.ReflTransGen.single (.mark g order true)).tail (.reorder _ none))
  exact reached.bind fun (order, g₁) touches =>
    yields_pure ((touches.tail (.mark g₁ order false)).tail (.reorder _ (some order)))

/-- No part of a round leaves a block marked. -/
theorem clear_carries : Carries (fun _ => True) s fun _ => Clear := by
  have changed {g g' : Graph} (changes : Changes g g') : MarkedFrom g g' :=
    changes.keeps (MarkedFrom g) (fun change before => before.trans change.markedFrom)
      (.of_same (.refl _ g))
  refine ⟨fun _ g clear => ?_, fun _ g b rule listed _ _ clear => ?_, fun _ g order clear => clear⟩
  · apply (prune_changes g).mono
    intro (order, g₁) ⟨marked, pruned⟩
    apply pruned.mono
    intro (dropped, g₂) ⟨inside, g', changes, cleared⟩
    have within : g₁.MarkedIn order := by
      rw [marked]
      exact clear.markedIn_setMarks
    refine ⟨?_, inside⟩
    rw [cleared]
    exact ((changed changes).markedIn within).clear_setMarks
  · apply (rule_changes listed g b).mono
    intro (g', r) changes
    exact ⟨(changed changes).clear clear, changes.isSome_eq⟩

/-- A simplification that finds no block marked leaves none marked. -/
theorem simplify_clears (clear : g.Clear) :
    Yields (fun _ => True) (g.simplify s) fun (_, g') => g'.Clear :=
  have carries : Carries (fun _ => True) s fun _ => Clear := clear_carries
  (carries.simplify_yields (.inl trivial) clear).mono fun _ => And.left

end

end Graph

end FlowGraph
