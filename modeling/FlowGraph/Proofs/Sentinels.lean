import FlowGraph.Proofs.Symmetry

/-! # The ends of the graph

Control enters at entry and leaves at exit: no label is bound to entry, no edge leads there, and
none leaves exit. A client cannot change this by whatever it does, in whatever order and with
whatever handles, short of drawing edges of its own. Entry refuses labels, and edges that are built
follow labels or links or lead to exit; so what has to be kept is that no block has entry behind it.
That in turn holds because a block must be detached to be linked in, and entry never is. -/

namespace FlowGraph

/-- The operation draws an edge, or sends one elsewhere, that no instruction calls for. -/
def Operation.draws : Operation → Bool
  | connect .. | redirect .. => true
  | create | append | destroy _ | detach .. | attachAfter .. | attachBefore .. | push ..
  | replaceLast .. | setDeadEnd .. | bindLabel .. | setCatcher _ | setMeta .. | eraseMeta ..
  | disconnect _ | disconnectAll | build | postorder | simplify _ => false

/-- Whether a block is in the layout, and what is behind it there. -/
def Block.seat (d : Block) : Status × Option BlockId := (d.status, d.next)

/-- What of a block says where control may go from it or come from. -/
def Block.ways (d : Block) : (Status × Option BlockId) × List EdgeId × List EdgeId :=
  (d.seat, d.arrays)

namespace Graph

/-! ## Entry comes first -/

/-- Entry is live and no block has it behind itself. -/
structure Foremost (g : Graph) : Prop where
  live : ∃ data, g.block? .entry = some data ∧ data.status = .live
  first : ∀ b, g.next? b ≠ some .entry

section

variable {g g' : Graph}

namespace Foremost

/-- It comes down to links and the status of entry. -/
theorem of_next (foremost : g.Foremost) (same : SameBlocks Block.next g g')
    (live : ∀ data, g.block? .entry = some data → data.status = .live →
      ∃ data', g'.block? .entry = some data' ∧ data'.status = .live) : g'.Foremost := by
  constructor
  · obtain ⟨data, found, isLive⟩ := foremost.live
    exact live data found isLive
  · intro b
    rw [next?_congr same]
    exact foremost.first b

theorem of_same (foremost : g.Foremost) (same : SameBlocks Block.seat g g') : g'.Foremost := by
  apply foremost.of_next (same.weaken Prod.snd)
  intro data found live
  obtain ⟨data', found', seat⟩ := same.exists_block found
  exact ⟨data', found', (congrArg Prod.fst seat).trans live⟩

theorem next_ne (foremost : g.Foremost) {b c : BlockId} {data : Block}
    (found : g.block? b = some data) (link : data.next = some c) : c ≠ .entry := by
  rintro rfl
  exact foremost.first b ((next?_eq found).trans link)

/-- What is detached can be linked in behind a block, because it is not entry. -/
theorem detached_ne (foremost : g.Foremost) {b : BlockId} {data : Block}
    (found : g.block? b = some data) (detached : data.status = .detached) : b ≠ .entry := by
  rintro rfl
  obtain ⟨entry, foundEntry, live⟩ := foremost.live
  rw [found] at foundEntry
  cases foundEntry
  rw [detached] at live
  cases live

/-! ### Links -/

theorem setPrev_yields (foremost : g.Foremost) (b : BlockId) (o : Option BlockId) :
    Yields (fun _ => True) (g.update b ({ · with prev := o })) Foremost := by
  apply (update_yields g b _).mono
  intro g' ⟨_, updated⟩
  rw [updated]
  exact foremost.of_same (.modify g b fun _ => rfl)

theorem setNext_yields (foremost : g.Foremost) (b : BlockId) {o : Option BlockId}
    (inner : o ≠ some .entry) :
    Yields (fun _ => True) (g.update b ({ · with next := o })) Foremost := by
  apply (update_yields g b _).mono
  intro g' ⟨_, updated⟩
  rw [updated]
  constructor
  · have same : SameBlocks Block.status g (g.modify b ({ · with next := o })) :=
      .modify g b fun _ => rfl
    obtain ⟨data, found, live⟩ := foremost.live
    obtain ⟨data', found', standing⟩ := same.exists_block found
    exact ⟨data', found', standing.trans live⟩
  · intro c
    rw [next?, block?_modify]
    split
    · cases g.block? c with
      | none => simp
      | some data => simpa using inner
    · exact foremost.first c

/-! ### Status -/

/-- The blocks of a run take a status; entry must not be among them unless it is the live one. -/
theorem modifyAll (foremost : g.Foremost) {members : List BlockId} {status : Status}
    (spared : .entry ∈ members → status = .live) :
    (g.modifyAll members ({ · with status := status })).Foremost := by
  have block := block?_modifyAll members (f := ({ · with status := status })) (fun _ => rfl) g
  have same : SameBlocks Block.next g (g.modifyAll members ({ · with status := status })) := by
    apply SameBlocks.of_map block
    intro c data
    split <;> rfl
  apply foremost.of_next same
  intro data found live
  by_cases inRun : .entry ∈ members
  · exact ⟨_, by rw [block, found, Option.map_some, if_pos inRun], spared inRun⟩
  · exact ⟨_, by rw [block, found, Option.map_some, if_neg inRun], live⟩

theorem enlist_yields (foremost : g.Foremost) (first last : BlockId) :
    Yields (fun _ => True) (g.enlist first last) Foremost := by
  have run : Yields (fun _ => True) (g.run last (g.blockCount + 1) first []) fun _ => True :=
    yields_of_forall fun _ _ => trivial
  apply run.bind
  intro members _
  apply require_yields.bind
  intro _ _
  have marked : (g.modifyAll members ({ · with status := .live })).Foremost :=
    foremost.modifyAll fun _ => rfl
  exact yields_pure (marked.of_same (.refl _ _))

/-- Links never lead to entry, so a run that does not begin there does not meet it. -/
theorem run_yields (foremost : g.Foremost) (last : BlockId) (n : Nat) :
    ∀ (b : BlockId) (met : List BlockId), b ≠ .entry → .entry ∉ met →
      Yields (fun _ => True) (g.run last n b met) fun members => .entry ∉ members := by
  induction n with
  | zero => exact fun _ _ _ _ => trivial
  | succ n ih =>
    intro b met inner unmet
    have unmet' : BlockId.entry ∉ b :: met := by simp [inner.symm, unmet]
    have ended : BlockId.entry ∉ (b :: met).reverse := by rwa [List.mem_reverse]
    apply (block_yields g b).bind
    intro data found
    split
    · exact yields_pure ended
    · cases link : data.next with
      | none => exact yields_pure ended
      | some c => exact ih c (b :: met) (foremost.next_ne found link) unmet'

theorem discharge_yields (foremost : g.Foremost) {first : BlockId} (inner : first ≠ .entry)
    (last : BlockId) : Yields (fun _ => True) (g.discharge first last) Foremost := by
  apply (foremost.run_yields last _ first [] inner (by simp)).bind
  intro members unmet
  apply require_yields.bind
  intro _ _
  have marked : (g.modifyAll members ({ · with status := .detached })).Foremost :=
    foremost.modifyAll fun inRun => absurd inRun unmet
  exact yields_pure (marked.of_same (.refl _ _))

/-! ### Operations on the layout -/

theorem attachAfter_yields (foremost : g.Foremost) (pivot first last : BlockId) :
    Yields (fun _ => True) (g.attachAfter pivot first last) Foremost := by
  apply require_yields.bind
  intro _ _
  apply (block_yields g pivot).bind
  intro place foundPivot
  apply require_yields.bind
  intro _ _
  apply (block_yields g first).bind
  intro head foundFirst
  apply require_yields.bind
  intro _ detached
  cases link : place.next with
  | none => exact yields_pure foremost
  | some next =>
    have behind : some next ≠ some BlockId.entry := by simpa using foremost.next_ne foundPivot link
    have inner : some first ≠ some BlockId.entry := by
      simpa using foremost.detached_ne foundFirst detached
    apply (foremost.setPrev_yields first _).bind
    intro g₁ foremost₁
    apply (foremost₁.setNext_yields last behind).bind
    intro g₂ foremost₂
    apply (foremost₂.setPrev_yields next _).bind
    intro g₃ foremost₃
    apply (foremost₃.setNext_yields pivot inner).bind
    intro g₄ foremost₄
    exact foremost₄.enlist_yields first last

theorem attachBefore_yields (foremost : g.Foremost) (pivot first last : BlockId) :
    Yields (fun _ => True) (g.attachBefore pivot first last) Foremost := by
  apply require_yields.bind
  intro _ notEntry
  apply (block_yields g pivot).bind
  intro place _
  apply require_yields.bind
  intro _ _
  apply (block_yields g first).bind
  intro head foundFirst
  apply require_yields.bind
  intro _ detached
  cases place.prev with
  | none => exact yields_pure foremost
  | some prev =>
    have behind : some pivot ≠ some BlockId.entry := by simpa using notEntry
    have inner : some first ≠ some BlockId.entry := by
      simpa using foremost.detached_ne foundFirst detached
    apply (foremost.setPrev_yields first _).bind
    intro g₁ foremost₁
    apply (foremost₁.setNext_yields last behind).bind
    intro g₂ foremost₂
    apply (foremost₂.setNext_yields prev inner).bind
    intro g₃ foremost₃
    apply (foremost₃.setPrev_yields pivot _).bind
    intro g₄ foremost₄
    exact foremost₄.enlist_yields first last

theorem detach_yields (foremost : g.Foremost) (first last : BlockId) :
    Yields (fun _ => True) (g.detach first last) Foremost := by
  apply require_yields.bind
  intro _ ends
  apply (block_yields g first).bind
  intro head _
  apply require_yields.bind
  intro _ _
  apply (block_yields g last).bind
  intro tail foundLast
  split
  · rename_i prev next _ link
    have behind : some next ≠ some BlockId.entry := by simpa using foremost.next_ne foundLast link
    apply (foremost.setNext_yields prev behind).bind
    intro g₁ foremost₁
    apply (foremost₁.setPrev_yields next _).bind
    intro g₂ foremost₂
    apply (foremost₂.setPrev_yields first _).bind
    intro g₃ foremost₃
    apply (foremost₃.setNext_yields last (by simp)).bind
    intro g₄ foremost₄
    exact foremost₄.discharge_yields ends.1 last
  · exact yields_pure foremost

theorem create (foremost : g.Foremost) : g.create.2.Foremost := by
  have created := g.block?_create
  constructor
  · obtain ⟨data, found, live⟩ := foremost.live
    have old : BlockId.entry ≠ g.create.1 := by
      intro new
      rw [new, block?_create_self] at found
      cases found
    exact ⟨data, by rw [created, if_neg old, found], live⟩
  · intro b
    rw [next?, created]
    split
    · simp [Block.fresh]
    · exact foremost.first b

/-- A block other than entry may take any status. -/
theorem modify (foremost : g.Foremost) {b : BlockId} (inner : b ≠ .entry) {f : Block → Block}
    (unseen : ∀ data, (f data).next = data.next) : (g.modify b f).Foremost := by
  apply foremost.of_next (.modify g b unseen)
  intro data found live
  exact ⟨data, by rw [block?_modify, if_neg inner.symm, found], live⟩

/-! ### All operations -/

theorem move (foremost : g.Foremost) {op : Operation} (moves : Moves g op g') : g'.Foremost := by
  cases moves with
  | detach ran => exact (foremost.detach_yields _ _).of_eq_ok ran
  | attachAfter ran => exact (foremost.attachAfter_yields _ _ _).of_eq_ok ran
  | attachBefore ran => exact (foremost.attachBefore_yields _ _ _).of_eq_ok ran

theorem vacate (foremost : g.Foremost) {b : BlockId} (vacates : Vacates g b g') : g'.Foremost := by
  cases vacates with
  | outside found notLive => exact foremost
  | detach ran => exact (foremost.detach_yields b b).of_eq_ok ran

theorem rewired (foremost : g.Foremost) (rewired : Rewired g g') : g'.Foremost :=
  foremost.of_same (rewired.block.weaken Block.seat)

theorem change (change : Change g g') (foremost : g.Foremost) : g'.Foremost := by
  obtain ⟨same, -⟩ | ⟨b, ran⟩ := change.steady
  · exact foremost.of_same (same.weaken Block.seat)
  · obtain ⟨data, g₁, found, -, -, detached, -, result⟩ := (retire_yields_relaid g b).of_eq_ok ran
    obtain ⟨inner, -, -⟩ := live_of_detach detached found
    have foremost₁ : g₁.Foremost := (foremost.detach_yields b b).of_eq_ok detached
    have spent : (g₁.modify b Block.spent).Foremost := foremost₁.modify inner fun _ => rfl
    rw [result]
    exact spent.of_same (.refl _ _)

theorem touch (touch : Touch g g') (foremost : g.Foremost) : g'.Foremost := by
  cases touch with
  | change change => exact .change change foremost
  | mark bs marked =>
    exact foremost.of_same ((remarked_setMarks bs marked g).block.weaken Block.seat)
  | reorder order => exact foremost.of_same (.refl _ g)

/-- Whatever operation is carried out, with whatever handles. -/
theorem effect (foremost : g.Foremost) {op : Operation} (effect : Effect g op g') :
    g'.Foremost := by
  cases effect with
  | create => exact foremost.create
  | append ran =>
    exact (foremost.create.attachBefore_yields _ _ _).of_eq_ok (attached_of_append ran)
  | destroy notEntry notExit vacates =>
    exact (foremost.vacate vacates).modify notEntry fun _ => rfl
  | move moves => exact foremost.move moves
  | write inside writes => exact foremost.of_same ((same_of_writes g writes).weaken Block.seat)
  | bind bound =>
    obtain rfl | ⟨-, -, data, -, rfl⟩ := bound
    · exact foremost
    · exact foremost.of_same (.modify _ _ fun _ => rfl)
  | catcher l => exact foremost.of_same (.refl _ g)
  | wire wires => exact foremost.rewired wires.rewired.1
  | search searches => exact searches.touches.keeps Foremost touch foremost

end Foremost

/-! ## No edge enters entry or leaves exit -/

/-- The array of a block has an edge in it. -/
def Lists (g : Graph) (side : Block → List EdgeId) (b : BlockId) (e : EdgeId) : Prop :=
  ∃ data, g.block? b = some data ∧ e ∈ side data

/-- Neither the pool nor the arrays have an edge that enters entry or leaves exit. -/
structure Barred (g : Graph) : Prop where
  exit : (g.block? .exit).isSome
  target : ∀ e edge, g.edges.get? e = some edge → edge.dst ≠ .entry
  source : ∀ e edge, g.edges.get? e = some edge → edge.src ≠ .exit
  preds : ∀ e, ¬g.Lists Block.preds .entry e
  succs : ∀ e, ¬g.Lists Block.succs .exit e

/-- All blocks are there still, and every edge was there before, between the same blocks. -/
structure Fewer (g g' : Graph) : Prop where
  inside : ∀ b, (g.block? b).isSome → (g'.block? b).isSome
  edge : ∀ e edge', g'.edges.get? e = some edge' →
    ∃ edge, g.edges.get? e = some edge ∧ edge.src = edge'.src ∧ edge.dst = edge'.dst
  preds : ∀ b e, g'.Lists Block.preds b e → g.Lists Block.preds b e
  succs : ∀ b e, g'.Lists Block.succs b e → g.Lists Block.succs b e

theorem Barred.fewer (barred : g.Barred) (fewer : Fewer g g') : g'.Barred := by
  constructor
  case exit => exact fewer.inside _ barred.exit
  case target =>
    intro e edge' stored'
    obtain ⟨edge, stored, -, same⟩ := fewer.edge e edge' stored'
    rw [← same]
    exact barred.target e edge stored
  case source =>
    intro e edge' stored'
    obtain ⟨edge, stored, same, -⟩ := fewer.edge e edge' stored'
    rw [← same]
    exact barred.source e edge stored
  case preds => exact fun e listed => barred.preds e (fewer.preds _ e listed)
  case succs => exact fun e listed => barred.succs e (fewer.succs _ e listed)

namespace Fewer

theorem trans {g'' : Graph} (first : Fewer g g') (second : Fewer g' g'') : Fewer g g'' := by
  constructor
  case inside => exact fun b found => second.inside b (first.inside b found)
  case edge =>
    intro e edge'' stored''
    obtain ⟨edge', stored', src', dst'⟩ := second.edge e edge'' stored''
    obtain ⟨edge, stored, src, dst⟩ := first.edge e edge' stored'
    exact ⟨edge, stored, src.trans src', dst.trans dst'⟩
  case preds => exact fun b e listed => first.preds b e (second.preds b e listed)
  case succs => exact fun b e listed => first.succs b e (second.succs b e listed)

/-- Arrays have become shorter, or belong to new blocks and are empty. -/
theorem of_blocks (inside : ∀ b, (g.block? b).isSome → (g'.block? b).isSome)
    (block : ∀ b data', g'.block? b = some data' → (data'.preds = [] ∧ data'.succs = []) ∨
      ∃ data, g.block? b = some data ∧ data'.preds ⊆ data.preds ∧ data'.succs ⊆ data.succs)
    (edge : ∀ e edge', g'.edges.get? e = some edge' →
      ∃ edge, g.edges.get? e = some edge ∧ edge.src = edge'.src ∧ edge.dst = edge'.dst) :
    Fewer g g' := by
  constructor
  case inside => exact inside
  case edge => exact edge
  case preds =>
    intro b e ⟨data', found', member⟩
    obtain ⟨empty, -⟩ | ⟨data, found, preds, -⟩ := block b data' found'
    · rw [empty] at member
      cases member
    · exact ⟨data, found, preds member⟩
  case succs =>
    intro b e ⟨data', found', member⟩
    obtain ⟨-, empty⟩ | ⟨data, found, -, succs⟩ := block b data' found'
    · rw [empty] at member
      cases member
    · exact ⟨data, found, succs member⟩

theorem of_same (same : SameBlocks Block.arrays g g') (edges : g'.edges = g.edges) :
    Fewer g g' := by
  apply of_blocks
  case inside =>
    intro b found
    rw [same.isSome_eq]
    exact found
  case block =>
    intro b data' found'
    obtain ⟨data, found, arrays⟩ := same.symm.exists_block found'
    obtain ⟨succs, preds⟩ := Prod.mk.inj arrays
    exact .inr ⟨data, found, preds ▸ List.Subset.refl _, succs ▸ List.Subset.refl _⟩
  case edge =>
    intro e edge stored
    rw [edges] at stored
    exact ⟨edge, stored, rfl, rfl⟩

theorem relaid (relaid : Relaid g g') : Fewer g g' :=
  of_same (relaid.block.weaken Block.arrays) relaid.edges

/-- The array of one block has become shorter. -/
theorem modify (g : Graph) (b : BlockId) {f : Block → Block}
    (less : ∀ data, (f data).preds ⊆ data.preds ∧ (f data).succs ⊆ data.succs) :
    Fewer g (g.modify b f) := by
  apply of_blocks
  case inside =>
    intro c found
    rw [isSome_block?_modify]
    exact found
  case block =>
    intro c data' found'
    rw [block?_modify] at found'
    split at found'
    · obtain ⟨data, found, rfl⟩ := Option.map_eq_some_iff.1 found'
      exact .inr ⟨data, found, less data⟩
    · exact .inr ⟨data', found', List.Subset.refl _, List.Subset.refl _⟩
  case edge => exact fun e edge stored => ⟨edge, stored, rfl, rfl⟩

/-- A block gives up its arrays. -/
theorem release (g : Graph) (b : BlockId) {f : Block → Block}
    (empties : ∀ data, (f data).arrays = ([], [])) : Fewer g (g.modify b f) := by
  apply modify
  intro data
  obtain ⟨succs, preds⟩ := Prod.mk.inj (empties data)
  rw [succs, preds]
  exact ⟨List.nil_subset _, List.nil_subset _⟩

theorem create (g : Graph) : Fewer g g.create.2 := by
  apply of_blocks
  case inside =>
    intro b found
    rw [block?_create]
    split
    · rfl
    · exact found
  case block =>
    intro b data' found'
    rw [block?_create] at found'
    split at found'
    · cases found'
      exact .inl ⟨rfl, rfl⟩
    · exact .inr ⟨data', found', List.Subset.refl _, List.Subset.refl _⟩
  case edge => exact fun e edge stored => ⟨edge, stored, rfl, rfl⟩

/-- The pool has lost edges, or some are of another kind. -/
theorem repool (g : Graph) {edges : EdgePool} (order : Option (List BlockId))
    (edge : ∀ e edge', edges.get? e = some edge' →
      ∃ edge, g.edges.get? e = some edge ∧ edge.src = edge'.src ∧ edge.dst = edge'.dst) :
    Fewer g { g with edges := edges, order := order } :=
  of_blocks (fun _ found => found)
    (fun _ data found => .inr ⟨data, found, List.Subset.refl _, List.Subset.refl _⟩) edge

theorem recast (g : Graph) (e : EdgeId) (kind : EdgeKind) :
    Fewer g { g with edges := g.edges.modify e ({ · with kind := kind }) } := by
  apply repool g g.order
  intro e' edge' stored
  rw [EdgePool.get?_modify] at stored
  split at stored
  · obtain ⟨edge, stored₀, rfl⟩ := Option.map_eq_some_iff.1 stored
    exact ⟨edge, stored₀, rfl, rfl⟩
  · exact ⟨edge', stored, rfl, rfl⟩

theorem setSuccs (g : Graph) (b : BlockId) {f : List EdgeId → List EdgeId}
    (less : ∀ es, f es ⊆ es) :
    Fewer g (g.modify b fun data => { data with succs := f data.succs }) :=
  modify g b fun _ => ⟨List.Subset.refl _, less _⟩

theorem setPreds (g : Graph) (b : BlockId) {f : List EdgeId → List EdgeId}
    (less : ∀ es, f es ⊆ es) :
    Fewer g (g.modify b fun data => { data with preds := f data.preds }) :=
  modify g b fun _ => ⟨less _, List.Subset.refl _⟩

theorem disconnect_yields (g : Graph) (e : EdgeId) :
    Yields (fun _ => True) (g.disconnect e) (Fewer g) := by
  unfold Graph.disconnect
  cases g.edges.get? e with
  | none => exact yields_ok (of_same (.refl _ g) rfl)
  | some edge =>
    apply (update_yields g edge.src _).bind
    intro g₁ ⟨_, first⟩
    apply (update_yields g₁ edge.dst _).bind
    intro g₂ ⟨_, second⟩
    have shorter (es : List EdgeId) : es.erase e ⊆ es := List.erase_subset
    have forward : Fewer g g₁ := first ▸ setSuccs g edge.src shorter
    have backward : Fewer g₁ g₂ := second ▸ setPreds g₁ edge.dst shorter
    have edges : g₂.edges = g.edges := by rw [second, first, edges_modify, edges_modify]
    have pruned : Fewer g₂ { g₂ with edges := g₂.edges.dealloc e, order := none } := by
      apply repool g₂ none
      intro e' edge' stored
      rw [EdgePool.get?_dealloc] at stored
      split at stored
      · cases stored
      · exact ⟨edge', stored, rfl, rfl⟩
    exact yields_pure ((forward.trans backward).trans pruned)

theorem disconnectAll (g : Graph) : Fewer g g.disconnectAll := by
  have block (b : BlockId) : g.disconnectAll.block? b =
      (g.block? b).map ({ · with succs := [], preds := [] }) := by
    simp [block?, Graph.disconnectAll]
  have vacant (e : EdgeId) : g.disconnectAll.edges.get? e = none := rfl
  apply of_blocks
  case inside =>
    intro b found
    rw [block, Option.isSome_map]
    exact found
  case block =>
    intro b data' found'
    rw [block, Option.map_eq_some_iff] at found'
    obtain ⟨data, -, rfl⟩ := found'
    exact .inl ⟨rfl, rfl⟩
  case edge => simp [vacant]

end Fewer

namespace Barred

/-! ### Edges that come -/

/-- An edge is sent to another block. -/
theorem aim (barred : g.Barred) (e : EdgeId) {t : BlockId} (inner : t ≠ .entry) :
    ({ g with edges := g.edges.modify e ({ · with dst := t }), order := none } : Graph).Barred := by
  constructor
  case exit => exact barred.exit
  case target =>
    intro e' edge' stored'
    rw [EdgePool.get?_modify] at stored'
    split at stored'
    · obtain ⟨edge, -, rfl⟩ := Option.map_eq_some_iff.1 stored'
      exact inner
    · exact barred.target e' edge' stored'
  case source =>
    intro e' edge' stored'
    rw [EdgePool.get?_modify] at stored'
    split at stored'
    · obtain ⟨edge, stored, rfl⟩ := Option.map_eq_some_iff.1 stored'
      exact barred.source e' edge stored
    · exact barred.source e' edge' stored'
  case preds => exact barred.preds
  case succs => exact barred.succs

/-- A block other than entry lists one more edge that enters it. -/
theorem enter (barred : g.Barred) (e : EdgeId) {t : BlockId} (inner : t ≠ .entry) :
    (g.modify t fun data => { data with preds := data.preds ++ [e] }).Barred := by
  constructor
  case exit =>
    rw [isSome_block?_modify]
    exact barred.exit
  case target => exact barred.target
  case source => exact barred.source
  case preds =>
    intro e' ⟨data', found', member⟩
    rw [block?_modify, if_neg inner.symm] at found'
    exact barred.preds e' ⟨data', found', member⟩
  case succs =>
    intro e' ⟨data', found', member⟩
    rw [block?_modify] at found'
    split at found'
    · obtain ⟨data, found, rfl⟩ := Option.map_eq_some_iff.1 found'
      exact barred.succs e' ⟨data, found, member⟩
    · exact barred.succs e' ⟨data', found', member⟩

theorem redirect_yields (barred : g.Barred) (e : EdgeId) {t : BlockId} (inner : t ≠ .entry) :
    Yields (fun _ => True) (g.redirect e t) Barred := by
  apply (block_yields g t).bind
  intro _ _
  apply (edge_yields g e).bind
  intro edge _
  apply (update_yields g edge.dst _).bind
  intro g₁ ⟨_, first⟩
  have shorter (es : List EdgeId) : es.erase e ⊆ es := List.erase_subset
  have barred₁ : g₁.Barred := first ▸ barred.fewer (.setPreds g edge.dst shorter)
  apply (update_yields _ t _).mono
  intro g' ⟨_, second⟩
  rw [second]
  exact (barred₁.aim e inner).enter e inner

end Barred

/-! ## Building -/

/-- The body ends before exit. -/
theorem exit_not_mem_body (g : Graph) : .exit ∉ g.body.blocks := by
  have walk (n : Nat) : ∀ (o : Option BlockId) (met : List BlockId), .exit ∉ met →
      .exit ∉ (g.walk (· = .exit) n o met).blocks := by
    induction n with
    | zero =>
      intro o met unmet
      cases o <;> simpa [Graph.walk] using unmet
    | succ n ih =>
      intro o met unmet
      cases o with
      | none => simpa [Graph.walk] using unmet
      | some b =>
        rw [Graph.walk]
        split
        · simpa using unmet
        · rename_i inner
          split
          · simpa using unmet
          · exact ih _ _ (by simpa [unmet, eq_comm] using inner)
  exact walk _ _ [] (List.not_mem_nil)

/-- What is planned leaves a block of the body. It follows a label or a link, or leads to exit. -/
theorem Foremost.of_planned (foremost : g.Foremost) (label : ∀ l, g.resolve l ≠ some .entry)
    {es : List Edge} (planned : g.planned = .ok es) :
    ∀ edge ∈ es, edge.src ≠ .exit ∧ edge.dst ≠ .entry := by
  intro edge member
  simp only [Graph.planned, bind_eq_ok, mapM_eq_ok] at planned
  obtain ⟨ess, each, _, _, same⟩ := planned
  cases same
  obtain ⟨es, inEss, member⟩ := List.mem_flatten.1 member
  obtain ⟨b, inBody, plannedFrom⟩ := exists_of_forall₂ each inEss
  obtain ⟨⟨called, -⟩, rfl⟩ := plannedFrom_eq_ok.1 plannedFrom
  obtain ⟨⟨dst, kind⟩, inOut, rfl⟩ := List.mem_map.1 member
  constructor
  · rintro rfl
    exact exit_not_mem_body g inBody
  · obtain ⟨data, found, -⟩ := bind_eq_ok.1 called
    rw [block_eq_ok] at found
    rw [outgoing_of_block found, bind_eq_ok] at called
    obtain ⟨explicit, called, split⟩ := called
    rw [← Except.ok.inj split, List.mem_append] at inOut
    obtain inExplicit | inFall := inOut
    · rintro rfl
      obtain ⟨-, ⟨isExit, -⟩ | ⟨l, bound⟩⟩ := mem_calls called inExplicit
      · cases isExit
      · exact label l bound
    · unfold fallthrough at inFall
      split at inFall
      · cases inFall
      · cases link : data.next with
        | none => simp [link] at inFall
        | some c =>
          simp only [link, Option.map_some, Option.toList_some, List.mem_singleton,
            Prod.mk.injEq] at inFall
          rw [inFall.1]
          exact foremost.next_ne found link

theorem Connected.barred {es : List Edge} (connected : Connected es g g')
    (exit : (g.block? .exit).isSome)
    (ends : ∀ edge ∈ es, edge.src ≠ .exit ∧ edge.dst ≠ .entry) : g'.Barred := by
  have stored {e : EdgeId} {edge : Edge} (stored : g'.edges.get? e = some edge) : edge ∈ es := by
    rw [connected.get?_eq] at stored
    exact List.mem_of_getElem? stored
  constructor
  case exit =>
    rw [connected.block, Option.isSome_map]
    exact exit
  case target => exact fun e edge here => (ends edge (stored here)).2
  case source => exact fun e edge here => (ends edge (stored here)).1
  case preds =>
    intro e ⟨data', found', member⟩
    rw [connected.block, Option.map_eq_some_iff] at found'
    obtain ⟨data, -, rfl⟩ := found'
    obtain ⟨edge, here, isEntry⟩ := mem_incident.1 member
    exact (ends edge (List.mem_of_getElem? here)).2 isEntry
  case succs =>
    intro e ⟨data', found', member⟩
    rw [connected.block, Option.map_eq_some_iff] at found'
    obtain ⟨data, -, rfl⟩ := found'
    obtain ⟨edge, here, isExit⟩ := mem_incident.1 member
    exact (ends edge (List.mem_of_getElem? here)).1 isExit

/-! ## Operations -/

/-- Entry stays in front, no label is bound to it, and no edge enters it or leaves exit. -/
structure Guarded (g : Graph) : Prop where
  foremost : g.Foremost
  label : ∀ l, g.resolve l ≠ some .entry
  barred : g.Barred

namespace Guarded

theorem label_congr (guarded : g.Guarded) (labels : g'.labels = g.labels) (l : Label) :
    g'.resolve l ≠ some .entry := by
  rw [resolve, labels]
  exact guarded.label l

theorem of_fewer (guarded : g.Guarded) (foremost : g'.Foremost) (labels : g'.labels = g.labels)
    (fewer : Fewer g g') : g'.Guarded :=
  ⟨foremost, guarded.label_congr labels, guarded.barred.fewer fewer⟩

/-- Labels may be bound to any block but entry. -/
theorem relabel (guarded : g.Guarded) (same : SameBlocks Block.ways g g')
    (label : ∀ l, g'.resolve l ≠ some .entry) (edges : g'.edges = g.edges) : g'.Guarded :=
  have arrays : SameBlocks Block.arrays g g' := same.weaken Prod.snd
  ⟨guarded.foremost.of_same (same.weaken Prod.fst), label,
    guarded.barred.fewer (.of_same arrays edges)⟩

theorem of_same (guarded : g.Guarded) (same : SameBlocks Block.ways g g')
    (labels : g'.labels = g.labels) (edges : g'.edges = g.edges) : g'.Guarded :=
  guarded.relabel same (guarded.label_congr labels) edges

theorem modify (guarded : g.Guarded) (b : BlockId) {f : Block → Block}
    (unseen : ∀ data, (f data).ways = data.ways) : (g.modify b f).Guarded :=
  guarded.of_same (.modify g b unseen) rfl rfl

theorem bind (guarded : g.Guarded) {b : BlockId} {l : Label} (bound : Bound g b l g') :
    g'.Guarded := by
  have label (l' : Label) : g'.resolve l' ≠ some .entry := by
    rw [bound.resolve]
    split
    · simpa using bound.inner
    · exact guarded.label l'
  obtain ⟨-, -, data, -, rfl⟩ := bound
  exact guarded.relabel (.modify _ b fun _ => rfl) label rfl

/-! ### All operations -/

theorem change (change : Change g g') (guarded : g.Guarded) : g'.Guarded := by
  have foremost : g'.Foremost := .change change guarded.foremost
  cases change with
  | forget => exact guarded.of_same (.refl _ g) rfl rfl
  | recode b f code =>
    apply guarded.modify
    intro data
    have same := congrArg Block.ways (code data)
    exact same
  | recast e kind => exact guarded.of_fewer foremost rfl (.recast g e kind)
  | unlabel b => exact guarded.modify b fun _ => rfl
  | @relabel t l data slot led found old =>
    -- an edge leads to `t`, so it is not entry
    obtain ⟨e, edge, stored, rfl⟩ := led
    have label (l' : Label) :
        (g.labels.set l ⟨some edge.dst, data.label⟩).resolve l' ≠ some .entry := by
      rw [LabelTable.resolve, LabelTable.get?_set]
      split
      · rename_i same
        rw [same, old]
        simpa using guarded.barred.target e edge stored
      · exact guarded.label l'
    exact guarded.relabel (.modify _ _ fun _ => rfl) label rfl
  | disconnect ran =>
    have rewired := ((Rewired.disconnect_yields g _).of_eq_ok ran).1
    exact guarded.of_fewer foremost rewired.globals.labels
      ((Fewer.disconnect_yields g _).of_eq_ok ran)
  | redirect led ran =>
    obtain ⟨e, edge, stored, rfl⟩ := led
    have rewired := ((Rewired.redirect_yields g _ _).of_eq_ok ran).1
    have inner := guarded.barred.target e edge stored
    exact ⟨foremost, guarded.label_congr rewired.globals.labels,
      (guarded.barred.redirect_yields _ inner).of_eq_ok ran⟩
  | @retire _ b ran =>
    obtain ⟨data, g₁, -, -, -, -, relaid, rfl⟩ := (retire_yields_relaid g b).of_eq_ok ran
    have spent : Fewer g₁ (g₁.modify b Block.spent) := .release g₁ b fun _ => rfl
    exact guarded.of_fewer foremost relaid.labels
      (((Fewer.relaid relaid).trans spent).trans (.of_same (.refl _ _) rfl))

theorem touch (touch : Touch g g') (guarded : g.Guarded) : g'.Guarded := by
  cases touch with
  | change change => exact .change change guarded
  | mark bs marked =>
    have remarked := remarked_setMarks bs marked g
    exact guarded.of_same (remarked.block.weaken Block.ways) remarked.globals.labels remarked.edges
  | reorder order => exact guarded.of_same (.refl _ g) rfl rfl

theorem build_yields (guarded : g.Guarded) : Yields (fun _ => True) g.build Guarded := by
  apply (Graph.build_yields g).mono
  intro g' ⟨es, planned, connected⟩
  have ends := guarded.foremost.of_planned guarded.label planned
  exact ⟨guarded.foremost.of_same (.of_map connected.block fun _ _ => rfl),
    guarded.label_congr connected.globals.labels, connected.barred guarded.barred.exit ends⟩

/-- Whatever operation is carried out, with whatever handles, if it draws no edge of its own. -/
theorem effect (guarded : g.Guarded) {op : Operation} (drawn : op.draws = false)
    (effect : Effect g op g') : g'.Guarded := by
  have foremost := guarded.foremost.effect effect
  cases effect with
  | create => exact guarded.of_fewer foremost rfl (.create g)
  | append ran =>
    have relaid := relaid_of_append ran
    exact guarded.of_fewer foremost relaid.labels ((Fewer.create g).trans (.relaid relaid))
  | destroy notEntry notExit vacates =>
    have relaid := vacates.relaid
    exact guarded.of_fewer foremost relaid.labels
      ((Fewer.relaid relaid).trans (.release _ _ fun _ => rfl))
  | move moves => exact guarded.of_fewer foremost moves.relaid.labels (.relaid moves.relaid)
  | write inside writes =>
    exact guarded.of_same ((same_of_writes g writes).weaken Block.ways) rfl rfl
  | bind bound =>
    obtain rfl | bound := bound
    · exact guarded
    · exact guarded.bind bound
  | catcher l => exact guarded.of_same (.refl _ g) rfl rfl
  | wire wires =>
    cases wires with
    | disconnect ran => exact .change (.disconnect ran) guarded
    | disconnectAll => exact guarded.of_fewer foremost rfl (.disconnectAll g)
    | build ran => exact guarded.build_yields.of_eq_ok ran
    | connect | redirect => cases drawn
  | search searches => exact searches.touches.keeps Guarded touch guarded

theorem perform (guarded : g.Guarded) {op : Operation} (drawn : op.draws = false) :
    (g.perform op).Guarded :=
  perform_of_effect guarded fun _ => guarded.effect drawn

end Guarded

end

/-! ## Runs -/

theorem guarded_initial : initial.Guarded := by
  have unlisted (side : Block → List EdgeId)
      (empties : ∀ b data, initial.block? b = some data → side data = []) (b : BlockId)
      (e : EdgeId) : ¬initial.Lists side b e := by
    intro ⟨data, found, member⟩
    rw [empties b data found] at member
    cases member
  have vacant (e : EdgeId) : initial.edges.get? e = none := rfl
  have foremost : initial.Foremost := by
    have behind : ∀ b data, initial.block? b = some data → data.next ≠ some .entry := by decide
    constructor
    · exact ⟨_, rfl, rfl⟩
    · intro b link
      obtain ⟨data, found, next⟩ := exists_of_next? link
      exact behind b data found next
  have barred : initial.Barred :=
    ⟨rfl, by simp [vacant], by simp [vacant], unlisted _ (by decide) _, unlisted _ (by decide) _⟩
  exact ⟨foremost, fun l bound => (nomatch bound), barred⟩

/-- However a client builds and changes a graph, no label leads to entry, no edge enters it, and
none leaves exit. -/
theorem performAll_guarded (ops : List Operation) (drawn : ∀ op ∈ ops, op.draws = false) :
    (∀ l, (initial.performAll ops).resolve l ≠ some .entry) ∧
      (∀ e edge, (initial.performAll ops).edges.get? e = some edge →
        edge.dst ≠ .entry ∧ edge.src ≠ .exit) ∧
      (initial.performAll ops).inEdges .entry = .ok [] ∧
      (initial.performAll ops).outEdges .exit = .ok [] := by
  have run : Throughout (fun _ op => op.draws = false) initial ops :=
    throughout_of_forall (fun op member _ => drawn op member) initial
  have guarded : (initial.performAll ops).Guarded :=
    run.induction (fun _ _ drawn guarded => guarded.perform drawn) guarded_initial
  generalize initial.performAll ops = g at guarded
  have edgeless {side : Block → List EdgeId} {b : BlockId} {data : Block}
      (unlisted : ∀ e, ¬g.Lists side b e) (found : g.block? b = some data) : side data = [] :=
    List.eq_nil_iff_forall_not_mem.2 fun e member => unlisted e ⟨data, found, member⟩
  have barred := guarded.barred
  have entered : g.inEdges .entry = .ok [] := by
    obtain ⟨data, found, -⟩ := guarded.foremost.live
    rw [inEdges, block_bind found, edgeless barred.preds found]
    rfl
  have left : g.outEdges .exit = .ok [] := by
    obtain ⟨data, found⟩ := Option.isSome_iff_exists.1 barred.exit
    rw [outEdges, block_bind found, edgeless barred.succs found]
    rfl
  exact ⟨guarded.label, fun e edge stored => ⟨barred.target e edge stored,
    barred.source e edge stored⟩, entered, left⟩

/-- A run that puts code into entry and exit, binds a label to either of them and to one block after
another, moves blocks about, and merges the block a label is bound to. -/
def besieged : List Operation :=
  [.append, .append, .append, .bindLabel .entry ⟨1⟩, .bindLabel ⟨2⟩ ⟨1⟩, .bindLabel .exit ⟨2⟩,
    .bindLabel ⟨3⟩ ⟨1⟩, .push .entry (.branch .brItrue ⟨1⟩), .push .exit (.branch .br ⟨1⟩),
    .push ⟨4⟩ (.branch .br ⟨2⟩), .detach ⟨2⟩ ⟨3⟩, .attachAfter ⟨4⟩ ⟨2⟩ ⟨3⟩, .setCatcher (some ⟨1⟩),
    .push ⟨2⟩ (.plain .throw), .build, .simplify .standard, .disconnect ⟨0⟩, .build, .postorder]

theorem performAll_besieged_guarded : (∀ op ∈ besieged, op.draws = false) ∧
    (∀ l, (initial.performAll besieged).resolve l ≠ some .entry) ∧
      (∀ e edge, (initial.performAll besieged).edges.get? e = some edge →
        edge.dst ≠ .entry ∧ edge.src ≠ .exit) ∧
      (initial.performAll besieged).inEdges .entry = .ok [] ∧
      (initial.performAll besieged).outEdges .exit = .ok [] :=
  have drawn : ∀ op ∈ besieged, op.draws = false := by decide
  ⟨drawn, performAll_guarded besieged drawn⟩

end Graph

end FlowGraph
