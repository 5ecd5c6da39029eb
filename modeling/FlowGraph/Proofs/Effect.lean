import FlowGraph.Proofs.Binding
import FlowGraph.Proofs.Change

/-! # What operations do

However many operations there are, a graph is changed in few ways: a block comes or goes for good,
blocks move, one block is written to, a label is bound, another catcher is named, edges change, or
the graph is searched. So it is on every graph, however it contradicts itself. What each of these
ways keeps is kept by every operation, and no proof about all operations has to look at them one by
one again. -/

namespace FlowGraph

/-- What a block holds beside its code and its metadata. -/
def Block.unwritten (d : Block) : Block := { d.withoutCode with metadata := .empty }

/-- What is left of a block that is destroyed. -/
def Block.wiped (d : Block) : Block := { d.release with metadata := .empty, status := .destroyed }

/-- The operation writes to a block, and `f` is what becomes of it. -/
inductive Operation.Writes : Operation → BlockId → (Block → Block) → Prop where
  | push (b : BlockId) (i : Instr) : Writes (.push b i) b (·.push i)
  | replaceLast (b : BlockId) (i : Instr) :
      Writes (.replaceLast b i) b (·.modifyLast fun _ => i)
  | setDeadEnd (b : BlockId) (dead : Bool) :
      Writes (.setDeadEnd b dead) b ({ · with deadEnd := dead })
  | setMeta (b : BlockId) (t : MetaTag) (v : MetaValue) :
      Writes (.setMeta b t v) b fun data => { data with metadata := data.metadata.set t v }
  | eraseMeta (b : BlockId) (t : MetaTag) :
      Writes (.eraseMeta b t) b fun data => { data with metadata := data.metadata.erase t }

namespace Graph

/-! ## Ways of changing a graph -/

/-- Blocks move out of the layout, or into it. -/
inductive Moves (g : Graph) : Operation → Graph → Prop where
  | detach {first last : BlockId} {g' : Graph} (ran : g.detach first last = .ok g') :
      Moves g (.detach first last) g'
  | attachAfter {pivot first last : BlockId} {g' : Graph}
      (ran : g.attachAfter pivot first last = .ok g') : Moves g (.attachAfter pivot first last) g'
  | attachBefore {pivot first last : BlockId} {g' : Graph}
      (ran : g.attachBefore pivot first last = .ok g') : Moves g (.attachBefore pivot first last) g'

/-- A block is outside of the layout, or has left it. -/
inductive Vacates (g : Graph) (b : BlockId) : Graph → Prop where
  | outside {data : Block} (found : g.block? b = some data) (notLive : data.status ≠ .live) :
      Vacates g b g
  | detach {g' : Graph} (ran : g.detach b b = .ok g') : Vacates g b g'

/-- Edges come or go, or lead elsewhere. -/
inductive Wires (g : Graph) : Operation → Graph → Prop where
  | connect {src dst : BlockId} {kind : EdgeKind} {e : EdgeId} {g' : Graph}
      (ran : g.connect src dst kind = .ok (e, g')) : Wires g (.connect src dst kind) g'
  | redirect {e : EdgeId} {dst : BlockId} {g' : Graph} (ran : g.redirect e dst = .ok g') :
      Wires g (.redirect e dst) g'
  | disconnect {e : EdgeId} {g' : Graph} (ran : g.disconnect e = .ok g') :
      Wires g (.disconnect e) g'
  | disconnectAll : Wires g .disconnectAll g.disconnectAll
  | build {g' : Graph} (ran : g.build = .ok g') : Wires g .build g'

/-- The graph is searched, and may be simplified on the way. -/
inductive Searches (g : Graph) : Operation → Graph → Prop where
  | postorder {order : List BlockId} {g' : Graph} (ran : g.postorder = .ok (order, g')) :
      Searches g .postorder g'
  | simplify {s : Settings} {report : Report} {g' : Graph}
      (ran : g.simplify s = .ok (report, g')) : Searches g (.simplify s) g'

/-- What comes of an operation that is carried out. -/
inductive Effect (g : Graph) : Operation → Graph → Prop where
  | create : Effect g .create g.create.2
  | append {b : BlockId} {g' : Graph} (ran : g.append = .ok (b, g')) : Effect g .append g'
  | destroy {b : BlockId} {g₁ : Graph} (notEntry : b ≠ .entry) (notExit : b ≠ .exit)
      (vacates : Vacates g b g₁) : Effect g (.destroy b) (g₁.modify b Block.wiped)
  | move {op : Operation} {g' : Graph} (moves : Moves g op g') : Effect g op g'
  | write {op : Operation} {b : BlockId} {f : Block → Block} (inside : (g.block? b).isSome)
      (writes : op.Writes b f) : Effect g op (g.modify b f)
  | bind {b : BlockId} {l : Label} {g' : Graph} (bound : g' = g ∨ Bound g b l g') :
      Effect g (.bindLabel b l) g'
  | catcher (l : Option Label) : Effect g (.setCatcher l) { g with catcher := l }
  | wire {op : Operation} {g' : Graph} (wires : Wires g op g') : Effect g op g'
  | search {op : Operation} {g' : Graph} (searches : Searches g op g') : Effect g op g'

section

variable {g g' g₁ : Graph} {op : Operation} {b : BlockId} {f : Block → Block}

/-! ## What stays the same -/

theorem same_of_writes (g : Graph) (writes : op.Writes b f) :
    SameBlocks Block.unwritten g (g.modify b f) := by
  refine .modify g b fun data => ?_
  cases writes with
  | replaceLast =>
    exact congrArg (fun d : Block => { d with metadata := .empty }) (data.withoutCode_modifyLast _)
  | push | setDeadEnd | setMeta | eraseMeta => rfl

theorem attached_of_append (ran : g.append = .ok (b, g')) :
    g.create.2.attachBefore .exit g.create.1 g.create.1 = .ok g' := by
  obtain ⟨_, attached, ⟨⟩⟩ := bind_eq_ok.1 ran
  exact attached

/-- The new block is linked in; nothing else happens to it. -/
theorem relaid_of_append (ran : g.append = .ok (b, g')) : Relaid g.create.2 g' :=
  (Relaid.attachBefore_yields g.create.2 _ _ _).of_eq_ok (attached_of_append ran)

theorem Moves.relaid (moves : Moves g op g') : Relaid g g' := by
  cases moves with
  | detach ran => exact (Relaid.detach_yields g _ _).of_eq_ok ran
  | attachAfter ran => exact (Relaid.attachAfter_yields g _ _ _).of_eq_ok ran
  | attachBefore ran => exact (Relaid.attachBefore_yields g _ _ _).of_eq_ok ran

theorem Vacates.relaid (vacates : Vacates g b g₁) : Relaid g g₁ := by
  cases vacates with
  | outside found notLive => exact .refl g
  | detach ran => exact (Relaid.detach_yields g b b).of_eq_ok ran

/-- Unless nothing has changed at all, a cached order is forgotten. -/
theorem Wires.rewired (wires : Wires g op g') : Rewired g g' ∧ (g' = g ∨ g'.order = none) := by
  cases wires with
  | connect ran =>
    obtain ⟨rewired, order⟩ := (Rewired.connect_yields g _ _ _).of_eq_ok ran
    exact ⟨rewired, .inr order⟩
  | redirect ran =>
    exact ⟨((Rewired.redirect_yields g _ _).of_eq_ok ran).1, .inr (order_of_redirect ran)⟩
  | disconnect ran =>
    exact ⟨((Rewired.disconnect_yields g _).of_eq_ok ran).1, order_of_disconnect ran⟩
  | disconnectAll => exact ⟨.disconnectAll g, .inr rfl⟩
  | build ran =>
    obtain ⟨es, -, ran⟩ := bind_eq_ok.1 ran
    obtain ⟨rewired, order⟩ := (Rewired.connectAll_yields g es).of_eq_ok ran
    exact ⟨rewired, .inr order⟩

theorem Searches.touches (searches : Searches g op g') : Touches g g' := by
  cases searches with
  | postorder ran => exact (postorder_touches g).of_eq_ok ran
  | simplify ran => exact (simplify_touches g _).of_eq_ok ran

/-- The marks that a search sets are cleared before it ends. -/
theorem Searches.clear (searches : Searches g op g') (clear : g.Clear) : g'.Clear := by
  cases searches with
  | postorder ran => exact (postorder_clears clear).of_eq_ok ran
  | simplify ran => exact (simplify_clears clear).of_eq_ok ran

/-! ## Operations -/

theorem Effect.of_apply (ran : op.apply g = .ok g') : Effect g op g' := by
  cases op with
  | create =>
    cases ran
    exact .create
  | append =>
    obtain ⟨⟨b, _⟩, appended, rfl⟩ := map_eq_ok.1 ran
    exact .append appended
  | destroy b =>
    obtain ⟨_, ends, steps⟩ := bind_eq_ok.1 ran
    obtain ⟨notEntry, notExit⟩ := require_eq_ok.1 ends
    obtain ⟨data, found, steps⟩ := bind_eq_ok.1 steps
    dsimp only at steps
    split at steps
    · obtain ⟨g₁, left, wiped⟩ := bind_eq_ok.1 steps
      obtain ⟨-, rfl⟩ := update_eq_ok.1 wiped
      exact .destroy notEntry notExit (.detach left)
    · rename_i notLive
      obtain ⟨-, rfl⟩ := update_eq_ok.1 steps
      have notLive : data.status ≠ .live := by simpa [Block.isLive] using notLive
      exact .destroy notEntry notExit (.outside (block_eq_ok.1 found) notLive)
  | detach first last => exact .move (.detach ran)
  | attachAfter pivot first last => exact .move (.attachAfter ran)
  | attachBefore pivot first last => exact .move (.attachBefore ran)
  | push b i =>
    obtain ⟨inside, rfl⟩ := update_eq_ok.1 ran
    exact .write inside (.push b i)
  | replaceLast b i =>
    obtain ⟨inside, rfl⟩ := update_eq_ok.1 ran
    exact .write inside (.replaceLast b i)
  | setDeadEnd b dead =>
    obtain ⟨inside, rfl⟩ := update_eq_ok.1 ran
    exact .write inside (.setDeadEnd b dead)
  | bindLabel b l => exact .bind ((bindLabel_yields g b l).of_eq_ok ran)
  | setCatcher l =>
    cases ran
    exact .catcher l
  | setMeta b t v =>
    obtain ⟨inside, rfl⟩ := update_eq_ok.1 ran
    exact .write inside (.setMeta b t v)
  | eraseMeta b t =>
    obtain ⟨inside, rfl⟩ := update_eq_ok.1 ran
    exact .write inside (.eraseMeta b t)
  | connect src dst kind =>
    obtain ⟨⟨e, _⟩, connected, rfl⟩ := map_eq_ok.1 ran
    exact .wire (.connect connected)
  | redirect e dst => exact .wire (.redirect ran)
  | disconnect e => exact .wire (.disconnect ran)
  | disconnectAll =>
    cases ran
    exact .wire .disconnectAll
  | build => exact .wire (.build ran)
  | postorder =>
    obtain ⟨⟨order, _⟩, searched, rfl⟩ := map_eq_ok.1 ran
    exact .search (.postorder searched)
  | simplify s =>
    obtain ⟨⟨report, _⟩, simplified, rfl⟩ := map_eq_ok.1 ran
    exact .search (.simplify simplified)

/-- An operation that fails changes nothing, so what its effect keeps is kept in any case. -/
theorem perform_of_effect {inv : Graph → Prop} (holds : inv g)
    (step : ∀ g', Effect g op g' → inv g') : inv (g.perform op) :=
  perform_of_yields holds (yields_of_forall fun g' ran => step g' (.of_apply ran))

/-! ## Marks -/

theorem Clear.create (clear : g.Clear) : g.create.2.Clear := by
  intro b data found
  rw [block?_create] at found
  split at found
  · cases found
    rfl
  · exact clear b data found

theorem Clear.relaid (clear : g.Clear) (relaid : Relaid g g') : g'.Clear :=
  clear.of_same (relaid.block.weaken Block.marked)

/-- Between operations no block is marked. -/
theorem Clear.effect (clear : g.Clear) (effect : Effect g op g') : g'.Clear := by
  cases effect with
  | create => exact clear.create
  | append ran => exact clear.create.relaid (relaid_of_append ran)
  | destroy notEntry notExit vacates =>
    exact (clear.relaid vacates.relaid).of_same (.modify _ _ fun _ => rfl)
  | move moves => exact clear.relaid moves.relaid
  | write inside writes => exact clear.of_same ((same_of_writes g writes).weaken Block.marked)
  | bind bound =>
    obtain rfl | ⟨-, -, data, -, rfl⟩ := bound
    · exact clear
    · exact clear.of_same (.modify _ _ fun _ => rfl)
  | catcher l => exact clear
  | wire wires => exact clear.of_same (wires.rewired.1.block.weaken Block.marked)
  | search searches => exact searches.clear clear

end

end Graph

end FlowGraph
