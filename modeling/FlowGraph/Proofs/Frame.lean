import FlowGraph.Graph.Terminator
import FlowGraph.Proofs.Retirement

/-! # What operations leave alone

Whatever run of blocks is linked in or out, all that changes is status and links of blocks and the
count of live ones; whatever edge comes, goes or gets another destination, all that changes is the
pool and the arrays of blocks. This holds of any graph, however it contradicts itself, so nothing
need be known of a graph to tell what an operation on its layout or its edges has not touched. -/

namespace FlowGraph

/-- What a block holds beside its place in the layout. -/
def Block.unplaced (d : Block) : Block := { d with status := .detached, prev := none, next := none }

/-- What a block holds beside its edges. -/
def Block.unwired (d : Block) : Block := { d with succs := [], preds := [] }

namespace Graph

/-! ## New blocks -/

/-- The new block comes last in the arena. -/
theorem block?_create (g : Graph) (c : BlockId) :
    g.create.2.block? c = if c = g.create.1 then some .fresh else g.block? c := by
  obtain ⟨i⟩ := c
  simp only [create, block?, Array.getElem?_push, BlockId.mk.injEq]

theorem block?_create_self (g : Graph) : g.block? g.create.1 = none :=
  Array.getElem?_eq_none le_rfl

/-! ## Layout -/

/-- Nothing has changed but the places of blocks, and a cached postorder is the one it was. -/
structure Relaid (g g' : Graph) : Prop where
  block : SameBlocks Block.unplaced g g'
  edges : g'.edges = g.edges
  labels : g'.labels = g.labels
  retired : g'.retired = g.retired
  catcher : g'.catcher = g.catcher
  order : g'.order = none ∨ g'.order = g.order

namespace Relaid

variable {g g' g'' : Graph}

theorem refl (g : Graph) : Relaid g g := ⟨.refl _ g, rfl, rfl, rfl, rfl, .inr rfl⟩

theorem trans (first : Relaid g g') (second : Relaid g' g'') : Relaid g g'' := by
  refine ⟨first.1.trans second.1, second.2.trans first.2, second.3.trans first.3,
    second.4.trans first.4, second.5.trans first.5, ?_⟩
  obtain none' | same := second.order
  · exact .inl none'
  · rw [same]
    exact first.order

theorem modify (g : Graph) (b : BlockId) {f : Block → Block}
    (unseen : ∀ data, (f data).unplaced = data.unplaced) : Relaid g (g.modify b f) :=
  ⟨.modify g b unseen, rfl, rfl, rfl, rfl, .inr rfl⟩

theorem modifyAll (bs : List BlockId) {f : Block → Block}
    (unseen : ∀ data, (f data).unplaced = data.unplaced) :
    ∀ g : Graph, Relaid g (g.modifyAll bs f) := by
  induction bs with
  | nil => exact refl
  | cons b bs ih => exact fun g => (modify g b unseen).trans (ih (g.modify b f))

theorem setPrev_yields (relaid : Relaid g g') (b : BlockId) (prev : Option BlockId) :
    Yields (fun _ => True) (g'.update b ({ · with prev := prev })) (Relaid g) := by
  apply (update_yields g' b _).mono
  intro g'' updated
  rw [updated.2]
  exact relaid.trans (modify g' b fun _ => rfl)

theorem setNext_yields (relaid : Relaid g g') (b : BlockId) (next : Option BlockId) :
    Yields (fun _ => True) (g'.update b ({ · with next := next })) (Relaid g) := by
  apply (update_yields g' b _).mono
  intro g'' updated
  rw [updated.2]
  exact relaid.trans (modify g' b fun _ => rfl)

/-! ### Linking in -/

theorem enlist_yields (relaid : Relaid g g') (first last : BlockId) :
    Yields (fun _ => True) (g'.enlist first last) (Relaid g) := by
  refine (yields_of_forall fun _ => id).bind fun members _ => ?_
  refine require_yields.bind fun _ _ => yields_pure ?_
  obtain ⟨block, edges, labels, retired, catcher, _⟩ :=
    relaid.trans (modifyAll members (f := ({ · with status := .live })) (fun _ => rfl) g')
  exact ⟨block, edges, labels, retired, catcher, .inl rfl⟩

theorem attachAfter_yields (g : Graph) (pivot first last : BlockId) :
    Yields (fun _ => True) (g.attachAfter pivot first last) (Relaid g) := by
  refine require_yields.bind fun _ _ => ?_
  refine (block_yields g pivot).bind fun place _ => require_yields.bind fun _ _ => ?_
  refine (block_yields g first).bind fun head _ => require_yields.bind fun _ _ => ?_
  cases place.next with
  | none => exact yields_pure (refl g)
  | some next =>
    refine ((refl g).setPrev_yields first _).bind fun g₁ relaid₁ => ?_
    refine (relaid₁.setNext_yields last _).bind fun g₂ relaid₂ => ?_
    refine (relaid₂.setPrev_yields next _).bind fun g₃ relaid₃ => ?_
    refine (relaid₃.setNext_yields pivot _).bind fun g₄ relaid₄ => ?_
    exact relaid₄.enlist_yields first last

theorem attachBefore_yields (g : Graph) (pivot first last : BlockId) :
    Yields (fun _ => True) (g.attachBefore pivot first last) (Relaid g) := by
  refine require_yields.bind fun _ _ => ?_
  refine (block_yields g pivot).bind fun place _ => require_yields.bind fun _ _ => ?_
  refine (block_yields g first).bind fun head _ => require_yields.bind fun _ _ => ?_
  cases place.prev with
  | none => exact yields_pure (refl g)
  | some prev =>
    refine ((refl g).setPrev_yields first _).bind fun g₁ relaid₁ => ?_
    refine (relaid₁.setNext_yields last _).bind fun g₂ relaid₂ => ?_
    refine (relaid₂.setNext_yields prev _).bind fun g₃ relaid₃ => ?_
    refine (relaid₃.setPrev_yields pivot _).bind fun g₄ relaid₄ => ?_
    exact relaid₄.enlist_yields first last

/-! ### Linking out -/

theorem discharge_yields (relaid : Relaid g g') (first last : BlockId) :
    Yields (fun _ => True) (g'.discharge first last) (Relaid g) := by
  refine (yields_of_forall fun _ => id).bind fun members _ => ?_
  refine require_yields.bind fun _ _ => yields_pure ?_
  obtain ⟨block, edges, labels, retired, catcher, _⟩ :=
    relaid.trans (modifyAll members (f := ({ · with status := .detached })) (fun _ => rfl) g')
  exact ⟨block, edges, labels, retired, catcher, .inl rfl⟩

theorem detach_yields (g : Graph) (first last : BlockId) :
    Yields (fun _ => True) (g.detach first last) (Relaid g) := by
  refine require_yields.bind fun _ _ => ?_
  refine (block_yields g first).bind fun head _ => require_yields.bind fun _ _ => ?_
  refine (block_yields g last).bind fun tail _ => ?_
  split
  · rename_i prev next _ _
    refine ((refl g).setNext_yields prev _).bind fun g₁ relaid₁ => ?_
    refine (relaid₁.setPrev_yields next _).bind fun g₂ relaid₂ => ?_
    refine (relaid₂.setPrev_yields first _).bind fun g₃ relaid₃ => ?_
    refine (relaid₃.setNext_yields last _).bind fun g₄ relaid₄ => ?_
    exact relaid₄.discharge_yields first last
  · exact yields_pure (refl g)

end Relaid

/-- Only a live block that is not at either end can be detached by itself. -/
theorem live_of_detach {g g' : Graph} {b : BlockId} {data : Block} (ran : g.detach b b = .ok g')
    (found : g.block? b = some data) : b ≠ .entry ∧ b ≠ .exit ∧ data.status = .live := by
  obtain ⟨_, ends, ran⟩ := bind_eq_ok.1 ran
  obtain ⟨notEntry, notExit⟩ := require_eq_ok.1 ends
  rw [block_bind found] at ran
  obtain ⟨_, live, -⟩ := bind_eq_ok.1 ran
  exact ⟨notEntry, notExit, require_eq_ok.1 live⟩

/-- A block that retires has no edges, leaves its place, and then loses its code. -/
theorem retire_yields_relaid (g : Graph) (b : BlockId) :
    Yields (fun _ => True) (g.retire b) fun g' => ∃ data g₁,
      g.block? b = some data ∧ data.succs = [] ∧ data.preds = [] ∧
      g.detach b b = .ok g₁ ∧ Relaid g g₁ ∧
      g' = { g₁.modify b Block.spent with retired := g₁.retired.push b } := by
  refine (block_yields g b).bind fun data found => ?_
  refine require_yields.bind fun _ ⟨noSuccs, noPreds⟩ => ?_
  refine ((Relaid.detach_yields g b b).and_of_eq_ok fun _ => id).bind fun g₁ ⟨relaid, detached⟩ => ?_
  refine (update_yields g₁ b _).bind fun g₂ ⟨_, updated⟩ => ?_
  subst g₂
  exact yields_pure ⟨data, g₁, found, noSuccs, noPreds, detached, relaid, rfl⟩

/-! ## Edges -/

/-- Nothing has changed but edges. -/
structure Rewired (g g' : Graph) : Prop where
  block : SameBlocks Block.unwired g g'
  globals : SameGlobals g g'

namespace Rewired

variable {g g' g'' : Graph}

theorem refl (g : Graph) : Rewired g g := ⟨.refl _ g, .refl g⟩

theorem trans (first : Rewired g g') (second : Rewired g' g'') : Rewired g g'' :=
  ⟨first.block.trans second.block, first.globals.trans second.globals⟩

theorem modify (rewired : Rewired g g') (b : BlockId) {f : Block → Block}
    (unseen : ∀ data, (f data).unwired = data.unwired) : Rewired g (g'.modify b f) :=
  ⟨rewired.block.trans (.modify g' b unseen),
    rewired.globals.1, rewired.globals.2, rewired.globals.3, rewired.globals.4⟩

theorem repool (rewired : Rewired g g') (edges : EdgePool) :
    Rewired g { g' with edges := edges, order := none } :=
  ⟨rewired.block, rewired.globals.1, rewired.globals.2, rewired.globals.3, rewired.globals.4⟩

theorem setSuccs_yields (rewired : Rewired g g') (b : BlockId) (f : List EdgeId → List EdgeId) :
    Yields (fun _ => True) (g'.update b fun data => { data with succs := f data.succs }) fun g'' =>
      Rewired g g'' ∧ g''.edges = g'.edges := by
  apply (update_yields g' b _).mono
  intro g'' updated
  rw [updated.2]
  exact ⟨rewired.modify b fun _ => rfl, rfl⟩

theorem setPreds_yields (rewired : Rewired g g') (b : BlockId) (f : List EdgeId → List EdgeId) :
    Yields (fun _ => True) (g'.update b fun data => { data with preds := f data.preds }) fun g'' =>
      Rewired g g'' ∧ g''.edges = g'.edges := by
  apply (update_yields g' b _).mono
  intro g'' updated
  rw [updated.2]
  exact ⟨rewired.modify b fun _ => rfl, rfl⟩

theorem connect_yields (g : Graph) (src dst : BlockId) (kind : EdgeKind) :
    Yields (fun _ => True) (g.connect src dst kind) fun (_, g') =>
      Rewired g g' ∧ g'.order = none := by
  refine ((refl g).setSuccs_yields src (· ++ [g.edges.nextSlot])).bind fun g₁ first => ?_
  refine (first.1.setPreds_yields dst (· ++ [g.edges.nextSlot])).bind fun g₂ second => ?_
  exact yields_pure ⟨second.1.repool _, rfl⟩

theorem disconnectAll (g : Graph) : Rewired g g.disconnectAll := by
  refine ⟨.of_map (f := fun _ data => { data with succs := [], preds := [] }) (fun c => ?_)
    fun _ _ => rfl, ⟨rfl, rfl, rfl, rfl⟩⟩
  simp [block?, Graph.disconnectAll]

/-- Making edges anew, however many, forgets the cached order. -/
theorem connectAll_yields (g : Graph) (es : List Edge) :
    Yields (fun _ => True) (g.disconnectAll.connectAll es) fun g' =>
      Rewired g g' ∧ g'.order = none := by
  refine Yields.foldlM (fun _ h => Rewired g h ∧ h.order = none) ⟨.disconnectAll g, rfl⟩ ?_
  intro done edge rest h split before
  apply (Rewired.connect_yields h edge.src edge.dst edge.kind).bind
  intro result after
  exact yields_pure ⟨before.1.trans after.1, after.2⟩

theorem disconnect_yields (g : Graph) (e : EdgeId) :
    Yields (fun _ => True) (g.disconnect e) fun g' =>
      Rewired g g' ∧ g'.edges = g.edges.dealloc e := by
  unfold disconnect
  cases stored : g.edges.get? e with
  | none => exact yields_ok ⟨refl g, by rw [EdgePool.dealloc, stored]⟩
  | some edge =>
    refine ((refl g).setSuccs_yields edge.src (·.erase e)).bind fun g₁ first => ?_
    refine (first.1.setPreds_yields edge.dst (·.erase e)).bind fun g₂ second => ?_
    exact yields_pure ⟨second.1.repool _, by rw [second.2, first.2]⟩

theorem redirect_yields (g : Graph) (e : EdgeId) (t : BlockId) :
    Yields (fun _ => True) (g.redirect e t) fun g' =>
      Rewired g g' ∧ g'.edges = g.edges.modify e ({ · with dst := t }) := by
  refine (block_yields g t).bind fun _ _ => (edge_yields g e).bind fun edge _ => ?_
  refine ((refl g).setPreds_yields edge.dst (·.erase e)).bind fun g₁ ⟨rewired₁, edges₁⟩ => ?_
  rw [edges₁]
  exact (rewired₁.repool _).setPreds_yields t (· ++ [e])

end Rewired

/-- An edge that goes takes the cached order with it; if it had gone before, nothing happens. -/
theorem order_of_disconnect {g g' : Graph} {e : EdgeId} (ran : g.disconnect e = .ok g') :
    g' = g ∨ g'.order = none := by
  unfold disconnect at ran
  cases stored : g.edges.get? e with
  | none =>
    rw [stored] at ran
    cases ran
    exact .inl rfl
  | some edge =>
    simp only [stored, bind_eq_ok] at ran
    obtain ⟨_, -, _, -, ⟨⟩⟩ := ran
    exact .inr rfl

theorem order_of_redirect {g g' : Graph} {e : EdgeId} {t : BlockId}
    (ran : g.redirect e t = .ok g') : g'.order = none := by
  simp only [redirect, bind_eq_ok, update_eq_ok] at ran
  obtain ⟨_, -, _, -, _, -, -, rfl⟩ := ran
  rfl

end Graph

end FlowGraph
