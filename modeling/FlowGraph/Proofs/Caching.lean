import FlowGraph.Proofs.Quiet

/-! # A cached postorder is never stale

A graph keeps the postorder it computed last through changes of code, labels and metadata, through new
blocks, and past the end of a simplification that may have dropped blocks since it searched. Every
other operation gives the order up. So whenever there is one, a search would give it again: each
operation either keeps no order or leaves alone all that a search would read. -/

namespace FlowGraph.Graph

section

variable {g g' g'' : Graph}

/-! ## What keeps an order valid -/

/-- If an order is kept, it is the one there was, and nothing has changed that a search reads. -/
def Upholds (g g' : Graph) : Prop :=
  g'.order = none ∨ g'.order = g.order ∧ ∀ bs, SameWays bs g g'

namespace Upholds

theorem of_same (same : SameBlocks Block.succs g g') (edges : g'.edges = g.edges)
    (order : g'.order = none ∨ g'.order = g.order) : Upholds g g' :=
  order.imp_right fun kept => ⟨kept, fun _ => .of_same same edges⟩

theorem refl (g : Graph) : Upholds g g := .of_same (.refl _ g) rfl (.inr rfl)

theorem trans (first : Upholds g g') (second : Upholds g' g'') : Upholds g g'' := by
  obtain none'' | ⟨same', ways'⟩ := second
  · exact .inl none''
  obtain none' | ⟨same, ways⟩ := first
  · exact .inl (same'.trans none')
  · exact .inr ⟨same'.trans same, fun bs => (ways bs).trans (ways' bs)⟩

theorem relaid (relaid : Relaid g g') : Upholds g g' :=
  .of_same (relaid.block.weaken Block.succs) relaid.edges relaid.order

theorem create (g : Graph) : Upholds g g.create.2 := by
  refine .inr ⟨rfl, fun bs b _ data found => ?_⟩
  have old : b ≠ g.create.1 := by
    rintro rfl
    rw [block?_create_self] at found
    cases found
  exact ⟨data, by rw [block?_create, if_neg old, found], rfl, fun e _ => rfl⟩

end Upholds

/-! ## Graphs that keep an order -/

/-- If an order is kept, a search gives it. -/
structure Tracked (g : Graph) : Prop where
  accounted : g.Accounted
  clear : g.Clear
  current : ∀ order, g.order = some order → g.reached = .ok order

theorem Tracked.upheld (tracked : g.Tracked) (accounted' : g'.Accounted) (clear' : g'.Clear)
    (upholds : Upholds g g') : g'.Tracked := by
  refine ⟨accounted', clear', fun order kept => ?_⟩
  obtain none' | ⟨same, ways⟩ := upholds
  · rw [none'] at kept
    cases kept
  · rw [same] at kept
    exact reached_of_sameWays accounted'.matched tracked.clear clear' (tracked.current order kept)
      (ways order)

theorem Accounted.reorder (accounted : g.Accounted) (order : Option (List BlockId)) :
    ({ g with order := order } : Graph).Accounted :=
  accounted.of_same (.refl _ g) rfl

/-- An order is kept once a search would give it. -/
theorem Tracked.cache {order : List BlockId} (accounted : g.Accounted) (clear : g.Clear)
    (reached : g.reached = .ok order) : ({ g with order := some order } : Graph).Tracked := by
  refine ⟨accounted.reorder _, clear, fun order' kept => ?_⟩
  cases kept
  exact reached_reorder accounted.matched clear reached _

theorem postorder_eq_ok {order : List BlockId} : g.postorder = .ok (order, g') ↔
    g.reached = .ok order ∧ g' =
      { ({ g.setMarks order true with order := none } : Graph).setMarks order false with
        order := some order } := by
  simp only [postorder, markReached, bind_eq_ok]
  constructor
  · rintro ⟨⟨_, _⟩, ⟨_, reached, ⟨⟩⟩, ⟨⟩⟩
    exact ⟨reached, rfl⟩
  · rintro ⟨reached, rfl⟩
    exact ⟨_, ⟨order, reached, rfl⟩, rfl⟩

theorem Tracked.postorder_yields (tracked : g.Tracked) :
    Yields (fun _ => True) g.postorder fun (_, g') => g'.Tracked := by
  apply yields_of_forall
  intro (order, g') ran
  have clear' := (postorder_clears tracked.clear).of_eq_ok ran
  obtain ⟨reached, rfl⟩ := postorder_eq_ok.1 ran
  have marked := remarked_setMarks order true g
  have cleared := remarked_setMarks order false { g.setMarks order true with order := none }
  have same : SameBlocks Block.unmark g
      (({ g.setMarks order true with order := none } : Graph).setMarks order false) :=
    marked.block.trans cleared.block
  have edges := cleared.edges.trans marked.edges
  have accounted' := tracked.accounted.of_same (same.weaken Block.arrays) edges
  exact .cache accounted' clear' (reached_of_sameWays accounted'.matched tracked.clear clear' reached
    (.of_same (same.weaken Block.succs) edges))

theorem accounted_carries {s : Settings} : Carries (fun _ => True) s fun _ => Accounted :=
  .of_touch Accounted.touch

theorem Tracked.simplify_yields (tracked : g.Tracked) (s : Settings) :
    Yields (fun _ => True) (g.simplify s) fun (_, g') => g'.Tracked := by
  have keeps (h : Graph) (order : List BlockId) (round : Round) (h' : Graph)
      (holds : h.Accounted ∧ h.Clear) (ran : h.simplifyRound s = .ok (order, round, h')) :
      h'.Accounted ∧ h'.Clear :=
    ⟨(accounted_carries.simplifyRound_yields (n := 0) holds.1).of_eq_ok ran,
      (clear_carries.simplifyRound_yields (n := 0) holds.2).of_eq_ok ran⟩
  apply (simplifyFrom_ended keeps _ [] g ⟨tracked.accounted, tracked.clear⟩).mono
  intro (report, g') ended
  obtain ⟨h, order, round, h', ⟨accounted, clear⟩, ran, -, last⟩ := ended.last
  obtain ⟨accounted', clear'⟩ := keeps h order round h' ⟨accounted, clear⟩ ran
  split at last
  · -- the limit was met, and there is no order
    obtain ⟨rfl, -⟩ := last
    refine ⟨accounted', clear', fun order' kept => ?_⟩
    rw [order_simplifyRound ran] at kept
    cases kept
  · rename_i quiet
    subst last
    exact .cache accounted' clear' (reached_of_quiet ran (by simpa using quiet) accounted.matched clear
      accounted'.matched clear')

theorem Tracked.effect (tracked : g.Tracked) {op : Operation} (spares : g.SparesEdges op)
    (effect : Effect g op g') : g'.Tracked := by
  have upheld := tracked.upheld (tracked.accounted.effect spares effect) (tracked.clear.effect effect)
  cases effect with
  | create => exact upheld (.create g)
  | append ran => exact upheld ((Upholds.create g).trans (.relaid (relaid_of_append ran)))
  | destroy notEntry notExit vacates =>
    apply upheld
    -- the array that is given up was empty
    have arrays := (spares.relaid vacates.relaid).arrays_modify (f := Block.wiped) fun _ => rfl
    exact (Upholds.relaid vacates.relaid).trans (.of_same (arrays.weaken Prod.fst) rfl (.inr rfl))
  | move moves => exact upheld (.relaid moves.relaid)
  | write inside writes =>
    exact upheld (.of_same ((same_of_writes g writes).weaken Block.succs) rfl (.inr rfl))
  | bind bound =>
    apply upheld
    obtain rfl | ⟨-, -, data, -, rfl⟩ := bound
    · exact .refl _
    · exact .of_same (.modify _ _ fun _ => rfl) rfl (.inr rfl)
  | catcher l => exact upheld (.of_same (.refl _ g) rfl (.inr rfl))
  | wire wires =>
    apply upheld
    obtain rfl | forgotten := wires.rewired.2
    · exact .refl _
    · exact .inl forgotten
  | search searches =>
    cases searches with
    | postorder ran => exact tracked.postorder_yields.of_eq_ok ran
    | simplify ran => exact (tracked.simplify_yields _).of_eq_ok ran

theorem Tracked.perform (tracked : g.Tracked) {op : Operation} (spares : g.SparesEdges op) :
    (g.perform op).Tracked :=
  perform_of_effect tracked fun _ => tracked.effect spares

end

theorem tracked_initial : initial.Tracked := by
  have clear : initial.Clear := by
    unfold Clear
    decide
  exact ⟨accounted_initial, clear, nofun⟩

/-- Whatever a client does, short of destroying blocks that have edges, a postorder that the graph
keeps is the one that a search gives. -/
theorem cached_order_current (ops : List Operation) (spares : Throughout SparesEdges initial ops)
    {order : List BlockId} (cached : (initial.performAll ops).order = some order) :
    ∃ g', (initial.performAll ops).postorder = .ok (order, g') :=
  have tracked : (initial.performAll ops).Tracked :=
    spares.induction (fun _ _ spares tracked => tracked.perform spares) tracked_initial
  ⟨_, postorder_eq_ok.2 ⟨tracked.current order cached, rfl⟩⟩

/-- Block 3 is dropped in the round whose order is kept; then a block comes and code changes. -/
def weathered : List Operation :=
  [.append, .append, .push ⟨2⟩ (.plain .ret), .build, .simplify .standard, .create,
    .push ⟨2⟩ (.plain .nop)]

theorem cached_order_weathered : Throughout SparesEdges initial weathered ∧
    (initial.performAll weathered).order = some [.exit, ⟨2⟩, .entry] ∧
    ∃ g', (initial.performAll weathered).postorder = .ok ([.exit, ⟨2⟩, .entry], g') := by
  have spares : Throughout SparesEdges initial weathered := by decide +kernel
  have cached : (initial.performAll weathered).order = some [.exit, ⟨2⟩, .entry] := by
    decide +kernel
  exact ⟨spares, cached, cached_order_current weathered spares cached⟩

end FlowGraph.Graph
