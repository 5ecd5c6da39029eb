import FlowGraph.Proofs.Agreement

/-! # Building the edges of a graph

Building replaces the edges of a graph by those that its blocks call for, in the order of the
layout. The pool then holds exactly these edges, slot after slot, and the arrays of a block list its
own in the same order. So a graph just built agrees with its instructions, and building a graph that
agrees gives every block the arrows it had. -/

namespace FlowGraph

/-- Handles of the edges that have `b` at one end, if the edges are numbered in order. -/
def incident (es : List Edge) (side : Edge → BlockId) (b : BlockId) : List EdgeId :=
  es.zipIdx.filterMap fun (edge, i) => if side edge = b then some ⟨i⟩ else none

theorem incident_append (es : List Edge) (edge : Edge) (side : Edge → BlockId) (b : BlockId) :
    incident (es ++ [edge]) side b =
      incident es side b ++ if side edge = b then [⟨es.length⟩] else [] := by
  simp only [incident, List.zipIdx_append, List.filterMap_append, List.zipIdx_singleton]
  by_cases here : side edge = b <;> simp [here]

namespace Graph

/-! ## Connecting -/

/-- The graph has exactly the edges `es`, numbered in order, and is otherwise the same. -/
structure Connected (es : List Edge) (g g' : Graph) : Prop where
  block : ∀ c, g'.block? c = (g.block? c).map fun data =>
    { data with succs := incident es Edge.src c, preds := incident es Edge.dst c }
  edges : g'.edges = ⟨(es.map some).toArray, []⟩
  globals : SameGlobals g g'

namespace Connected

variable {es : List Edge} {g g' : Graph}

theorem get?_eq (connected : Connected es g g') (e : EdgeId) : g'.edges.get? e = es[e.index]? := by
  rw [connected.edges, EdgePool.get?]
  cases stored : es[e.index]? <;> simp [stored]

theorem arrows_eq (connected : Connected es g g') (c : BlockId) :
    g'.arrows (incident es Edge.src c) = (es.filter (·.src = c)).map Edge.arrow := by
  -- a handle that is listed stands for the edge at its place
  have stored : ∀ p ∈ es.zipIdx, (if p.1.src = c then some (⟨p.2⟩ : EdgeId) else none).bind
      (fun e => (g'.edges.get? e).map Edge.arrow) =
        if p.1.src = c then some p.1.arrow else none := by
    intro p member
    have here := List.mem_zipIdx_iff_getElem?.1 member
    split
    · simp [connected.get?_eq, here]
    · rfl
  have first : es.zipIdx.filterMap (fun p => if p.1.src = c then some p.1.arrow else none) =
      (es.zipIdx.map Prod.fst).filterMap fun edge => if edge.src = c then some edge.arrow else none := by
    rw [List.filterMap_map]
    rfl
  rw [arrows, incident, List.filterMap_filterMap, List.filterMap_congr stored, first,
    List.zipIdx_map_fst, ← List.filterMap_eq_map, List.filterMap_filter]
  apply List.filterMap_congr
  intro edge _
  by_cases here : edge.src = c <;> simp [here]

theorem isSome_edge (connected : Connected es g g') {c : BlockId}
    {data : Block} (found : g'.block? c = some data) {e : EdgeId} (member : e ∈ data.succs) :
    (g'.edges.get? e).isSome := by
  rw [connected.block, Option.map_eq_some_iff] at found
  obtain ⟨_, -, rfl⟩ := found
  obtain ⟨⟨edge, i⟩, inside, here⟩ := List.mem_filterMap.1 member
  rw [connected.get?_eq]
  simp only at here
  by_cases source : edge.src = c
  · rw [if_pos source] at here
    cases here
    exact Option.isSome_of_eq_some (List.mem_zipIdx_iff_getElem?.1 inside)
  · rw [if_neg source] at here
    cases here

end Connected

theorem connect_yields {allowed : Fault → Prop} {es : List Edge} {g h : Graph} {edge : Edge}
    (connected : Connected es g h) (src : (g.block? edge.src).isSome)
    (dst : (g.block? edge.dst).isSome) : Yields allowed (h.connect edge.src edge.dst edge.kind)
      fun (_, g') => Connected (es ++ [edge]) g g' := by
  have slot : h.edges.nextSlot = ⟨es.length⟩ := by
    rw [connected.edges, EdgePool.nextSlot]
    simp
  have inside {c : BlockId} (found : (g.block? c).isSome) : (h.block? c).isSome := by
    rw [connected.block, Option.isSome_map]
    exact found
  rw [connect, update_bind (inside src), update_bind (by simpa using inside dst)]
  refine yields_pure ⟨fun c => ?_, ?_, connected.globals.1, connected.globals.2,
    connected.globals.3, connected.globals.4⟩
  · change ((h.modify _ _).modify _ _).block? c = _
    rw [block?_modify_eq_map, block?_modify_eq_map, connected.block, Option.map_map, Option.map_map]
    congr 1
    funext data
    simp only [Function.comp_apply, incident_append, slot, eq_comm (b := c)]
    split <;> split <;> simp
  · change h.edges.insert edge = _
    rw [connected.edges]
    simp [EdgePool.insert]

/-- The edges that are added take the places behind those there are. -/
theorem Connected.connectAll_yields {allowed : Fault → Prop} {before es : List Edge} {g h : Graph}
    (connected : Connected before g h)
    (inside : ∀ edge ∈ es, (g.block? edge.src).isSome ∧ (g.block? edge.dst).isSome) :
    Yields allowed (h.connectAll es) (Connected (before ++ es) g) := by
  have start : Connected (before ++ []) g h := by
    rw [List.append_nil]
    exact connected
  refine Yields.foldlM (fun done h => Connected (before ++ done) g h) start ?_
  intro done edge rest h split connected
  obtain ⟨src, dst⟩ := inside edge (by simp [split])
  apply (connect_yields connected src dst).bind
  intro result connected
  rw [List.append_assoc] at connected
  exact yields_pure connected

theorem connected_disconnectAll (g : Graph) : Connected [] g g.disconnectAll := by
  constructor
  case block =>
    intro c
    simp [block?, disconnectAll, incident]
  case edges => rfl
  case globals => constructor <;> rfl

theorem connectAll_yields {allowed : Fault → Prop} {es : List Edge} {g : Graph}
    (inside : ∀ edge ∈ es, (g.block? edge.src).isSome ∧ (g.block? edge.dst).isSome) :
    Yields allowed (g.disconnectAll.connectAll es) (Connected es g) :=
  (connected_disconnectAll g).connectAll_yields inside

/-! ## The edges that are planned -/

/-- The arrows that leave `b` by its instructions; none if they cannot be worked out. -/
def due (g : Graph) (b : BlockId) : List (BlockId × EdgeKind) :=
  match g.outgoing b with
  | .ok out => out
  | .error _ => []

def edgesFrom (b : BlockId) (out : List (BlockId × EdgeKind)) : List Edge :=
  out.map fun (dst, kind) => ⟨b, dst, kind⟩

section

variable {g g' : Graph} {es : List Edge} {bs xs : List BlockId} {b : BlockId}

theorem outgoing_eq_ok_iff {out : List (BlockId × EdgeKind)} :
    g.outgoing b = .ok out ↔ g.outgoing b = .ok (g.due b) ∧ out = g.due b := by
  unfold due
  cases g.outgoing b <;> simp [eq_comm]

/-- The instructions of `b` call for arrows, and all of them end in the arena. -/
def Plannable (g : Graph) (b : BlockId) : Prop :=
  g.outgoing b = .ok (g.due b) ∧ ∀ a ∈ g.due b, (g.block? a.1).isSome

theorem plannedFrom_eq_ok :
    g.plannedFrom b = .ok es ↔ g.Plannable b ∧ es = edgesFrom b (g.due b) := by
  have single (a : BlockId × EdgeKind) (edge : Edge) :
      (do let _ ← g.block a.1; return (⟨b, a.1, a.2⟩ : Edge)) = Except.ok edge ↔
        (g.block? a.1).isSome ∧ edge = ⟨b, a.1, a.2⟩ := by
    simp only [bind_eq_ok, block_eq_ok, exists_and_right, Option.isSome_iff_exists, pure,
      Except.pure, Except.ok.injEq, eq_comm (a := edge)]
  simp only [plannedFrom, bind_eq_ok, mapM_eq_ok, single, forall₂_and_eq]
  constructor
  · rintro ⟨out, called, inside, rfl⟩
    obtain ⟨called, rfl⟩ := outgoing_eq_ok_iff.1 called
    exact ⟨⟨called, inside⟩, rfl⟩
  · rintro ⟨⟨called, inside⟩, rfl⟩
    exact ⟨_, called, inside, rfl⟩

theorem planned_eq_ok (body : g.body = ⟨bs, none⟩) : g.planned = .ok es ↔
    (∀ b ∈ bs, g.Plannable b) ∧ es = bs.flatMap fun b => edgesFrom b (g.due b) := by
  simp only [planned, body, bind_eq_ok, mapM_eq_ok, plannedFrom_eq_ok, forall₂_and_eq, Trail.finish,
    pure, Except.pure, Except.ok.injEq, exists_eq_left', List.flatMap_def]
  constructor
  · rintro ⟨_, ⟨plannable, rfl⟩, rfl⟩
    exact ⟨plannable, rfl⟩
  · rintro ⟨plannable, rfl⟩
    exact ⟨_, ⟨plannable, rfl⟩, rfl⟩

theorem Plannable.inside (plannable : g.Plannable b) :
    ∀ edge ∈ edgesFrom b (g.due b), (g.block? edge.src).isSome ∧ (g.block? edge.dst).isSome := by
  intro edge member
  obtain ⟨called, inside⟩ := plannable
  obtain ⟨a, inOut, rfl⟩ := List.mem_map.1 member
  refine ⟨?_, inside a inOut⟩
  obtain ⟨data, found, -⟩ := bind_eq_ok.1 called
  exact Option.isSome_of_eq_some (block_eq_ok.1 found)

theorem inside_of_planned (planned : g.planned = .ok es) :
    ∀ edge ∈ es, (g.block? edge.src).isSome ∧ (g.block? edge.dst).isSome := by
  intro edge member
  simp only [Graph.planned, bind_eq_ok, mapM_eq_ok] at planned
  obtain ⟨ess, each, _, _, same⟩ := planned
  cases same
  obtain ⟨es, inEss, member⟩ := List.mem_flatten.1 member
  obtain ⟨b, -, plannedFrom⟩ := exists_of_forall₂ each inEss
  obtain ⟨plannable, rfl⟩ := plannedFrom_eq_ok.1 plannedFrom
  exact plannable.inside edge member

theorem filter_edgesFrom (f : BlockId → List (BlockId × EdgeKind)) (c : BlockId) :
    ∀ bs : List BlockId, bs.Nodup → (bs.flatMap fun b => edgesFrom b (f b)).filter (·.src = c) =
      if c ∈ bs then edgesFrom c (f c) else [] := by
  have own (b : BlockId) : (edgesFrom b (f b)).filter (·.src = c) =
      if b = c then edgesFrom c (f c) else [] := by
    by_cases here : b = c
    · subst b
      rw [if_pos rfl, List.filter_eq_self]
      intro edge member
      obtain ⟨a, -, rfl⟩ := List.mem_map.1 member
      simp
    · rw [if_neg here, List.filter_eq_nil_iff]
      intro edge member
      obtain ⟨a, -, rfl⟩ := List.mem_map.1 member
      simpa using here
  intro bs
  induction bs with
  | nil => simp
  | cons b bs ih =>
    intro distinct
    obtain ⟨fresh, distinct⟩ := List.nodup_cons.1 distinct
    rw [List.flatMap_cons, List.filter_append, own, ih distinct]
    by_cases here : b = c
    · subst b
      simp [fresh]
    · have apart : c ≠ b := fun same => here same.symm
      simp [here, apart]

theorem arrow_edgesFrom (c : BlockId) (out : List (BlockId × EdgeKind)) :
    (edgesFrom c out).map Edge.arrow = out := by
  rw [edgesFrom, List.map_map]
  exact List.map_id _

/-! ## What a build gives -/

/-- The blocks of the body get the arrows due to them, and no other block gets any. -/
theorem Connected.view_due (distinct : bs.Nodup)
    (connected : Connected (bs.flatMap fun b => edgesFrom b (g.due b)) g g') (c : BlockId) :
    g'.view c = (g.block? c).map fun data =>
      ⟨data.instrs, data.label, data.deadEnd, if c ∈ bs then g.due c else []⟩ := by
  rw [view, connected.block, Option.map_map]
  congr 1
  funext data
  simp only [Function.comp_apply, look, connected.arrows_eq, filter_edgesFrom g.due c bs distinct]
  congr 1
  split
  · exact arrow_edgesFrom c _
  · rfl

theorem Connected.outgoing_eq (connected : Connected es g g') (c : BlockId) :
    g'.outgoing c = g.outgoing c := by
  have resolve := resolve_congr connected.globals.labels
  cases found : g.block? c with
  | none =>
    have found' : g'.block? c = none := by rw [connected.block, found, Option.map_none]
    simp only [outgoing, Graph.block, found, found']
    rfl
  | some data =>
    have found' := connected.block c
    rw [found, Option.map_some] at found'
    rw [outgoing_of_block found, outgoing_of_block found']
    simp only [Block.last?, fallthrough, calls_congr resolve connected.globals.catcher]

theorem build_yields (g : Graph) : Yields (fun _ => True) g.build fun g' =>
    ∃ es, g.planned = .ok es ∧ Connected es g g' := by
  refine (yields_of_forall fun _ => id).bind fun es planned => ?_
  exact (connectAll_yields (inside_of_planned planned)).mono fun g' connected =>
    ⟨es, planned, connected⟩

/-- A graph just built agrees with its instructions, and its edges start in the layout. -/
theorem build_inv (built : g.build = .ok g') (laid : g'.LaidOut xs) :
    g'.Agrees xs ∧ (∀ e edge, g'.edges.get? e = some edge → edge.src ∈ xs) ∧
      g'.edges.free = [] := by
  obtain ⟨es, planned, connected⟩ := (build_yields g).of_eq_ok built
  -- building leaves the layout alone, so the plan was made along the same blocks
  have laid₀ : g.LaidOut xs := laid.congr (SameBlocks.symm (.of_map connected.block fun _ _ => rfl))
  obtain ⟨plannable, rfl⟩ := (planned_eq_ok laid₀.body_eq).1 planned
  have distinct : xs.dropLast.Nodup := laid.nodup.sublist (List.dropLast_sublist xs)
  refine ⟨agrees_iff.2 fun b member inner v seen => ?_, fun e edge stored => ?_, ?_⟩
  · have inBody : b ∈ xs.dropLast := laid.mem_dropLast.2 ⟨member, inner⟩
    rw [connected.view_due distinct] at seen
    obtain ⟨data, -, rfl⟩ := Option.map_eq_some_iff.1 seen
    rw [connected.outgoing_eq, (plannable b inBody).1, if_pos inBody]
  · rw [connected.get?_eq] at stored
    obtain ⟨b, inBody, member⟩ := List.mem_flatMap.1 (List.mem_of_getElem? stored)
    obtain ⟨a, -, rfl⟩ := List.mem_map.1 member
    exact (laid.mem_dropLast.1 inBody).1
  · rw [connected.edges]

/-- A coherent graph that agrees can be built, which changes neither its layout nor any arrow. -/
theorem build_of_agrees (coherent : g.Coherent xs) (agrees : g.Agrees xs) :
    ∃ g', g.build = .ok g' ∧ g'.LaidOut xs ∧ ∀ c, g'.successors c = g.successors c := by
  have laid := coherent.laid
  have distinct : xs.dropLast.Nodup := laid.nodup.sublist (List.dropLast_sublist xs)
  have due {b : BlockId} (inBody : b ∈ xs.dropLast) {v : View} (seen : g.view b = some v) :
      g.outgoing b = .ok v.arrows ∧ g.due b = v.arrows := by
    obtain ⟨member, inner⟩ := laid.mem_dropLast.1 inBody
    have called := agrees_iff.1 agrees b member inner v seen
    exact ⟨called, by rw [Graph.due, called]⟩
  have plannable : ∀ b ∈ xs.dropLast, g.Plannable b := by
    intro b inBody
    obtain ⟨data, found⟩ := laid.exists_block (laid.mem_dropLast.1 inBody).1
    obtain ⟨called, same⟩ := due inBody (view_eq found)
    refine ⟨by rw [called, same], fun a member => ?_⟩
    rw [same, coherent.mem_arrows (view_eq found)] at member
    obtain ⟨e, edge, stored, -, rfl⟩ := member
    obtain ⟨-, target, foundTarget, -⟩ := coherent.target stored
    exact Option.isSome_of_eq_some foundTarget
  have planned := (planned_eq_ok laid.body_eq).2 ⟨plannable, rfl⟩
  obtain ⟨g', returned, connected⟩ := (connectAll_yields (inside_of_planned planned)).exists_ok
  have view (c : BlockId) : g'.view c = g.view c := by
    rw [connected.view_due distinct]
    cases found : g.block? c with
    | none => simp [view, found]
    | some data =>
      rw [view_eq found, Option.map_some, Option.some.injEq, look, View.mk.injEq]
      refine ⟨rfl, rfl, rfl, ?_⟩
      split
      · exact (due ‹_› (view_eq found)).2
      · -- a block outside the layout, or exit, has no arrows to begin with
        rename_i outside
        refine (List.eq_nil_iff_forall_not_mem.2 fun a member => outside ?_).symm
        exact laid.mem_dropLast.2 (coherent.of_mem_arrows (view_eq found) member)
  refine ⟨g', bind_eq_ok.2 ⟨_, planned, returned⟩, ?_, fun c => ?_⟩
  · exact laid.congr (.of_map connected.block fun _ _ => rfl)
  · have block := connected.block c
    cases found : g.block? c with
    | none =>
      rw [found, Option.map_none] at block
      simp only [successors, outEdges, Graph.block, found, block]
      rfl
    | some data =>
      rw [found, Option.map_some] at block
      have same := view c
      rw [view_eq block, view_eq found, Option.some.injEq] at same
      rw [successors_eq block fun e member => connected.isSome_edge block member,
        coherent.successors_eq (view_eq found), ← same]
      rfl

end

/-! ## An example -/

/-- A conditional branch over an empty block, which branches to the same place. The graph is as it
was built, with one edge for each call of an instruction and one for each block that falls through. -/
def triangle : Graph :=
  { blocks := #[
      { Block.fresh with status := .live, next := some ⟨2⟩, succs := [⟨0⟩] },
      { Block.fresh with status := .live, prev := some ⟨4⟩, preds := [⟨4⟩] },
      { Block.fresh with
        instrs := [.branch .brItrue ⟨1⟩], status := .live, prev := some .entry, next := some ⟨3⟩
        succs := [⟨1⟩, ⟨2⟩], preds := [⟨0⟩] },
      { Block.fresh with
        instrs := [.branch .br ⟨1⟩], deadEnd := true, status := .live, prev := some ⟨2⟩
        next := some ⟨4⟩, succs := [⟨3⟩], preds := [⟨2⟩] },
      { Block.fresh with
        instrs := [.plain .ret], label := some ⟨1⟩, deadEnd := true, status := .live
        prev := some ⟨3⟩, next := some .exit, succs := [⟨4⟩], preds := [⟨1⟩, ⟨3⟩] }]
    liveCount := 5, retired := #[]
    edges := ⟨#[some ⟨.entry, ⟨2⟩, .fallthru⟩, some ⟨⟨2⟩, ⟨4⟩, .branch⟩, some ⟨⟨2⟩, ⟨3⟩, .fallthru⟩,
      some ⟨⟨3⟩, ⟨4⟩, .branch⟩, some ⟨⟨4⟩, .exit, .ret⟩], []⟩
    labels := LabelTable.empty.bind ⟨1⟩ ⟨4⟩ none, order := none, catcher := none }

theorem triangle_simplifies : ∃ result, triangle.simplify .standard = .ok result := by
  decide +kernel

end Graph

end FlowGraph
