import FlowGraph.Proofs.Effect
import FlowGraph.Proofs.Pool

/-! # Edges stay accounted for

In every graph that a run of operations leads to, each edge of the pool is listed once by its source
and once by its destination, and no array lists anything else. An operation either leaves arrays and
pool alone or changes them together, and the pool never issues a slot that is taken. Destroying a
block is the exception, for it gives up the arrays of the block without looking at its edges; so a
run may only destroy blocks that have none. -/

namespace FlowGraph

/-- The edges that a block lists. -/
def Block.arrays (d : Block) : List EdgeId × List EdgeId := (d.succs, d.preds)

namespace Graph

/-- The pool is sound, and the arrays of blocks agree with it. -/
structure Accounted (g : Graph) : Prop where
  matched : g.Matched
  pool : g.edges.Sound

section

variable {g g' : Graph}

/-! ## Changes that leave edges alone -/

theorem Accounted.of_same (accounted : g.Accounted) (same : SameBlocks Block.arrays g g')
    (edges : g'.edges = g.edges) : g'.Accounted := by
  refine ⟨accounted.matched.congr same fun e => by rw [edges], ?_⟩
  rw [edges]
  exact accounted.pool

theorem Accounted.relaid (accounted : g.Accounted) (relaid : Relaid g g') : g'.Accounted :=
  accounted.of_same (relaid.block.weaken Block.arrays) relaid.edges

theorem Accounted.modify (accounted : g.Accounted) (b : BlockId) {f : Block → Block}
    (unseen : ∀ data, (f data).arrays = data.arrays) : (g.modify b f).Accounted :=
  accounted.of_same (.modify g b unseen) rfl

theorem Accounted.setMarks (accounted : g.Accounted) (bs : List BlockId) (marked : Bool) :
    (g.setMarks bs marked).Accounted :=
  have remarked := remarked_setMarks bs marked g
  accounted.of_same (remarked.block.weaken Block.arrays) remarked.edges

/-- No block of that handle lists an edge. -/
def Edgeless (g : Graph) (b : BlockId) : Prop :=
  ∀ data, g.block? b = some data → data.succs = [] ∧ data.preds = []

/-- Emptying the arrays of a block without edges changes nothing. -/
theorem Edgeless.arrays_modify {b : BlockId} (edgeless : g.Edgeless b) {f : Block → Block}
    (empties : ∀ data, (f data).arrays = ([], [])) : SameBlocks Block.arrays g (g.modify b f) := by
  intro c
  rw [block?_modify]
  split
  · subst c
    cases found : g.block? b with
    | none => rfl
    | some data =>
      obtain ⟨noSuccs, noPreds⟩ := edgeless data found
      rw [Option.map_some, Option.map_some, Option.map_some, empties, Block.arrays, noSuccs, noPreds]
  · rfl

theorem Edgeless.relaid {b : BlockId} (edgeless : g.Edgeless b) (relaid : Relaid g g') :
    g'.Edgeless b := by
  intro data' found'
  obtain ⟨data, found, same⟩ := (relaid.block.weaken Block.arrays).symm.exists_block found'
  obtain ⟨noSuccs, noPreds⟩ := edgeless data found
  have arrays : (data.succs, data.preds) = (data'.succs, data'.preds) := same
  rw [noSuccs, noPreds, Prod.mk.injEq] at arrays
  exact ⟨arrays.1.symm, arrays.2.symm⟩

/-! ## Changes of edges -/

theorem Accounted.disconnect_yields (accounted : g.Accounted) (e : EdgeId) :
    Yields (fun _ => True) (g.disconnect e) Accounted := by
  cases stored : g.edges.get? e with
  | none =>
    rw [disconnect, stored]
    exact yields_ok accounted
  | some edge =>
    apply ((accounted.matched.disconnect_yields stored).and_of_eq_ok (fun _ => id)).mono
    intro g' result
    obtain ⟨pruned, ran⟩ := result
    refine ⟨accounted.matched.pruned pruned, ?_⟩
    rw [((Rewired.disconnect_yields g e).of_eq_ok ran).2]
    exact accounted.pool.dealloc e

theorem Accounted.redirect_yields (accounted : g.Accounted) (e : EdgeId) (t : BlockId) :
    Yields (fun _ => True) (g.redirect e t) Accounted := by
  apply yields_of_forall
  intro g' ran
  have steps := ran
  simp only [redirect, bind_eq_ok, block_eq_ok, edge_eq_ok, update_eq_ok] at steps
  obtain ⟨new, found, edge, stored, _, ⟨_, rfl⟩, _, rfl⟩ := steps
  have result : Yields (fun _ => True) (g.redirect e t) _ :=
    accounted.matched.redirect_yields stored found
  obtain ⟨redirected, block⟩ := result.of_eq_ok ran
  refine ⟨accounted.matched.redirected stored (by simp [found]) redirected block, ?_⟩
  exact accounted.pool.modify e _

theorem Listed.connected {side : Block → List EdgeId} {tip : Edge → BlockId} {e : EdgeId}
    {edge : Edge} (listed : g.Listed side tip) (vacant : g.edges.get? e = none)
    (inside : (g.block? (tip edge)).isSome)
    (stored : ∀ e', g'.edges.get? e' = if e' = e then some edge else g.edges.get? e')
    {f : BlockId → Block → Block} (block : ∀ c, g'.block? c = (g.block? c).map (f c))
    (array : ∀ c data, side (f c data) = side data ++ if c = tip edge then [e] else []) :
    g'.Listed side tip := by
  refine ⟨fun {c data'} found' => ?_, fun {e' edge'} stored' => ?_⟩
  · rw [block, Option.map_eq_some_iff] at found'
    obtain ⟨data, found, rfl⟩ := found'
    obtain ⟨distinct, members⟩ := listed.array found
    -- what is listed is in the pool, so the new edge is not listed yet
    have fresh : e ∉ side data := by simp [members, vacant]
    rw [array]
    refine ⟨?_, fun e' => ?_⟩
    · by_cases here : c = tip edge
      · rw [if_pos here]
        exact List.nodup_append.2 ⟨distinct, by simp, by
          rintro a member b single rfl
          exact fresh (List.mem_singleton.1 single ▸ member)⟩
      · rwa [if_neg here, List.append_nil]
    · rw [List.mem_append, members, stored]
      by_cases same : e' = e
      · subst e'
        by_cases here : c = tip edge <;> simp [vacant, here, eq_comm]
      · by_cases here : c = tip edge <;> simp [same, here]
  · rw [block, Option.isSome_map]
    rw [stored] at stored'
    split at stored'
    · cases stored'
      exact inside
    · exact listed.inside stored'

theorem Accounted.connect_yields (accounted : g.Accounted) (src dst : BlockId) (kind : EdgeKind) :
    Yields (fun _ => True) (g.connect src dst kind) fun (_, g') => g'.Accounted := by
  refine (Graph.update_yields g src _).bind fun g₁ ⟨insideSrc, updated⟩ => ?_
  subst g₁
  refine (Graph.update_yields _ dst _).bind fun g₂ ⟨insideDst, updated⟩ => ?_
  subst g₂
  rw [isSome_block?_modify] at insideDst
  set e := g.edges.nextSlot with slot
  have vacant : g.edges.get? e = none := accounted.pool.get?_nextSlot
  have stored := accounted.pool.get?_insert ⟨src, dst, kind⟩
  have block (c : BlockId) : ((g.modify src fun data => { data with succs := data.succs ++ [e] }).modify
      dst fun data => { data with preds := data.preds ++ [e] }).block? c =
        (g.block? c).map fun data => { data with
          succs := data.succs ++ if c = src then [e] else []
          preds := data.preds ++ if c = dst then [e] else [] } := by
    rw [block?_modify_eq_map, block?_modify_eq_map, Option.map_map]
    congr 1
    funext data
    rw [Function.comp_apply]
    split <;> split <;> simp
  refine yields_pure ⟨⟨?succs, ?preds⟩, accounted.pool.insert _⟩
  case succs =>
    exact accounted.matched.succs.connected vacant insideSrc stored block fun _ _ => rfl
  case preds =>
    exact accounted.matched.preds.connected vacant insideDst stored block fun _ _ => rfl

theorem accounted_disconnectAll (g : Graph) : g.disconnectAll.Accounted := by
  have empty (side : Block → List EdgeId) (tip : Edge → BlockId)
      (empties : ∀ data : Block, side { data with succs := [], preds := [] } = []) :
      g.disconnectAll.Listed side tip := by
    refine ⟨fun {b data'} found' => ?_, fun {e edge} stored => nomatch stored⟩
    rw [block?, disconnectAll, Array.getElem?_map, Option.map_eq_some_iff] at found'
    obtain ⟨data, -, rfl⟩ := found'
    rw [empties]
    exact ⟨List.nodup_nil, fun e => by simp [disconnectAll, EdgePool.clear]⟩
  exact ⟨⟨empty _ _ fun _ => rfl, empty _ _ fun _ => rfl⟩, EdgePool.sound_empty⟩

/-! ## Building -/

theorem mem_incident {es : List Edge} {tip : Edge → BlockId} {b : BlockId} {e : EdgeId} :
    e ∈ incident es tip b ↔ ∃ edge, es[e.index]? = some edge ∧ tip edge = b := by
  obtain ⟨i⟩ := e
  simp only [incident, List.mem_filterMap, Prod.exists, List.mem_zipIdx_iff_getElem?,
    Option.ite_none_right_eq_some, Option.some.injEq, EdgeId.mk.injEq]
  constructor
  · rintro ⟨edge, j, stored, here, rfl⟩
    exact ⟨edge, stored, here⟩
  · rintro ⟨edge, stored, here⟩
    exact ⟨edge, i, stored, here, rfl⟩

theorem nodup_incident (es : List Edge) (tip : Edge → BlockId) (b : BlockId) :
    (incident es tip b).Nodup := by
  have slots : (es.zipIdx.map Prod.snd).Nodup := by
    rw [List.zipIdx_map_snd]
    exact List.nodup_range'
  refine (List.pairwise_map.1 slots).filterMap _ fun one other apart e here e' there => ?_
  simp only [Option.ite_none_right_eq_some, Option.some.injEq] at here there
  obtain ⟨-, rfl⟩ := here
  obtain ⟨-, rfl⟩ := there
  exact fun same => apart (EdgeId.mk.inj same)

theorem Connected.accounted {es : List Edge} (connected : Connected es g g')
    (inside : ∀ edge ∈ es, (g.block? edge.src).isSome ∧ (g.block? edge.dst).isSome) :
    g'.Accounted := by
  have listed (side : Block → List EdgeId) (tip : Edge → BlockId)
      (array : ∀ c data, g'.block? c = some data → side data = incident es tip c)
      (inside : ∀ edge ∈ es, (g.block? (tip edge)).isSome) : g'.Listed side tip := by
    refine ⟨fun {c data} found => ?_, fun {e edge} stored => ?_⟩
    · rw [array c data found]
      refine ⟨nodup_incident es tip c, fun e => ?_⟩
      rw [mem_incident, connected.get?_eq]
    · rw [connected.get?_eq] at stored
      rw [connected.block, Option.isSome_map]
      exact inside edge (List.mem_of_getElem? stored)
  have array {c : BlockId} {data : Block} (found : g'.block? c = some data) :
      data.succs = incident es Edge.src c ∧ data.preds = incident es Edge.dst c := by
    rw [connected.block, Option.map_eq_some_iff] at found
    obtain ⟨_, -, rfl⟩ := found
    exact ⟨rfl, rfl⟩
  refine ⟨⟨listed _ _ (fun c data found => (array found).1) fun edge member => (inside edge member).1,
    listed _ _ (fun c data found => (array found).2) fun edge member => (inside edge member).2⟩, ?_⟩
  rw [connected.edges]
  refine ⟨List.nodup_nil, fun e => ?_⟩
  -- every slot of the new pool holds an edge
  simp only [List.not_mem_nil, false_iff, not_and, EdgePool.capacity, EdgePool.get?]
  intro within
  simp at within
  simp [within]

theorem build_accounted (g : Graph) : Yields (fun _ => True) g.build Accounted :=
  (build_yields g).mono fun _ ⟨_, planned, connected⟩ =>
    connected.accounted (inside_of_planned planned)

/-! ## Operations -/

theorem Accounted.create (accounted : g.Accounted) : g.create.2.Accounted := by
  have listed {side : Block → List EdgeId} {tip : Edge → BlockId} (fresh : side .fresh = [])
      (before : g.Listed side tip) : g.create.2.Listed side tip := by
    refine ⟨fun {c data} found => ?_, fun {e edge} stored => ?_⟩
    · rw [block?_create] at found
      split at found
      · cases found
        subst c
        rw [fresh]
        refine ⟨List.nodup_nil, fun e => ?_⟩
        simp only [List.not_mem_nil, false_iff, not_exists, not_and]
        -- no edge can have a tip at a block that was not there
        intro edge stored here
        have inside := before.inside stored
        rw [here, block?_create_self] at inside
        cases inside
      · exact before.array found
    · rw [block?_create]
      split
      · rfl
      · exact before.inside stored
  exact ⟨⟨listed rfl accounted.matched.succs, listed rfl accounted.matched.preds⟩, accounted.pool⟩

theorem Accounted.change (change : Change g g') (accounted : g.Accounted) : g'.Accounted := by
  cases change with
  | forget => exact accounted.of_same (.refl _ g) rfl
  | recode b f code =>
    refine accounted.modify b fun data => ?_
    have same := congrArg Block.arrays (code data)
    exact same
  | recast e kind =>
    refine ⟨accounted.matched.congr (.refl _ g) fun e' => ?_, accounted.pool.modify e _⟩
    rw [EdgePool.get?_modify]
    split
    · rw [Option.map_map]
      rfl
    · rfl
  | unlabel b => exact accounted.modify b fun _ => rfl
  | relabel t l led found old => exact accounted.of_same (.modify _ t fun _ => rfl) rfl
  | disconnect ran => exact (accounted.disconnect_yields _).of_eq_ok ran
  | redirect led ran => exact (accounted.redirect_yields _ _).of_eq_ok ran
  | @retire _ b ran =>
    obtain ⟨data, g₁, found, noSuccs, noPreds, -, relaid, rfl⟩ :=
      (retire_yields_relaid g b).of_eq_ok ran
    have edgeless : g.Edgeless b := by
      intro data' found'
      rw [found] at found'
      cases found'
      exact ⟨noSuccs, noPreds⟩
    exact (accounted.relaid relaid).of_same ((edgeless.relaid relaid).arrays_modify fun _ => rfl) rfl

theorem Accounted.touch (touch : Touch g g') (accounted : g.Accounted) : g'.Accounted := by
  cases touch with
  | change change => exact .change change accounted
  | mark bs marked => exact accounted.setMarks bs marked
  | reorder order => exact accounted.of_same (.refl _ g) rfl

theorem Accounted.wires (accounted : g.Accounted) {op : Operation} (wires : Wires g op g') :
    g'.Accounted := by
  cases wires with
  | connect ran => exact (accounted.connect_yields _ _ _).of_eq_ok ran
  | redirect ran => exact (accounted.redirect_yields _ _).of_eq_ok ran
  | disconnect ran => exact (accounted.disconnect_yields _).of_eq_ok ran
  | disconnectAll => exact accounted_disconnectAll g
  | build ran => exact (build_accounted g).of_eq_ok ran

/-- Blocks may only be destroyed if they have no edges. -/
def SparesEdges (g : Graph) : Operation → Prop
  | .destroy b => g.Edgeless b
  | _ => True

theorem Accounted.effect (accounted : g.Accounted) {op : Operation} (spares : g.SparesEdges op)
    (effect : Effect g op g') : g'.Accounted := by
  cases effect with
  | create => exact accounted.create
  | append ran => exact accounted.create.relaid (relaid_of_append ran)
  | destroy notEntry notExit vacates =>
    -- the arrays that are given up are empty
    exact (accounted.relaid vacates.relaid).of_same
      ((spares.relaid vacates.relaid).arrays_modify fun _ => rfl) rfl
  | move moves => exact accounted.relaid moves.relaid
  | write inside writes =>
    exact accounted.of_same ((same_of_writes g writes).weaken Block.arrays) rfl
  | bind bound =>
    obtain rfl | ⟨-, -, data, -, rfl⟩ := bound
    · exact accounted
    · exact accounted.of_same (.modify _ _ fun _ => rfl) rfl
  | catcher l => exact accounted.of_same (.refl _ g) rfl
  | wire wires => exact accounted.wires wires
  | search searches => exact searches.touches.keeps Accounted Accounted.touch accounted

theorem Accounted.perform (accounted : g.Accounted) {op : Operation} (spares : g.SparesEdges op) :
    (g.perform op).Accounted :=
  perform_of_effect accounted fun _ => accounted.effect spares

/-! ## Degrees -/

/-- Together the arrays on one side are as long as there are edges. -/
theorem Listed.sum_length {side : Block → List EdgeId} {tip : Edge → BlockId}
    (listed : g.Listed side tip) (sound : g.edges.Sound) :
    (g.blocks.toList.map fun data => (side data).length).sum = g.edgeCount := by
  let all := g.members.flatMap fun m => side m.2
  have handles : (g.members.map Prod.fst).Nodup := by
    have places : (g.blocks.toList.zipIdx.map Prod.snd).Nodup := by
      rw [List.zipIdx_map_snd]
      exact List.nodup_range'
    refine List.pairwise_map.2 (List.pairwise_map.2 ((List.pairwise_map.1 places).imp ?_))
    exact fun apart same => apart (BlockId.mk.inj same)
  have listing (e : EdgeId) : e ∈ all ↔ ∃ edge, g.edges.get? e = some edge := by
    simp only [all, List.mem_flatMap, Prod.exists, mem_members]
    constructor
    · rintro ⟨b, data, found, member⟩
      obtain ⟨edge, stored, -⟩ := ((listed.array found).2 e).1 member
      exact ⟨edge, stored⟩
    · rintro ⟨edge, stored⟩
      obtain ⟨data, found⟩ := Option.isSome_iff_exists.1 (listed.inside stored)
      exact ⟨_, data, found, ((listed.array found).2 e).2 ⟨edge, stored, rfl⟩⟩
  have distinct : all.Nodup := by
    refine List.nodup_flatMap.2 ⟨fun m member => ?_, ?_⟩
    · exact (listed.array (mem_members.1 member)).1
    · -- an edge in the arrays of two blocks would have its tip at both
      refine (List.pairwise_map.1 handles).imp_of_mem ?_
      intro m m' member member' apart e inside inside'
      obtain ⟨edge, stored, here⟩ := ((listed.array (mem_members.1 member)).2 e).1 inside
      obtain ⟨edge', stored', there⟩ := ((listed.array (mem_members.1 member')).2 e).1 inside'
      rw [stored] at stored'
      cases stored'
      exact apart (here.symm.trans there)
  have same : all.Perm (g.edges.entries.map Prod.fst) := by
    refine (List.perm_ext_iff_of_nodup distinct g.edges.nodup_entries).2 fun e => ?_
    rw [listing, EdgePool.mem_entries_fst]
  have blocks : g.members.map Prod.snd = g.blocks.toList := by
    simp [members, Function.comp_def]
  calc (g.blocks.toList.map fun data => (side data).length).sum
      = all.length := by
        rw [← blocks, List.map_map, List.length_flatMap]
        rfl
    _ = g.edges.entries.length := by rw [same.length_eq, List.length_map]
    _ = g.edgeCount := sound.size_eq.symm

/-! ## Runs -/

/-- Each edge is listed once at either end, no array lists anything else, and the degrees of all
blocks add up to the number of edges on either side. -/
structure Symmetric (g : Graph) : Prop where
  source : ∀ e edge, g.edges.get? e = some edge →
    ∃ data, g.block? edge.src = some data ∧ data.succs.count e = 1
  target : ∀ e edge, g.edges.get? e = some edge →
    ∃ data, g.block? edge.dst = some data ∧ data.preds.count e = 1
  succs : ∀ b data, g.block? b = some data → ∀ e ∈ data.succs,
    ∃ edge, g.edges.get? e = some edge ∧ edge.src = b
  preds : ∀ b data, g.block? b = some data → ∀ e ∈ data.preds,
    ∃ edge, g.edges.get? e = some edge ∧ edge.dst = b
  outDegrees : (g.blocks.toList.map fun data => data.succs.length).sum = g.edgeCount
  inDegrees : (g.blocks.toList.map fun data => data.preds.length).sum = g.edgeCount

theorem Listed.exists_count {side : Block → List EdgeId} {tip : Edge → BlockId}
    (listed : g.Listed side tip) {e : EdgeId} {edge : Edge} (stored : g.edges.get? e = some edge) :
    ∃ data, g.block? (tip edge) = some data ∧ (side data).count e = 1 := by
  obtain ⟨data, found⟩ := Option.isSome_iff_exists.1 (listed.inside stored)
  obtain ⟨distinct, members⟩ := listed.array found
  exact ⟨data, found, List.count_eq_one_of_mem distinct ((members e).2 ⟨edge, stored, rfl⟩)⟩

theorem Accounted.symmetric (accounted : g.Accounted) : g.Symmetric := by
  obtain ⟨⟨succs, preds⟩, pool⟩ := accounted
  refine ⟨fun e edge stored => succs.exists_count stored,
    fun e edge stored => preds.exists_count stored, fun b data found e member => ?_,
    fun b data found e member => ?_, succs.sum_length pool, preds.sum_length pool⟩
  · exact ((succs.array found).2 e).1 member
  · exact ((preds.array found).2 e).1 member

end

theorem accounted_initial : initial.Accounted := by
  have listed (side : Block → List EdgeId) (tip : Edge → BlockId)
      (empties : ∀ b data, initial.block? b = some data → side data = []) :
      initial.Listed side tip := by
    refine ⟨fun {b data} found => ?_, fun {e edge} stored => nomatch stored⟩
    rw [empties b data found]
    exact ⟨List.nodup_nil, fun e => by simp [initial]⟩
  exact ⟨⟨listed _ _ (by decide), listed _ _ (by decide)⟩, EdgePool.sound_empty⟩

/-- Edges are symmetric in every graph that a run of operations leads to, if it destroys no block
that has any. -/
theorem performAll_symmetric (ops : List Operation) (spares : Throughout SparesEdges initial ops) :
    (initial.performAll ops).Symmetric :=
  have accounted : (initial.performAll ops).Accounted :=
    spares.induction (fun _ _ spares accounted => accounted.perform spares) accounted_initial
  accounted.symmetric

instance (g : Graph) (b : BlockId) : Decidable (g.Edgeless b) :=
  inferInstanceAs (Decidable (∀ data, g.block? b = some data → data.succs = [] ∧ data.preds = []))

instance (g : Graph) : (op : Operation) → Decidable (g.SparesEdges op)
  | .destroy b => inferInstanceAs (Decidable (g.Edgeless b))
  | .create | .append | .detach .. | .attachAfter .. | .attachBefore .. | .push .. | .replaceLast ..
  | .setDeadEnd .. | .bindLabel .. | .setCatcher _ | .setMeta .. | .eraseMeta .. | .connect ..
  | .redirect .. | .disconnect _ | .disconnectAll | .build | .postorder | .simplify _ =>
    inferInstanceAs (Decidable True)

/-- A run that makes an edge of a block to itself and two edges between the same blocks, gives a slot
away twice, destroys a block, and ends with edges from code. -/
def tangle : List Operation :=
  [.append, .append, .create, .connect ⟨2⟩ ⟨2⟩ .branch, .connect ⟨2⟩ ⟨3⟩ .branch,
    .connect ⟨2⟩ ⟨3⟩ .fallthru, .disconnect ⟨0⟩, .connect ⟨3⟩ ⟨2⟩ .ret, .redirect ⟨0⟩ .exit,
    .destroy ⟨4⟩, .bindLabel ⟨3⟩ ⟨1⟩, .push ⟨2⟩ (.branch .brItrue ⟨1⟩), .build,
    .simplify .standard, .disconnect ⟨1⟩]

theorem performAll_tangle_symmetric :
    Throughout SparesEdges initial tangle ∧ (initial.performAll tangle).Symmetric :=
  have spares : Throughout SparesEdges initial tangle := by decide +kernel
  ⟨spares, performAll_symmetric tangle spares⟩

end Graph

end FlowGraph
