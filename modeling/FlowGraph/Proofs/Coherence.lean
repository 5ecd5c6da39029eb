import FlowGraph.Graph.Incidence
import FlowGraph.Proofs.Layout
import FlowGraph.Proofs.Outcome

/-! # Coherent graphs

A graph is coherent if its three records of an edge agree: the pool, the successor array of the
source and the predecessor array of the destination. All edges start in the layout and run between
live blocks, none enters entry and none leaves exit. This is what every pass over a graph relies on,
and what each change of an edge has to restore.

Marks, labels and instructions play no part in it, and neither does the status of a block without
edges. What it says of pool and arrays alone, that they are matched, is kept by changes of edges in a
graph that is not coherent otherwise. -/

namespace FlowGraph

namespace Graph

/-! ## Steps that find what they look for -/

theorem block_bind {α : Type} {g : Graph} {b : BlockId} {data : Block}
    (found : g.block? b = some data) (next : Block → Except Fault α) :
    (g.block b >>= next) = next data := by
  rw [block_eq_ok.2 found, ok_bind]

theorem edge_eq_ok {g : Graph} {e : EdgeId} {edge : Edge} :
    g.edge e = .ok edge ↔ g.edges.get? e = some edge := by
  unfold Graph.edge
  split <;> simp_all

theorem edge_bind {α : Type} {g : Graph} {e : EdgeId} {edge : Edge}
    (stored : g.edges.get? e = some edge) (next : Edge → Except Fault α) :
    (g.edge e >>= next) = next edge := by
  rw [edge_eq_ok.2 stored, ok_bind]

theorem update_bind {α : Type} {g : Graph} {b : BlockId} {f : Block → Block}
    (found : (g.block? b).isSome) (next : Graph → Except Fault α) :
    (g.update b f >>= next) = next (g.modify b f) := by
  rw [update_eq_ok.2 ⟨found, rfl⟩, ok_bind]

section

variable (g : Graph) (b : BlockId) (f : Block → Block)

theorem block_yields : Yields (fun _ => True) (g.block b) fun data => g.block? b = some data :=
  yields_of_forall fun _ => block_eq_ok.1

theorem edge_yields (e : EdgeId) :
    Yields (fun _ => True) (g.edge e) fun edge => g.edges.get? e = some edge :=
  yields_of_forall fun _ => edge_eq_ok.1

theorem update_yields :
    Yields (fun _ => True) (g.update b f) fun g' => (g.block? b).isSome ∧ g' = g.modify b f :=
  yields_of_forall fun _ updated => ⟨(update_eq_ok.1 updated).1, (update_eq_ok.1 updated).2.symm⟩

@[simp] theorem edges_modify : (g.modify b f).edges = g.edges := rfl

@[simp] theorem liveCount_modify : (g.modify b f).liveCount = g.liveCount := rfl

@[simp] theorem retired_modify : (g.modify b f).retired = g.retired := rfl

@[simp] theorem labels_modify : (g.modify b f).labels = g.labels := rfl

@[simp] theorem catcher_modify : (g.modify b f).catcher = g.catcher := rfl

end

/-- A change of one block, seen as a change of every block; several changes then compose. -/
theorem block?_modify_eq_map (g : Graph) (b c : BlockId) (f : Block → Block) :
    (g.modify b f).block? c = (g.block? c).map fun data => if c = b then f data else data := by
  rw [block?_modify]
  split <;> simp

@[simp] theorem isSome_block?_modify {g : Graph} {b c : BlockId} {f : Block → Block} :
    ((g.modify b f).block? c).isSome = (g.block? c).isSome := by
  rw [block?_modify]
  split <;> simp

theorem SameBlocks.modify {α : Type} {φ : Block → α} (g : Graph) (b : BlockId) {f : Block → Block}
    (unseen : ∀ data, φ (f data) = φ data) : SameBlocks φ g (g.modify b f) := by
  refine .of_map (block?_modify_eq_map g b · f) fun c data => ?_
  split
  · exact unseen data
  · rfl

/-! ## Edges and the arrays that list them -/

/-- What the blocks hold on one side: each edge is listed once, by the block at that tip of it, and
nothing else is listed. -/
structure Listed (g : Graph) (side : Block → List EdgeId) (tip : Edge → BlockId) : Prop where
  array {b : BlockId} {data : Block} : g.block? b = some data → (side data).Nodup ∧
    ∀ e, e ∈ side data ↔ ∃ edge, g.edges.get? e = some edge ∧ tip edge = b
  inside {e : EdgeId} {edge : Edge} :
    g.edges.get? e = some edge → (g.block? (tip edge)).isSome

/-- Successor and predecessor arrays agree with the pool. -/
structure Matched (g : Graph) : Prop where
  succs : g.Listed (·.succs) (·.src)
  preds : g.Listed (·.preds) (·.dst)

theorem Listed.congr {g g' : Graph} {side : Block → List EdgeId} {tip : Edge → BlockId}
    (listed : g.Listed side tip) (arrays : SameBlocks side g g')
    (tips : ∀ e, (g'.edges.get? e).map tip = (g.edges.get? e).map tip) : g'.Listed side tip := by
  -- which block lists an edge depends on its tip alone
  have same (e : EdgeId) (b : BlockId) :
      (∃ edge, g'.edges.get? e = some edge ∧ tip edge = b) ↔
        ∃ edge, g.edges.get? e = some edge ∧ tip edge = b := by
    rw [← Option.map_eq_some_iff, ← Option.map_eq_some_iff, tips]
  refine ⟨fun {b data} found => ?_, fun {e edge} stored => ?_⟩
  · obtain ⟨data', found', sides⟩ := arrays.symm.exists_block found
    rw [← sides]
    refine ⟨(listed.array found').1, fun e => ?_⟩
    rw [(listed.array found').2 e, same]
  · obtain ⟨edge', stored', here⟩ := (same e (tip edge)).1 ⟨edge, stored, rfl⟩
    rw [arrays.isSome_eq, ← here]
    exact listed.inside stored'

theorem Matched.congr {g g' : Graph} (matched : g.Matched)
    (arrays : SameBlocks (fun d => (d.succs, d.preds)) g g')
    (ends : ∀ e, ((g'.edges.get? e).map fun edge => (edge.src, edge.dst)) =
      (g.edges.get? e).map fun edge => (edge.src, edge.dst)) : g'.Matched := by
  refine ⟨matched.succs.congr (arrays.weaken Prod.fst) fun e => ?_,
    matched.preds.congr (arrays.weaken Prod.snd) fun e => ?_⟩
  · simpa [Function.comp_def] using congrArg (Option.map Prod.fst) (ends e)
  · simpa [Function.comp_def] using congrArg (Option.map Prod.snd) (ends e)

/-! ## Coherence -/

structure Coherent (g : Graph) (xs : List BlockId) : Prop where
  laid : g.LaidOut xs
  count : g.liveCount = xs.length
  succs {b : BlockId} {data : Block} : g.block? b = some data → data.succs.Nodup ∧
    ∀ e, e ∈ data.succs ↔ ∃ edge, g.edges.get? e = some edge ∧ edge.src = b
  preds {b : BlockId} {data : Block} : g.block? b = some data → data.preds.Nodup ∧
    ∀ e, e ∈ data.preds ↔ ∃ edge, g.edges.get? e = some edge ∧ edge.dst = b
  source {e : EdgeId} {edge : Edge} : g.edges.get? e = some edge →
    edge.src ∈ xs ∧ edge.src ≠ .exit ∧ ∃ data, g.block? edge.src = some data ∧ data.status = .live
  target {e : EdgeId} {edge : Edge} : g.edges.get? e = some edge →
    edge.dst ≠ .entry ∧ ∃ data, g.block? edge.dst = some data ∧ data.status = .live

namespace Coherent

variable {g : Graph} {xs : List BlockId}

theorem matched (coherent : g.Coherent xs) : g.Matched := by
  refine ⟨⟨coherent.succs, fun stored => ?_⟩, ⟨coherent.preds, fun stored => ?_⟩⟩
  · obtain ⟨-, -, data, found, -⟩ := coherent.source stored
    exact Option.isSome_of_eq_some found
  · obtain ⟨-, data, found, -⟩ := coherent.target stored
    exact Option.isSome_of_eq_some found

theorem edge_of_mem_succs (coherent : g.Coherent xs) {b : BlockId} {data : Block} {e : EdgeId}
    (found : g.block? b = some data) (member : e ∈ data.succs) :
    ∃ edge, g.edges.get? e = some edge ∧ edge.src = b :=
  ((coherent.succs found).2 e).1 member

theorem edge_of_mem_preds (coherent : g.Coherent xs) {b : BlockId} {data : Block} {e : EdgeId}
    (found : g.block? b = some data) (member : e ∈ data.preds) :
    ∃ edge, g.edges.get? e = some edge ∧ edge.dst = b :=
  ((coherent.preds found).2 e).1 member

theorem mem_succs (coherent : g.Coherent xs) {data : Block} {e : EdgeId} {edge : Edge}
    (stored : g.edges.get? e = some edge) (found : g.block? edge.src = some data) :
    e ∈ data.succs :=
  ((coherent.succs found).2 e).2 ⟨edge, stored, rfl⟩

theorem mem_preds (coherent : g.Coherent xs) {data : Block} {e : EdgeId} {edge : Edge}
    (stored : g.edges.get? e = some edge) (found : g.block? edge.dst = some data) :
    e ∈ data.preds :=
  ((coherent.preds found).2 e).2 ⟨edge, stored, rfl⟩

theorem of_mem_succs (coherent : g.Coherent xs) {b : BlockId} {data : Block} {e : EdgeId}
    (found : g.block? b = some data) (member : e ∈ data.succs) :
    b ∈ xs ∧ b ≠ .exit ∧ data.status = .live := by
  obtain ⟨edge, stored, rfl⟩ := coherent.edge_of_mem_succs found member
  obtain ⟨inside, inner, data', found', live⟩ := coherent.source stored
  rw [found] at found'
  cases found'
  exact ⟨inside, inner, live⟩

/-- Only a live block lists edges. -/
theorem unlisted_of_idle (coherent : g.Coherent xs) {b : BlockId} {data : Block}
    (found : g.block? b = some data) (idle : data.status ≠ .live) :
    data.succs = [] ∧ data.preds = [] := by
  constructor
  · apply List.eq_nil_iff_forall_not_mem.2
    intro e listed
    exact idle (coherent.of_mem_succs found listed).2.2
  · apply List.eq_nil_iff_forall_not_mem.2
    intro e listed
    obtain ⟨edge, stored, rfl⟩ := coherent.edge_of_mem_preds found listed
    obtain ⟨-, data', found', live⟩ := coherent.target stored
    rw [found] at found'
    cases found'
    exact idle live

end Coherent

/-! ## Changes that coherence does not see -/

end Graph

/-- What coherence reads of a block. -/
def Block.frame (d : Block) :
    Status × Option BlockId × Option BlockId × List EdgeId × List EdgeId :=
  (d.status, d.prev, d.next, d.succs, d.preds)

def Block.withoutPreds (d : Block) : Block := { d with preds := [] }

def Block.unlist (gone : List EdgeId) (d : Block) : Block :=
  { d with succs := d.succs.filter (· ∉ gone), preds := d.preds.filter (· ∉ gone) }

@[simp] theorem Block.mem_succs_unlist {gone : List EdgeId} {d : Block} {e : EdgeId} :
    e ∈ (d.unlist gone).succs ↔ e ∈ d.succs ∧ e ∉ gone := by
  simp [Block.unlist]

@[simp] theorem Block.mem_preds_unlist {gone : List EdgeId} {d : Block} {e : EdgeId} :
    e ∈ (d.unlist gone).preds ↔ e ∈ d.preds ∧ e ∉ gone := by
  simp [Block.unlist]

namespace Graph

theorem Coherent.congr {g g' : Graph} {xs : List BlockId} (coherent : g.Coherent xs)
    (blocks : SameBlocks Block.frame g g')
    (ends : ∀ e, ((g'.edges.get? e).map fun edge => (edge.src, edge.dst)) =
      (g.edges.get? e).map fun edge => (edge.src, edge.dst))
    (count : g'.liveCount = g.liveCount) : g'.Coherent xs := by
  have stored {e : EdgeId} {edge : Edge} (here : g'.edges.get? e = some edge) :
      ∃ edge', g.edges.get? e = some edge' ∧ edge'.src = edge.src ∧ edge'.dst = edge.dst := by
    have same := (ends e).symm
    rw [here, Option.map_some, Option.map_eq_some_iff] at same
    simpa using same
  have laid := coherent.laid.congr (blocks.weaken fun t => (t.2.1, t.2.2.1))
  have matched := coherent.matched.congr (blocks.weaken fun t => (t.2.2.2.1, t.2.2.2.2)) ends
  refine ⟨laid, ?count, matched.succs.array, matched.preds.array, ?source, ?target⟩
  case count =>
    rw [count, coherent.count]
  case source =>
    intro e edge here
    obtain ⟨edge', there, src, -⟩ := stored here
    obtain ⟨inside, inner, data, found, live⟩ := coherent.source there
    obtain ⟨data', found', same⟩ := blocks.exists_block found
    rw [← src]
    exact ⟨inside, inner, data', found', (congrArg (·.1) same).trans live⟩
  case target =>
    intro e edge here
    obtain ⟨edge', there, -, dst⟩ := stored here
    obtain ⟨inner, data, found, live⟩ := coherent.target there
    obtain ⟨data', found', same⟩ := blocks.exists_block found
    rw [← dst]
    exact ⟨inner, data', found', (congrArg (·.1) same).trans live⟩

/-- What a graph holds beside blocks, edges and a cached postorder stays the same. -/
structure SameGlobals (g g' : Graph) : Prop where
  liveCount : g'.liveCount = g.liveCount
  retired : g'.retired = g.retired
  labels : g'.labels = g.labels
  catcher : g'.catcher = g.catcher

theorem SameGlobals.refl (g : Graph) : SameGlobals g g := ⟨rfl, rfl, rfl, rfl⟩

theorem SameGlobals.trans {g₁ g₂ g₃ : Graph} (first : SameGlobals g₁ g₂)
    (second : SameGlobals g₂ g₃) : SameGlobals g₁ g₃ :=
  ⟨second.1.trans first.1, second.2.trans first.2, second.3.trans first.3, second.4.trans first.4⟩

/-! ## Deleting edges -/

/-- The edges `gone` have left pool and arrays, and nothing else has changed. -/
structure Pruned (gone : List EdgeId) (g g' : Graph) : Prop where
  block : ∀ c, g'.block? c = (g.block? c).map (Block.unlist gone)
  edge : ∀ e, g'.edges.get? e = if e ∈ gone then none else g.edges.get? e
  globals : SameGlobals g g'

theorem Pruned.refl (g : Graph) : Pruned [] g g := by
  refine ⟨fun c => ?_, fun e => ?_, .refl g⟩
  · cases found : g.block? c <;> simp [Block.unlist]
  · simp

theorem Pruned.trans {gone gone' : List EdgeId} {g₁ g₂ g₃ : Graph} (first : Pruned gone g₁ g₂)
    (second : Pruned gone' g₂ g₃) : Pruned (gone ++ gone') g₁ g₃ := by
  refine ⟨fun c => ?_, fun e => ?_, first.globals.trans second.globals⟩
  · rw [second.block, first.block, Option.map_map]
    congr 1
    funext data
    simp [Block.unlist, List.filter_filter, Bool.and_comm]
  · rw [second.edge, first.edge]
    simp only [List.mem_append]
    split <;> split <;> simp_all

/-- An edge that is left was there before. -/
theorem Pruned.get?_eq {gone : List EdgeId} {g g' : Graph} (pruned : Pruned gone g g') {e : EdgeId}
    {edge : Edge} (stored : g'.edges.get? e = some edge) :
    e ∉ gone ∧ g.edges.get? e = some edge := by
  rw [pruned.edge] at stored
  split at stored
  · cases stored
  · exact ⟨‹_›, stored⟩

theorem Listed.pruned {g g' : Graph} {gone : List EdgeId} {side : Block → List EdgeId}
    {tip : Edge → BlockId} (listed : g.Listed side tip) (pruned : Pruned gone g g')
    (unlist : ∀ data, side (data.unlist gone) = (side data).filter (· ∉ gone)) :
    g'.Listed side tip := by
  refine ⟨fun {b data} found => ?_, fun {e edge} stored => ?_⟩
  · rw [pruned.block, Option.map_eq_some_iff] at found
    obtain ⟨data, found, rfl⟩ := found
    rw [unlist]
    refine ⟨(listed.array found).1.filter _, fun e => ?_⟩
    rw [List.mem_filter, (listed.array found).2 e, pruned.edge]
    by_cases member : e ∈ gone <;> simp [member]
  · rw [pruned.block, Option.isSome_map]
    exact listed.inside (pruned.get?_eq stored).2

theorem Matched.pruned {g g' : Graph} {gone : List EdgeId} (matched : g.Matched)
    (pruned : Pruned gone g g') : g'.Matched :=
  ⟨matched.succs.pruned pruned fun _ => rfl, matched.preds.pruned pruned fun _ => rfl⟩

theorem Coherent.pruned {g g' : Graph} {xs : List BlockId} {gone : List EdgeId}
    (coherent : g.Coherent xs) (pruned : Pruned gone g g') : g'.Coherent xs := by
  have matched := coherent.matched.pruned pruned
  refine ⟨?laid, ?count, matched.succs.array, matched.preds.array, ?source, ?target⟩
  case laid =>
    exact coherent.laid.congr (.of_map pruned.block fun _ _ => rfl)
  case count =>
    rw [pruned.globals.liveCount, coherent.count]
  case source =>
    intro e edge here
    obtain ⟨inside, inner, data, found, live⟩ := coherent.source (pruned.get?_eq here).2
    exact ⟨inside, inner, data.unlist gone, by rw [pruned.block, found]; rfl, live⟩
  case target =>
    intro e edge here
    obtain ⟨inner, data, found, live⟩ := coherent.target (pruned.get?_eq here).2
    exact ⟨inner, data.unlist gone, by rw [pruned.block, found]; rfl, live⟩

theorem strike_eq_filter {es : List EdgeId} {e : EdgeId} (distinct : es.Nodup) {p : Prop}
    [Decidable p] (only : e ∈ es → p) :
    (if p then es.erase e else es) = es.filter (· ∉ [e]) := by
  by_cases h : p
  · rw [if_pos h, distinct.erase_eq_filter]
    apply List.filter_congr
    intro e' _
    by_cases same : e' = e <;> simp [same]
  · rw [if_neg h, List.filter_eq_self.2]
    intro e' member
    have apart : e' ≠ e := by
      rintro rfl
      exact h (only member)
    simp [apart]

theorem Matched.disconnect_yields {allowed : Fault → Prop} {g : Graph} (matched : g.Matched)
    {e : EdgeId} {edge : Edge} (stored : g.edges.get? e = some edge) :
    Yields allowed (g.disconnect e) (Pruned [e] g) := by
  rw [disconnect, stored]
  simp only
  rw [update_bind (matched.succs.inside stored),
    update_bind (by simpa using matched.preds.inside stored)]
  refine yields_pure ⟨fun c => ?_, fun e' => ?_, ⟨rfl, rfl, rfl, rfl⟩⟩
  · change ((g.modify _ _).modify _ _).block? c = _
    rw [block?_modify_eq_map, block?_modify_eq_map]
    cases found : g.block? c with
    | none => simp
    | some data =>
      -- no other array lists the edge, so it may as well be struck from all of them
      have succs := strike_eq_filter (matched.succs.array found).1 (e := e) (p := c = edge.src)
        fun member => by
          obtain ⟨edge', stored', rfl⟩ := ((matched.succs.array found).2 e).1 member
          simp_all
      have preds := strike_eq_filter (matched.preds.array found).1 (e := e) (p := c = edge.dst)
        fun member => by
          obtain ⟨edge', stored', rfl⟩ := ((matched.preds.array found).2 e).1 member
          simp_all
      simp only [Option.map_some, Block.unlist, ← succs, ← preds]
      split <;> split <;> rfl
  · change (g.edges.dealloc e).get? e' = _
    rw [EdgePool.get?_dealloc]
    simp

theorem disconnect_yields {allowed : Fault → Prop} {g : Graph} {xs : List BlockId}
    (coherent : g.Coherent xs) {e : EdgeId} {edge : Edge} (stored : g.edges.get? e = some edge) :
    Yields allowed (g.disconnect e) (Pruned [e] g) :=
  coherent.matched.disconnect_yields stored

/-! ## Redirecting edges -/

/-- The edges `moved` lead to `t`, and nothing has changed but this and the predecessor arrays. -/
structure Redirected (moved : List EdgeId) (t : BlockId) (g g' : Graph) : Prop where
  block : SameBlocks Block.withoutPreds g g'
  edge : ∀ e, g'.edges.get? e = (g.edges.get? e).map fun edge =>
    if e ∈ moved then { edge with dst := t } else edge
  globals : SameGlobals g g'

theorem Redirected.refl (t : BlockId) (g : Graph) : Redirected [] t g g :=
  ⟨.refl _ g, fun e => by simp, .refl g⟩

theorem Redirected.trans {moved moved' : List EdgeId} {t : BlockId} {g₁ g₂ g₃ : Graph}
    (first : Redirected moved t g₁ g₂) (second : Redirected moved' t g₂ g₃) :
    Redirected (moved ++ moved') t g₁ g₃ := by
  refine ⟨first.block.trans second.block, fun e => ?_, first.globals.trans second.globals⟩
  rw [second.edge, first.edge, Option.map_map]
  congr 1
  funext edge
  simp only [Function.comp_apply, List.mem_append]
  split <;> split <;> simp_all

def arrivals (e : EdgeId) (old new c : BlockId) (es : List EdgeId) : List EdgeId :=
  (if c = old then es.erase e else es) ++ if c = new then [e] else []

section

variable {e : EdgeId} {old new c : BlockId} {es : List EdgeId}

theorem not_mem_departed (distinct : es.Nodup) (only : e ∈ es → c = old) :
    e ∉ (if c = old then es.erase e else es) := by
  split
  · exact distinct.not_mem_erase
  · exact fun member => absurd (only member) ‹_›

theorem mem_arrivals (distinct : es.Nodup) (only : e ∈ es → c = old) {e' : EdgeId} :
    e' ∈ arrivals e old new c es ↔ if e' = e then c = new else e' ∈ es := by
  have gone := not_mem_departed distinct only
  by_cases same : e' = e
  · subst e'
    rw [arrivals, List.mem_append, if_pos rfl]
    by_cases h : c = new <;> simp [h, gone]
  · have kept : e' ∈ (if c = old then es.erase e else es) ↔ e' ∈ es := by
      split
      · exact List.mem_erase_of_ne same
      · rfl
    rw [arrivals, List.mem_append, kept, if_neg same]
    by_cases h : c = new <;> simp [h, same]

theorem nodup_arrivals (distinct : es.Nodup) (only : e ∈ es → c = old) :
    (arrivals e old new c es).Nodup := by
  have gone := not_mem_departed distinct only
  have kept : (if c = old then es.erase e else es).Nodup := by
    split
    · exact distinct.erase e
    · exact distinct
  unfold arrivals
  by_cases h : c = new
  · rw [if_pos h]
    refine List.nodup_append.2 ⟨kept, by simp, fun a member b single => ?_⟩
    rintro rfl
    exact gone (List.mem_singleton.1 single ▸ member)
  · rw [if_neg h, List.append_nil]
    exact kept

end

theorem Redirected.exists_live {moved : List EdgeId} {t : BlockId} {g g' : Graph}
    (redirected : Redirected moved t g g') {c : BlockId} {data : Block}
    (found : g.block? c = some data) (live : data.status = .live) :
    ∃ data', g'.block? c = some data' ∧ data'.status = .live := by
  obtain ⟨data', found', same⟩ := redirected.block.exists_block found
  exact ⟨data', found', (congrArg Block.status same).trans live⟩

theorem Matched.redirected {g g' : Graph} (matched : g.Matched) {e : EdgeId} {edge : Edge}
    (stored : g.edges.get? e = some edge) {t : BlockId} (inside : (g.block? t).isSome)
    (redirected : Redirected [e] t g g')
    (block : ∀ c, g'.block? c = (g.block? c).map fun data =>
      { data with preds := arrivals e edge.dst t c data.preds }) : g'.Matched := by
  refine ⟨matched.succs.congr (.of_map block fun _ _ => rfl) fun e' => ?_,
    ⟨fun {c data} found => ?_, fun {e' edge'} stored' => ?_⟩⟩
  · rw [redirected.edge, Option.map_map]
    congr 1
    funext edge'
    rw [Function.comp_apply]
    split <;> rfl
  · rw [block, Option.map_eq_some_iff] at found
    obtain ⟨data, found, rfl⟩ := found
    -- the edge is listed by its old destination, and by no other block
    have only : e ∈ data.preds → c = edge.dst := fun member => by
      obtain ⟨edge', stored', rfl⟩ := ((matched.preds.array found).2 e).1 member
      simp_all
    refine ⟨nodup_arrivals (matched.preds.array found).1 only, fun e' => ?_⟩
    rw [mem_arrivals (matched.preds.array found).1 only, redirected.edge]
    by_cases same : e' = e
    · simp [same, stored, eq_comm]
    · simp [same, (matched.preds.array found).2 e']
  · rw [redirected.edge, Option.map_eq_some_iff] at stored'
    obtain ⟨edge', stored', rfl⟩ := stored'
    rw [redirected.block.isSome_eq]
    split
    · exact inside
    · exact matched.preds.inside stored'

theorem Coherent.redirected {g g' : Graph} {xs : List BlockId} (coherent : g.Coherent xs)
    {e : EdgeId} {edge : Edge} (stored : g.edges.get? e = some edge) {t : BlockId} {new : Block}
    (foundNew : g.block? t = some new) (live : new.status = .live) (inner : t ≠ .entry)
    (redirected : Redirected [e] t g g')
    (block : ∀ c, g'.block? c = (g.block? c).map fun data =>
      { data with preds := arrivals e edge.dst t c data.preds }) : g'.Coherent xs := by
  have matched := coherent.matched.redirected stored (by simp [foundNew]) redirected block
  refine ⟨?laid, ?count, matched.succs.array, matched.preds.array, ?source, ?target⟩
  case laid =>
    exact coherent.laid.congr (.of_map block fun _ _ => rfl)
  case count =>
    rw [redirected.globals.liveCount, coherent.count]
  case source =>
    intro e' edge' stored'
    rw [redirected.edge, Option.map_eq_some_iff] at stored'
    obtain ⟨edge', stored', rfl⟩ := stored'
    obtain ⟨inside, inner, data, found, live⟩ := coherent.source stored'
    have src : (if e' ∈ [e] then { edge' with dst := t } else edge').src = edge'.src := by
      split <;> rfl
    rw [src]
    exact ⟨inside, inner, redirected.exists_live found live⟩
  case target =>
    intro e' edge' stored'
    rw [redirected.edge, Option.map_eq_some_iff] at stored'
    obtain ⟨edge', stored', rfl⟩ := stored'
    split
    · exact ⟨inner, redirected.exists_live foundNew live⟩
    · obtain ⟨inner, data, found, live⟩ := coherent.target stored'
      exact ⟨inner, redirected.exists_live found live⟩

theorem Matched.redirect_yields {allowed : Fault → Prop} {g : Graph} (matched : g.Matched)
    {e : EdgeId} {edge : Edge} (stored : g.edges.get? e = some edge) {t : BlockId} {new : Block}
    (foundNew : g.block? t = some new) :
    Yields allowed (g.redirect e t) fun g' => Redirected [e] t g g' ∧
      ∀ c, g'.block? c = (g.block? c).map fun data =>
        { data with preds := arrivals e edge.dst t c data.preds } := by
  rw [redirect, block_bind foundNew, edge_bind stored, update_bind (matched.preds.inside stored)]
  refine yields_of_eq_ok (update_eq_ok.2 ⟨?_, rfl⟩) ?_
  · change ((g.modify _ _).block? t).isSome
    simp [foundNew]
  set g' := Graph.modify _ _ _ with after
  have block : ∀ c, g'.block? c = (g.block? c).map fun data =>
      { data with preds := arrivals e edge.dst t c data.preds } := by
    intro c
    rw [after, block?_modify_eq_map]
    change ((g.modify _ _).block? c).map _ = _
    rw [block?_modify_eq_map, Option.map_map]
    congr 1
    funext data
    simp only [Function.comp_apply, arrivals]
    split <;> split <;> simp
  refine ⟨⟨.of_map block fun _ _ => rfl, fun e' => ?_, ⟨rfl, rfl, rfl, rfl⟩⟩, block⟩
  change (g.edges.modify e _).get? e' = _
  rw [EdgePool.get?_modify]
  by_cases same : e' = e <;> simp [same]

theorem redirect_yields {allowed : Fault → Prop} {g : Graph} {xs : List BlockId}
    (coherent : g.Coherent xs) {e : EdgeId} {edge : Edge} (stored : g.edges.get? e = some edge)
    {t : BlockId} {new : Block} (foundNew : g.block? t = some new) :
    Yields allowed (g.redirect e t) fun g' => Redirected [e] t g g' ∧
      ∀ c, g'.block? c = (g.block? c).map fun data =>
        { data with preds := arrivals e edge.dst t c data.preds } :=
  coherent.matched.redirect_yields stored foundNew

end Graph

end FlowGraph
