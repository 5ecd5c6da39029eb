import FlowGraph.Proofs.Elimination
import FlowGraph.Proofs.Labels

/-! # Views of blocks

Which handles the edges of a block have is of no consequence. What counts is where they lead and of
what kind they are, in the order of the array. A view of a block holds these arrows together with
the instructions, the primary label and the dead end, so that the changes a pass makes can be told
block by block. -/

namespace FlowGraph

def Edge.arrow (edge : Edge) : BlockId × EdgeKind := (edge.dst, edge.kind)

/-- An arrow whose destination is `b` leads to `t` instead, if its kind is among those sent on. -/
def sendOn (b t : BlockId) (sent : EdgeKind → Bool) (a : BlockId × EdgeKind) : BlockId × EdgeKind :=
  if a.1 = b ∧ sent a.2 then (t, a.2) else a

structure View where
  instrs : List Instr
  label : Option Label
  deadEnd : Bool
  arrows : List (BlockId × EdgeKind)

namespace Graph

def arrows (g : Graph) (es : List EdgeId) : List (BlockId × EdgeKind) :=
  es.filterMap fun e => (g.edges.get? e).map Edge.arrow

/-- A block of the graph as it is seen from outside. -/
def look (g : Graph) (data : Block) : View :=
  ⟨data.instrs, data.label, data.deadEnd, g.arrows data.succs⟩

def view (g : Graph) (b : BlockId) : Option View := (g.block? b).map g.look

section

variable {g g' : Graph} {b c : BlockId} {data : Block} {v : View} {es : List EdgeId}

theorem view_eq (found : g.block? b = some data) : g.view b = some (g.look data) := by
  rw [view, found, Option.map_some]

theorem exists_of_view (seen : g.view b = some v) :
    ∃ data, g.block? b = some data ∧ g.look data = v :=
  Option.map_eq_some_iff.1 seen

theorem isSome_view : (g.view b).isSome = (g.block? b).isSome := by
  simp [view]

theorem arrows_congr (same : ∀ e ∈ es, g'.edges.get? e = g.edges.get? e) :
    g'.arrows es = g.arrows es :=
  List.filterMap_congr fun e member => by rw [same e member]

@[simp] theorem arrows_nil : g.arrows [] = [] := rfl

theorem arrows_cons {e : EdgeId} {edge : Edge} (stored : g.edges.get? e = some edge) :
    g.arrows (e :: es) = edge.arrow :: g.arrows es := by
  simp [arrows, stored]

/-- Destinations and kinds of the edges that leave `b`, in the order of its array. -/
def successors (g : Graph) (b : BlockId) : Except Fault (List (BlockId × EdgeKind)) :=
  (g.outEdges b).map fun out => out.map fun (_, edge) => edge.arrow

theorem edgesOf_eq (stored : ∀ e ∈ es, (g.edges.get? e).isSome) :
    ∃ out, g.edgesOf es = .ok out ∧ out.map (fun (_, edge) => edge.arrow) = g.arrows es := by
  induction es with
  | nil => exact ⟨[], rfl, rfl⟩
  | cons e es ih =>
    obtain ⟨edge, here⟩ := Option.isSome_iff_exists.1 (stored e (List.mem_cons_self ..))
    obtain ⟨out, listed, same⟩ := ih fun e' member => stored e' (List.mem_cons_of_mem _ member)
    refine ⟨(e, edge) :: out, mapM_eq_ok.2 (.cons ?_ (mapM_eq_ok.1 listed)), ?_⟩
    · rw [edge_bind here]
      rfl
    · rw [List.map_cons, same, arrows_cons here]

theorem successors_eq (found : g.block? b = some data)
    (stored : ∀ e ∈ data.succs, (g.edges.get? e).isSome) :
    g.successors b = .ok (g.arrows data.succs) := by
  obtain ⟨out, listed, same⟩ := edgesOf_eq stored
  rw [successors, outEdges, block_bind found, listed, ← same]
  rfl

theorem view_congr (edges : g'.edges = g.edges)
    (same : (g'.block? c).map (fun d => (d.instrs, d.label, d.deadEnd, d.succs)) =
      (g.block? c).map fun d => (d.instrs, d.label, d.deadEnd, d.succs)) :
    g'.view c = g.view c := by
  have read (h : Graph) : h.view c = ((h.block? c).map fun d =>
      (d.instrs, d.label, d.deadEnd, d.succs)).map fun t => ⟨t.1, t.2.1, t.2.2.1, h.arrows t.2.2.2⟩ := by
    rw [Option.map_map]
    rfl
  have arrows : g'.arrows = g.arrows := by
    funext es
    exact arrows_congr fun e _ => by rw [edges]
  rw [read, read, same, arrows]

end

/-! ## In a coherent graph -/

namespace Coherent

variable {g : Graph} {xs : List BlockId} {b : BlockId} {v : View}

theorem mem_arrows (coherent : g.Coherent xs) (seen : g.view b = some v) {a : BlockId × EdgeKind} :
    a ∈ v.arrows ↔ ∃ e edge, g.edges.get? e = some edge ∧ edge.src = b ∧ edge.arrow = a := by
  obtain ⟨data, found, rfl⟩ := exists_of_view seen
  simp only [look, arrows, List.mem_filterMap, Option.map_eq_some_iff]
  constructor
  · intro ⟨e, member, edge, stored, here⟩
    obtain ⟨edge', stored', src⟩ := coherent.edge_of_mem_succs found member
    rw [stored] at stored'
    cases stored'
    exact ⟨e, edge, stored, src, here⟩
  · rintro ⟨e, edge, stored, rfl, here⟩
    exact ⟨e, coherent.mem_succs stored found, edge, stored, here⟩

theorem length_arrows (coherent : g.Coherent xs) {data : Block} (found : g.block? b = some data) :
    (g.arrows data.succs).length = data.succs.length := by
  apply List.filterMap_length_eq_length.2
  intro e member
  obtain ⟨edge, stored, -⟩ := coherent.edge_of_mem_succs found member
  simp [stored]

theorem successors_eq (coherent : g.Coherent xs) (seen : g.view b = some v) :
    g.successors b = .ok v.arrows := by
  obtain ⟨data, found, rfl⟩ := exists_of_view seen
  apply Graph.successors_eq found
  intro e member
  obtain ⟨edge, stored, -⟩ := coherent.edge_of_mem_succs found member
  exact Option.isSome_of_eq_some stored

theorem of_mem_arrows (coherent : g.Coherent xs) (seen : g.view b = some v)
    {a : BlockId × EdgeKind} (member : a ∈ v.arrows) : b ∈ xs ∧ b ≠ .exit := by
  obtain ⟨e, edge, stored, rfl, -⟩ := (coherent.mem_arrows seen).1 member
  obtain ⟨inside, inner, -⟩ := coherent.source stored
  exact ⟨inside, inner⟩

end Coherent

/-! ## Changes -/

section

variable {g g' : Graph} {xs : List BlockId}

theorem Pruned.view {gone : List EdgeId} (pruned : Pruned gone g g') (c : BlockId) :
    g'.view c = (g.block? c).map fun data =>
      ⟨data.instrs, data.label, data.deadEnd, g.arrows (data.succs.filter (· ∉ gone))⟩ := by
  rw [Graph.view, pruned.block, Option.map_map]
  congr 1
  funext data
  have same : g'.arrows (data.unlist gone).succs = g.arrows (data.succs.filter (· ∉ gone)) := by
    apply arrows_congr
    intro e member
    rw [Block.mem_succs_unlist] at member
    rw [pruned.edge, if_neg member.2]
  simp only [Function.comp_apply, look, same]
  rfl

theorem Pruned.view_of_ne {e : EdgeId} {edge : Edge} (pruned : Pruned [e] g g')
    (coherent : g.Coherent xs) (stored : g.edges.get? e = some edge) {c : BlockId}
    (apart : c ≠ edge.src) : g'.view c = g.view c := by
  rw [pruned.view, Graph.view]
  cases found : g.block? c with
  | none => rfl
  | some data =>
    -- only the source of the edge lists it as outgoing
    have kept : data.succs.filter (· ∉ [e]) = data.succs := by
      apply List.filter_eq_self.2
      intro e' member
      obtain ⟨edge', stored', rfl⟩ := coherent.edge_of_mem_succs found member
      have other : e' ≠ e := by
        intro same
        rw [same, stored] at stored'
        cases stored'
        exact apart rfl
      simp [other]
    rw [Option.map_some, Option.map_some, kept]
    rfl

theorem Redirected.view {moved : List EdgeId} {b t : BlockId} (redirected : Redirected moved t g g')
    (sent : EdgeKind → Bool) (exactly : ∀ e edge, g.edges.get? e = some edge →
      (e ∈ moved ↔ edge.dst = b ∧ sent edge.kind)) (c : BlockId) :
    g'.view c = (g.view c).map fun v => { v with arrows := v.arrows.map (sendOn b t sent) } := by
  -- arrow by arrow, wherever the edges are listed
  have arrows (es : List EdgeId) : g'.arrows es = (g.arrows es).map (sendOn b t sent) := by
    rw [Graph.arrows, Graph.arrows, List.map_filterMap]
    apply List.filterMap_congr
    intro e _
    rw [redirected.edge]
    cases stored : g.edges.get? e with
    | none => rfl
    | some edge =>
      simp only [Option.map_some, Edge.arrow, sendOn, exactly e edge stored]
      split <;> rfl
  have block := redirected.block c
  rw [Graph.view, Graph.view, Option.map_map]
  cases found : g.block? c with
  | none =>
    rw [found, Option.map_none, Option.map_eq_none_iff] at block
    simp [block]
  | some data =>
    rw [found, Option.map_some] at block
    obtain ⟨data', found', same⟩ := Option.map_eq_some_iff.1 block
    simp only [Block.withoutPreds, Block.mk.injEq] at same
    simp [found', look, same, arrows]

theorem Retired.view {p b n : BlockId} (retired : Retired p b n g g') {c : BlockId} (apart : c ≠ b) :
    g'.view c = g.view c := by
  refine view_congr retired.edges ?_
  rw [retired.block, Option.map_map]
  congr 1
  funext data
  rw [Function.comp_apply, if_neg apart]
  rfl

theorem Eliminated.view {gone : List BlockId} (eliminated : Eliminated xs gone g g')
    (coherent : g.Coherent xs) {c : BlockId} (kept : c ∉ gone) : g'.view c = g.view c := by
  have core := eliminated.core c kept
  rw [Graph.view, Graph.view]
  cases found : g.block? c with
  | none =>
    rw [found, Option.map_none, Option.map_eq_none_iff] at core
    simp [core]
  | some data =>
    rw [found, Option.map_some] at core
    obtain ⟨data', found', same⟩ := Option.map_eq_some_iff.1 core
    simp only [Block.core, Block.mk.injEq] at same
    have arrows : g'.arrows data.succs = g.arrows data.succs := by
      apply arrows_congr
      intro e member
      obtain ⟨edge, stored, rfl⟩ := coherent.edge_of_mem_succs found member
      rw [eliminated.edge, stored]
      simp [kept]
    simp [found', look, same, arrows]

theorem Relabelled.exists_view (relabelled : Relabelled g g') {c : BlockId} {v : View}
    (seen : g.view c = some v) : ∃ data, g'.block? c = some data ∧
      g'.view c = some { v with label := data.label } := by
  obtain ⟨data, found, rfl⟩ := exists_of_view seen
  obtain ⟨data', found', same⟩ := relabelled.block.exists_block found
  simp only [Block.withoutLabel, Block.mk.injEq] at same
  have arrows : g'.arrows data.succs = g.arrows data.succs :=
    arrows_congr fun e _ => by rw [relabelled.edges]
  refine ⟨data', found', ?_⟩
  rw [view_eq found']
  simp [look, same, arrows]

end

end Graph

end FlowGraph
