import FlowGraph.Proofs.Build
import FlowGraph.Proofs.Change

/-! # Graphs that grow

As long as blocks come by being appended and go by retiring, every block is either in the layout and
live, or outside it and retired. No label is bound to entry and no edge leads there. Building keeps
this whatever the code: the edges it makes leave blocks of the layout, and an edge that does not lead
to a block of the layout follows a label. -/

namespace FlowGraph

/-- What a block holds of its place in the graph. -/
def Block.standing (d : Block) : Status × Option BlockId × Option BlockId := (d.status, d.prev, d.next)

namespace Graph

/-! ## What stays as the graph grows -/

/-- Blocks are live in the layout `xs` and retired outside, and nothing leads to entry. -/
structure Grown (g : Graph) (xs : List BlockId) : Prop where
  laid : g.LaidOut xs
  count : g.liveCount = xs.length
  enrolled : ∀ b data, g.block? b = some data →
    data.status = if b ∈ xs then .live else .retired
  bound : ∀ l, g.resolve l ≠ some .entry
  target : ∀ e edge, g.edges.get? e = some edge → edge.dst ≠ .entry

section

variable {g g' : Graph} {xs : List BlockId}

theorem Grown.of_same (grown : g.Grown xs) (same : SameBlocks Block.standing g g')
    (count : g'.liveCount = g.liveCount) (bound : ∀ l, g'.resolve l ≠ some .entry)
    (target : ∀ e edge, g'.edges.get? e = some edge → edge.dst ≠ .entry) : g'.Grown xs := by
  refine ⟨grown.laid.congr (same.weaken Prod.snd), count.trans grown.count, fun b data' found' => ?_,
    bound, target⟩
  obtain ⟨data, found, standing⟩ := same.symm.exists_block found'
  rw [← grown.enrolled b data found]
  exact (congrArg Prod.fst standing).symm

theorem Grown.modify (grown : g.Grown xs) (b : BlockId) {f : Block → Block}
    (unseen : ∀ data, (f data).standing = data.standing) : (g.modify b f).Grown xs :=
  grown.of_same (.modify g b unseen) rfl grown.bound grown.target

theorem Grown.mem_of_live (grown : g.Grown xs) {b : BlockId} {data : Block}
    (found : g.block? b = some data) (live : data.status = .live) : b ∈ xs := by
  have status := grown.enrolled b data found
  by_contra outside
  rw [if_neg outside, live] at status
  cases status

theorem Grown.bound_congr (grown : g.Grown xs) (labels : g'.labels = g.labels) (l : Label) :
    g'.resolve l ≠ some .entry := by
  rw [resolve, labels]
  exact grown.bound l

theorem Grown.rewired (grown : g.Grown xs) (rewired : Rewired g g')
    (target : ∀ e edge, g'.edges.get? e = some edge → edge.dst ≠ .entry) : g'.Grown xs :=
  grown.of_same (rewired.block.weaken Block.standing) rewired.globals.liveCount
    (grown.bound_congr rewired.globals.labels) target

theorem Grown.setMarks (grown : g.Grown xs) (bs : List BlockId) (marked : Bool) :
    (g.setMarks bs marked).Grown xs := by
  have remarked := remarked_setMarks bs marked g
  refine grown.of_same (remarked.block.weaken Block.standing) remarked.globals.liveCount
    (grown.bound_congr remarked.globals.labels) ?_
  rw [remarked.edges]
  exact grown.target

/-! ## A block that comes -/

/-- The new block `b` has come between `p` and exit. -/
structure Appended (p b : BlockId) (g g' : Graph) : Prop where
  absent : g.block? b = none
  block : ∀ c, g'.block? c =
    if c = b then
      some { Block.fresh with status := .live, prev := some p, next := some .exit }
    else (g.block? c).map fun data =>
      data.relink (if c = .exit then some b else data.prev) (if c = p then some b else data.next)
  edges : g'.edges = g.edges
  liveCount : g'.liveCount = g.liveCount + 1
  labels : g'.labels = g.labels

theorem append_yields {l : List BlockId} {p : BlockId} (laid : g.LaidOut (l ++ [p, .exit])) :
    Yields (fun _ => True) g.append fun (b, g') => Appended p b g g' := by
  obtain ⟨front, back⟩ := laid.linked (l := l) (r := []) rfl
  have created := g.block?_create
  have absent := g.block?_create_self
  have apart {c : BlockId} (inside : (g.block? c).isSome) : g.create.1 ≠ c := by
    rintro rfl
    rw [absent] at inside
    cases inside
  have notP : g.create.1 ≠ p := by
    obtain ⟨data, found, -⟩ := exists_of_next? front
    exact apart (Option.isSome_of_eq_some found)
  have notExit : g.create.1 ≠ .exit := apart laid.closed
  have outside : p ∉ [g.create.1] ∧ .exit ∉ [g.create.1] := by simp [notP.symm, notExit.symm]
  have link : g.create.2.Linked p .exit := by
    constructor
    · rw [← front, next?, created, if_neg notP.symm]
      rfl
    · rw [← back, prev?, created, if_neg notExit.symm]
      rfl
  have found : g.create.2.block? g.create.1 = some .fresh := by rw [created, if_pos rfl]
  obtain ⟨place, foundExit, -⟩ := exists_of_prev? link.2
  have threaded : g.create.2.Threaded g.create.1 g.create.1 [g.create.1] :=
    .self (Option.isSome_of_eq_some found)
  apply (threaded.attachBefore_yields link outside foundExit found (.inr trivial)
    (.inr trivial)).bind
  intro g' inserted
  have appended : Appended p g.create.1 g g' := by
    refine ⟨absent, fun c => ?_, inserted.edges, inserted.liveCount, inserted.labels⟩
    rw [inserted.block, created]
    by_cases here : c = g.create.1
    · simp [here, notP, notExit, Block.fresh]
    · simp only [if_neg here, List.mem_singleton]
      rfl
  exact yields_pure appended

theorem Appended.laidOut {l : List BlockId} {p b : BlockId} (appended : Appended p b g g')
    (laid : g.LaidOut (l ++ [p, .exit])) : g'.LaidOut (l ++ [p, b, .exit]) := by
  have outside : b ∉ l ++ [p, .exit] := by
    intro member
    obtain ⟨data, found⟩ := laid.exists_block member
    rw [appended.absent] at found
    cases found
  simp only [List.mem_append, List.mem_cons, List.not_mem_nil, or_false, not_or] at outside
  have distinct : (l ++ p :: ([b] ++ [.exit])).Nodup := by
    have before := laid.nodup
    simp only [List.nodup_append, List.nodup_cons, List.mem_cons] at before ⊢
    grind
  -- blocks that were there before have other neighbours at most
  have relinked {c : BlockId} (apart : c ≠ b) := (appended.block c).trans (if_neg apart)
  have head : [b].head? = some b := rfl
  have tail : [b].getLast? = some b := rfl
  refine laid.splice (.singleton b) head tail distinct (fun c => ?next) (fun c => ?prev) ?closed
  case next =>
    by_cases here : c = b
    · rw [next?, appended.block]
      simp [here, outside.2.1]
    · obtain ⟨data, found⟩ := laid.exists_block (b := p) (by simp)
      rw [next?_relinked (relinked here) (Option.isSome_of_eq_some found), if_neg here]
  case prev =>
    by_cases here : c = b
    · rw [prev?, appended.block]
      simp [here, outside.2.2]
    · rw [prev?_relinked (relinked here) laid.closed, if_neg here]
  case closed =>
    rw [appended.block, if_neg (Ne.symm outside.2.2), Option.isSome_map]
    exact laid.closed

theorem Grown.append_yields (grown : g.Grown xs) :
    Yields (fun _ => True) g.append fun (_, g') => ∃ xs', g'.Grown xs' := by
  obtain ⟨l, p, rfl⟩ : ∃ l p, xs = l ++ [p, .exit] := by
    have split := grown.laid.eq_dropLast_append
    have entered : .entry ∈ xs.dropLast := grown.laid.mem_dropLast.2 ⟨grown.laid.entry_mem, by decide⟩
    obtain empty | ⟨l, p, front⟩ := xs.dropLast.eq_nil_or_concat'
    · rw [empty] at entered
      cases entered
    · refine ⟨l, p, ?_⟩
      rw [split, front, List.append_assoc]
      rfl
  apply (Graph.append_yields grown.laid).mono
  intro (b, g') appended
  have laid := appended.laidOut grown.laid
  refine ⟨_, laid, ?count, fun c data found => ?enrolled,
    grown.bound_congr appended.labels, ?target⟩
  case count =>
    rw [appended.liveCount, grown.count]
    simp
  case enrolled =>
    rw [appended.block] at found
    by_cases here : c = b
    · rw [if_pos here] at found
      cases found
      simp [here]
    · rw [if_neg here, Option.map_eq_some_iff] at found
      obtain ⟨data, found, rfl⟩ := found
      have status := grown.enrolled c data found
      simp only [List.mem_append, List.mem_cons, List.not_mem_nil, here, false_or, or_false] at status ⊢
      exact status
  case target =>
    rw [appended.edges]
    exact grown.target

/-! ## A block that goes -/

theorem Grown.retire_yields (grown : g.Grown xs) (b : BlockId) :
    Yields (fun _ => True) (g.retire b) fun g' => g'.Grown (xs.erase b) := by
  apply yields_of_forall
  intro g' ran
  obtain ⟨data, g₁, found, noSuccs, noPreds, detached, -⟩ :=
    (retire_yields_relaid g b).of_eq_ok ran
  obtain ⟨notEntry, notExit, live⟩ := live_of_detach detached found
  have member := grown.mem_of_live found live
  have result : Yields (fun _ => True) (g.retire b) _ :=
    grown.laid.retire_yields grown.count member notEntry notExit found noSuccs noPreds (.inl live)
  obtain ⟨l, p, n, r, rfl, retired⟩ := result.of_eq_ok ran
  have distinct := grown.laid.nodup
  have erased := erase_between distinct
  refine ⟨?laid, ?count, fun c data' found' => ?enrolled, grown.bound_congr retired.labels, ?target⟩
  case laid =>
    rw [erased]
    exact grown.laid.retired retired
  case count =>
    rw [erased, retired.liveCount, grown.count]
    simp
  case enrolled =>
    rw [retired.block, Option.map_eq_some_iff] at found'
    obtain ⟨data₀, found₀, rfl⟩ := found'
    by_cases here : c = b
    · subst c
      rw [if_pos rfl, if_neg distinct.not_mem_erase]
      rfl
    · rw [if_neg here]
      simp only [List.mem_erase_of_ne here]
      exact grown.enrolled c data₀ found₀
  case target =>
    rw [retired.edges]
    exact grown.target

/-! ## Changes -/

theorem Grown.disconnect_yields (grown : g.Grown xs) (e : EdgeId) :
    Yields (fun _ => True) (g.disconnect e) fun g' => g'.Grown xs := by
  apply (Rewired.disconnect_yields g e).mono
  intro g' ⟨rewired, edges⟩
  refine grown.rewired rewired fun e' edge stored => ?_
  rw [edges, EdgePool.get?_dealloc] at stored
  split at stored
  · cases stored
  · exact grown.target e' edge stored

theorem Grown.redirect_yields (grown : g.Grown xs) (e : EdgeId) {t : BlockId} (inner : t ≠ .entry) :
    Yields (fun _ => True) (g.redirect e t) fun g' => g'.Grown xs := by
  apply (Rewired.redirect_yields g e t).mono
  intro g' ⟨rewired, edges⟩
  refine grown.rewired rewired fun e' edge stored => ?_
  rw [edges, EdgePool.get?_modify] at stored
  split at stored
  · obtain ⟨edge, -, rfl⟩ := Option.map_eq_some_iff.1 stored
    exact inner
  · exact grown.target e' edge stored

theorem Grown.change (change : Change g g') (grown : ∃ xs, g.Grown xs) : ∃ xs, g'.Grown xs := by
  obtain ⟨xs, grown⟩ := grown
  cases change with
  | forget => exact ⟨xs, grown.of_same (.refl _ g) rfl grown.bound grown.target⟩
  | recode b f code =>
    refine ⟨xs, grown.modify b fun data => ?_⟩
    have same := congrArg Block.standing (code data)
    exact same
  | recast e kind =>
    refine ⟨xs, grown.of_same (.refl _ g) rfl grown.bound fun e' edge stored => ?_⟩
    rw [EdgePool.get?_modify] at stored
    split at stored
    · obtain ⟨edge₀, stored₀, rfl⟩ := Option.map_eq_some_iff.1 stored
      exact grown.target e' edge₀ stored₀
    · exact grown.target e' edge stored
  | unlabel b => exact ⟨xs, grown.modify b fun _ => rfl⟩
  | relabel t l led found old =>
    -- an edge leads to `t`, so it is not entry
    obtain ⟨e, edge, stored, rfl⟩ := led
    refine ⟨xs, grown.of_same (.modify _ _ fun _ => rfl) rfl (fun l' here => ?_) grown.target⟩
    change (g.labels.set l _).resolve l' = _ at here
    rw [LabelTable.resolve, LabelTable.get?_set] at here
    split at here
    · rename_i same
      rw [same, old] at here
      exact grown.target e edge stored (Option.some.inj here)
    · exact grown.bound l' here
  | disconnect ran => exact ⟨xs, (grown.disconnect_yields _).of_eq_ok ran⟩
  | redirect led ran =>
    obtain ⟨e, edge, stored, rfl⟩ := led
    exact ⟨xs, (grown.redirect_yields _ (grown.target e edge stored)).of_eq_ok ran⟩
  | retire ran => exact ⟨_, (grown.retire_yields _).of_eq_ok ran⟩

/-! ## Building -/

/-- A planned edge leaves a block of the layout. It leads to one as well, unless it follows a label
out of the layout. -/
theorem Grown.of_planned {es : List Edge} (grown : g.Grown xs) (planned : g.planned = .ok es) :
    ∀ edge ∈ es, edge.src ∈ xs ∧ edge.src ≠ .exit ∧ edge.dst ≠ .entry ∧
      (edge.dst ∈ xs ∨ edge.kind.isExplicit = true ∧ ∃ l, g.resolve l = some edge.dst) := by
  have laid := grown.laid
  obtain ⟨plannable, rfl⟩ := (planned_eq_ok laid.body_eq).1 planned
  intro edge member
  obtain ⟨b, inBody, member⟩ := List.mem_flatMap.1 member
  obtain ⟨⟨dst, kind⟩, inOut, rfl⟩ := List.mem_map.1 member
  obtain ⟨inside, inner⟩ := laid.mem_dropLast.1 inBody
  refine ⟨inside, inner, ?_⟩
  obtain ⟨data, found⟩ := laid.exists_block inside
  have outgoing := (plannable b inBody).1
  rw [outgoing_eq (view_eq found), bind_eq_ok] at outgoing
  obtain ⟨explicit, called, split⟩ := outgoing
  rw [← Except.ok.inj split, List.mem_append] at inOut
  obtain inExplicit | inFall := inOut
  · obtain ⟨isExplicit, ⟨rfl, -⟩ | ⟨l, bound⟩⟩ := mem_calls called inExplicit
    · have apart : BlockId.exit ≠ .entry := by decide
      exact ⟨apart, .inl laid.exit_mem⟩
    · refine ⟨?_, .inr ⟨isExplicit, l, bound⟩⟩
      rintro rfl
      exact grown.bound l bound
  · have next := (View.mem_fall.1 inFall).2.1
    exact ⟨laid.next?_ne_entry inside next, .inl (laid.next?_mem inside next).1⟩

theorem Grown.build_yields (grown : g.Grown xs) :
    Yields (fun _ => True) g.build fun g' => g'.Grown xs ∧
      ∀ e edge, g'.edges.get? e = some edge → edge.src ∈ xs ∧ edge.src ≠ .exit ∧
        (edge.dst ∈ xs ∨ edge.kind.isExplicit = true ∧ ∃ l, g'.resolve l = some edge.dst) := by
  apply (Graph.build_yields g).mono
  intro g' ⟨es, planned, connected⟩
  have resolve := resolve_congr connected.globals.labels
  have planned (e : EdgeId) (edge : Edge) (stored : g'.edges.get? e = some edge) :=
    grown.of_planned planned edge
      (List.mem_of_getElem? ((connected.get?_eq e).symm.trans stored))
  have same : SameBlocks Block.standing g g' := .of_map connected.block fun _ _ => rfl
  constructor
  · refine grown.of_same same connected.globals.liveCount
      (grown.bound_congr connected.globals.labels) fun e edge stored => ?_
    obtain ⟨-, -, inner, -⟩ := planned e edge stored
    exact inner
  · intro e edge stored
    obtain ⟨inside, inner, -, lead⟩ := planned e edge stored
    simp only [resolve]
    exact ⟨inside, inner, lead⟩

end

end Graph

end FlowGraph
