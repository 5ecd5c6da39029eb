import FlowGraph.Proofs.Splicing

/-! # Retiring a block

A block without edges leaves the layout: its neighbours are linked with each other, it loses
everything that belongs to its place in the graph, and it is entered in the list of retired blocks.
Only the status of a block that is not live can prevent this. -/

namespace FlowGraph

/-- What is left of a block once it has retired: its label and metadata, and nothing of the graph. -/
def Block.retire (d : Block) : Block :=
  { d.release with deadEnd := false, marked := false, status := .retired, prev := none, next := none }

/-- What is left of a block that leaves the layout in order to retire. -/
def Block.spent (d : Block) : Block :=
  { d.release with deadEnd := false, marked := false, status := .retired }

namespace Graph

/-! ## What retiring does -/

/-- The block `b` has retired from between `p` and `n`. -/
structure Retired (p b n : BlockId) (g g' : Graph) : Prop where
  front : g.Linked p b
  back : g.Linked b n
  block : ∀ c, g'.block? c = (g.block? c).map fun data =>
    if c = b then data.retire
    else data.relink (if c = n then some p else data.prev) (if c = p then some n else data.next)
  edges : g'.edges = g.edges
  liveCount : g'.liveCount = g.liveCount - 1
  retired : g'.retired = g.retired.push b
  labels : g'.labels = g.labels
  catcher : g'.catcher = g.catcher

namespace Retired

variable {p b n : BlockId} {g g' : Graph}

theorem relinked (retired : Retired p b n g g') {c : BlockId} (apart : c ≠ b) :
    g'.block? c = (g.block? c).map fun data =>
      data.relink (if c = n then some p else data.prev) (if c = p then some n else data.next) := by
  rw [retired.block]
  simp only [if_neg apart]

theorem block_of_ne (retired : Retired p b n g g') {c : BlockId} (apart : c ≠ b) {data : Block}
    (found : g.block? c = some data) : g'.block? c = some (data.relink
      (if c = n then some p else data.prev) (if c = p then some n else data.next)) := by
  rw [retired.relinked apart, found, Option.map_some]

theorem next?_of_ne (retired : Retired p b n g g') {c : BlockId} (apart : c ≠ b) :
    g'.next? c = if c = p then some n else g.next? c := by
  obtain ⟨data, found, -⟩ := exists_of_next? retired.front.1
  exact next?_relinked (retired.relinked apart) (Option.isSome_of_eq_some found)

theorem prev?_of_ne (retired : Retired p b n g g') {c : BlockId} (apart : c ≠ b) :
    g'.prev? c = if c = n then some p else g.prev? c := by
  obtain ⟨data, found, -⟩ := exists_of_prev? retired.back.2
  exact prev?_relinked (retired.relinked apart) (Option.isSome_of_eq_some found)

/-- Whatever led to the retired block in the layout leads to its successor now. -/
theorem next?_around {xs : List BlockId} (retired : Retired p b n g g') (laid : g.LaidOut xs)
    {c : BlockId} (member : c ∈ xs) (apart : c ≠ b) :
    g'.next? c = if g.next? c = some b then g.next? b else g.next? c := by
  rw [retired.next?_of_ne apart, retired.back.1]
  by_cases isFront : c = p
  · subst c
    rw [if_pos rfl, if_pos retired.front.1]
  · have notBefore : g.next? c ≠ some b := by
      intro link
      have before := (laid.next?_mem member link).2
      rw [retired.front.2] at before
      exact isFront (Option.some.inj before).symm
    rw [if_neg isFront, if_neg notBefore]

theorem exists_live (retired : Retired p b n g g') {c : BlockId} (apart : c ≠ b) {data : Block}
    (found : g.block? c = some data) (live : data.status = .live) :
    ∃ data', g'.block? c = some data' ∧ data'.status = .live :=
  ⟨_, retired.block_of_ne apart found, live⟩

end Retired

theorem LaidOut.retired {g g' : Graph} {l r : List BlockId} {p b n : BlockId}
    (laid : g.LaidOut (l ++ p :: b :: n :: r)) (retired : Retired p b n g g') :
    g'.LaidOut (l ++ p :: n :: r) := by
  have run : g.LaidOut (l ++ p :: ([b] ++ n :: r)) := laid
  refine run.bypass (fun c outside => retired.next?_of_ne (by simpa using outside))
    (fun c outside => retired.prev?_of_ne (by simpa using outside)) ?_
  simp [retired.block, laid.closed]

/-- A block without edges loses none. -/
theorem Retired.arrays {g g' : Graph} {p b n : BlockId} (retired : Retired p b n g g') {data : Block}
    (found : g.block? b = some data) (noSuccs : data.succs = []) (noPreds : data.preds = []) :
    SameBlocks (fun d => (d.succs, d.preds)) g g' := by
  intro c
  by_cases here : c = b
  · subst c
    simp [retired.block, found, noSuccs, noPreds, Block.retire, Block.release]
  · rw [retired.block, Option.map_map]
    congr 1
    funext data'
    rw [Function.comp_apply, if_neg here]
    rfl

theorem Coherent.retired {g g' : Graph} {l r : List BlockId} {p b n : BlockId}
    (coherent : g.Coherent (l ++ p :: b :: n :: r)) (retired : Retired p b n g g')
    {data : Block} (found : g.block? b = some data) (noSuccs : data.succs = [])
    (noPreds : data.preds = []) : g'.Coherent (l ++ p :: n :: r) := by
  -- the block lists no edges, so it is at neither end of any
  have untouched {e : EdgeId} {edge : Edge} (stored : g.edges.get? e = some edge) :
      edge.src ≠ b ∧ edge.dst ≠ b := by
    constructor
    · rintro rfl
      simpa [noSuccs] using coherent.mem_succs stored found
    · rintro rfl
      simpa [noPreds] using coherent.mem_preds stored found
  have matched := coherent.matched.congr (retired.arrays found noSuccs noPreds) fun e => by
    rw [retired.edges]
  refine ⟨coherent.laid.retired retired, ?count, matched.succs.array, matched.preds.array, ?source,
    ?target⟩
  case count =>
    rw [retired.liveCount, coherent.count]
    simp
  case source =>
    intro e edge stored
    rw [retired.edges] at stored
    obtain ⟨inside, inner, data', found', live⟩ := coherent.source stored
    refine ⟨?_, inner, retired.exists_live (untouched stored).1 found' live⟩
    simpa [(untouched stored).1] using inside
  case target =>
    intro e edge stored
    rw [retired.edges] at stored
    obtain ⟨inner, data', found', live⟩ := coherent.target stored
    exact ⟨inner, retired.exists_live (untouched stored).2 found' live⟩

theorem erase_between {l r : List BlockId} {p b n : BlockId}
    (distinct : (l ++ p :: b :: n :: r).Nodup) :
    (l ++ p :: b :: n :: r).erase b = l ++ p :: n :: r := by
  have absent : b ∉ l ++ [p] := by
    intro member
    have split : l ++ p :: b :: n :: r = (l ++ [p]) ++ b :: n :: r := by simp
    rw [split, List.nodup_append] at distinct
    exact distinct.2.2 b member b (by simp) rfl
  have split : l ++ p :: b :: n :: r = (l ++ [p]) ++ b :: n :: r := by simp
  rw [split, List.erase_append_right _ absent, List.erase_cons_head]
  simp

/-- All that retiring a block of the layout calls for is that it has no edges and is live. -/
theorem LaidOut.retire_yields {allowed : Fault → Prop} {g : Graph} {xs : List BlockId}
    (laid : g.LaidOut xs) (count : g.liveCount = xs.length) {b : BlockId} (member : b ∈ xs)
    (notEntry : b ≠ .entry) (notExit : b ≠ .exit) {data : Block} (found : g.block? b = some data)
    (noSuccs : data.succs = []) (noPreds : data.preds = [])
    (live : data.status = .live ∨ allowed (.cannotDetach b b)) :
    Yields allowed (g.retire b) fun g' =>
      ∃ l p n r, xs = l ++ p :: b :: n :: r ∧ Retired p b n g g' := by
  obtain ⟨l, p, n, r, rfl⟩ := laid.exists_around member notEntry notExit
  have distinct := laid.nodup
  have front : g.Linked p b := laid.linked (r := n :: r) rfl
  have back : g.Linked b n := laid.linked (l := l ++ [p]) (r := r) (by simp)
  have apart : p ∉ [b] ∧ n ∉ [b] := by
    simp only [List.nodup_append, List.nodup_cons, List.mem_cons] at distinct
    grind
  have counted : [b].length ≤ g.liveCount := by
    rw [count]
    exact List.length_pos_of_mem member
  have threaded : g.Threaded b b [b] := .self (Option.isSome_of_eq_some found)
  rw [retire, block_bind found, require_bind ⟨noSuccs, noPreds⟩]
  refine (threaded.detach_yields front back apart ⟨notEntry, notExit⟩ found counted live).bind ?_
  intro g₁ ⟨block, edges, liveCount, retired, labels, _, catcher⟩
  rw [update_bind (by simp [block, found])]
  have done : Retired p b n g { g₁.modify b Block.spent with retired := g₁.retired.push b } := by
    refine ⟨front, back, fun c => ?_, edges, liveCount, by rw [← retired], labels, catcher⟩
    change (g₁.modify b _).block? c = _
    rw [block?_modify_eq_map, block, Option.map_map]
    congr 1
    funext data
    by_cases atB : c = b
    · simp [atB, Block.retire, Block.spent, Block.release]
    · simp [atB, Block.relink]
  exact yields_pure ⟨l, p, n, r, rfl, done⟩

theorem retire_yields {allowed : Fault → Prop} {g : Graph} {xs : List BlockId}
    (coherent : g.Coherent xs) {b : BlockId} (member : b ∈ xs) (notEntry : b ≠ .entry)
    (notExit : b ≠ .exit) {data : Block} (found : g.block? b = some data)
    (noSuccs : data.succs = []) (noPreds : data.preds = [])
    (live : data.status = .live ∨ allowed (.cannotDetach b b)) :
    Yields allowed (g.retire b) fun g' =>
      (∃ p n, Retired p b n g g') ∧ g'.Coherent (xs.erase b) := by
  apply (coherent.laid.retire_yields coherent.count member notEntry notExit found noSuccs noPreds
    live).mono
  intro g' ⟨l, p, n, r, split, retired⟩
  subst split
  rw [erase_between coherent.laid.nodup]
  exact ⟨⟨p, n, retired⟩, coherent.retired retired found noSuccs noPreds⟩

end Graph

end FlowGraph
