import FlowGraph.Simplify.Rule
import FlowGraph.Proofs.Agreement
import FlowGraph.Proofs.Evolution

/-! # Folding branches

Both folds change one block: its last instruction, its dead end and its arrows. Everything else in
the graph keeps its place, so that a fold is told by what the block looked like before and what it
looks like afterwards. -/

namespace FlowGraph

theorem Block.modifyLast_eq {data : Block} {i : Instr} (last : data.last? = some i)
    (f : Instr → Instr) :
    data.modifyLast f = { data with instrs := data.instrs.dropLast ++ [f i] } := by
  rw [modifyLast, show data.instrs.getLast? = some i from last]

theorem Block.exists_modifyLast (data : Block) (f : Instr → Instr) :
    ∃ instrs, data.modifyLast f = { data with instrs := instrs } := by
  unfold modifyLast
  split
  · exact ⟨_, rfl⟩
  · exact ⟨data.instrs, rfl⟩

theorem Block.frame_modifyLast (data : Block) (f : Instr → Instr) :
    (data.modifyLast f).frame = data.frame ∧ (data.modifyLast f).marked = data.marked := by
  obtain ⟨instrs, same⟩ := data.exists_modifyLast f
  rw [same]
  exact ⟨rfl, rfl⟩

namespace Graph

/-- The block `b` looks like `v'` instead of `v`, and nothing else has changed. -/
structure Recoded (b : BlockId) (v v' : View) (g g' : Graph) : Prop where
  before : g.view b = some v
  after : g'.view b = some v'
  other : ∀ c, c ≠ b → g'.view c = g.view c
  next : ∀ c, g'.next? c = g.next? c
  labels : g'.labels = g.labels
  catcher : g'.catcher = g.catcher

section

variable {g g' : Graph} {xs : List BlockId} {b : BlockId}

theorem view_modify (g : Graph) (b c : BlockId) (f : Block → Block) :
    (g.modify b f).view c = (g.block? c).map fun data => g.look (if c = b then f data else data) := by
  rw [view, block?_modify_eq_map, Option.map_map]
  rfl

theorem Recoded.agrees {v v' : View} (recoded : Recoded b v v' g g') (agrees : g.Agrees xs)
    (own : ∃ explicit, g.calls b v'.last? = .ok explicit ∧
      v'.arrows = explicit ++ v'.fall (g.next? b)) : g'.Agrees xs := by
  intro c member inner u seen
  rw [calls_congr (resolve_congr recoded.labels) recoded.catcher, recoded.next]
  by_cases here : c = b
  · subst c
    rw [recoded.after] at seen
    cases seen
    exact own
  · rw [recoded.other c here] at seen
    exact agrees c member inner u seen

/-! ## Branches to the next block -/

/-- The branch of `b` to the next block has gone, and what is left of `b` falls through. -/
structure BranchFolded (b n : BlockId) (v : View) (rest : List (BlockId × EdgeKind))
    (g g' : Graph) : Prop where
  recoded : Recoded b v
    { v with
      instrs := v.instrs.dropLast ++ [.plain .nop]
      deadEnd := v.deadEnd && !rest.isEmpty
      arrows := if rest = [] then [(n, .fallthru)] else rest } g g'
  arrows : v.arrows = (n, .branch) :: rest
  next : g.next? b = some n
  last : v.last?.any (·.opcode.isBranch) = true

theorem Coherent.modify (coherent : g.Coherent xs) {f : Block → Block}
    (frame : ∀ data, (f data).frame = data.frame) : (g.modify b f).Coherent xs := by
  refine coherent.congr (.of_map (block?_modify_eq_map g b · f) fun c data => ?_) (fun _ => rfl) rfl
  split
  · exact frame data
  · rfl

theorem recoded_of_pruned (coherent : g.Coherent xs) {data data' : Block} {e : EdgeId} {edge : Edge}
    {f : Block → Block} (found : g.block? b = some data) (stored : g.edges.get? e = some edge)
    (src : edge.src = b) (changed : f data = data')
    (frame : ∀ d, (f d).frame = d.frame ∧ (f d).marked = d.marked)
    (pruned : Pruned [e] (g.modify b f) g') :
    Evolves xs xs g g' ∧ Recoded b (g.look data) ⟨data'.instrs, data'.label, data'.deadEnd,
      g.arrows (data.succs.filter (· ∉ [e]))⟩ g g' := by
  have coherent₁ : (g.modify b f).Coherent xs := coherent.modify fun d => (frame d).1
  have found₁ : (g.modify b f).block? b = some data' := by
    rw [block?_modify, if_pos rfl, found, Option.map_some, changed]
  have succs : data'.succs = data.succs := by
    rw [← changed]
    have same := (frame data).1
    simp only [Block.frame, Prod.mk.injEq] at same
    exact same.2.2.2.1
  -- neither the change of the block nor the deletion touches statuses, links or marks
  have placed : SameBlocks (fun d => (d.status, d.next, d.marked)) g g' := by
    have first : SameBlocks (fun d => (d.status, d.next, d.marked)) g (g.modify b f) := by
      refine .of_map (block?_modify_eq_map g b · f) fun c d => ?_
      have same := (frame d).1
      simp only [Block.frame, Prod.mk.injEq] at same
      split
      · simp only [same.1, same.2.2.1, (frame d).2]
      · rfl
    exact first.trans (.of_map pruned.block fun c d => rfl)
  have next := placed.weaken fun t => t.2.1
  refine ⟨.of_same (coherent₁.pruned pruned) (placed.weaken fun t => (t.1, t.2.2)),
    view_eq found, ?_, fun c apart => ?_, next?_congr next, pruned.globals.labels,
    pruned.globals.catcher⟩
  · rw [pruned.view, found₁, Option.map_some, succs]
    rfl
  · rw [pruned.view_of_ne coherent₁ stored (src ▸ apart), view_modify, view]
    simp only [if_neg apart]

theorem recoded_of_recast (coherent : g.Coherent xs) {data data' : Block} {e : EdgeId} {edge : Edge}
    {f : Block → Block} (found : g.block? b = some data) (stored : g.edges.get? e = some edge)
    (src : edge.src = b) (only : data.succs = [e]) (changed : f data = data')
    (frame : ∀ d, (f d).frame = d.frame ∧ (f d).marked = d.marked)
    (block : ∀ c, g'.block? c = (g.block? c).map fun d => if c = b then f d else d)
    (recast : ∀ e', g'.edges.get? e' = if e' = e then
      (g.edges.get? e').map ({ · with kind := .fallthru }) else g.edges.get? e')
    (globals : SameGlobals g g') :
    Evolves xs xs g g' ∧ Recoded b (g.look data)
      ⟨data'.instrs, data'.label, data'.deadEnd, [(edge.dst, .fallthru)]⟩ g g' := by
  have found' : g'.block? b = some data' := by
    rw [block, found, Option.map_some, if_pos rfl, changed]
  have placed : SameBlocks (fun d => (d.frame, d.marked)) g g' := by
    refine .of_map block fun c d => ?_
    split
    · rw [(frame d).1, (frame d).2]
    · rfl
  have succs : data'.succs = [e] := by
    have same := (frame data).1
    rw [changed] at same
    simp only [Block.frame, Prod.mk.injEq] at same
    exact same.2.2.2.1.trans only
  have coherent' : g'.Coherent xs := by
    refine coherent.congr (placed.weaken Prod.fst) (fun e' => ?_) globals.liveCount
    rw [recast]
    split
    · rw [Option.map_map]
      rfl
    · rfl
  have next := placed.weaken fun t => t.1.2.2.1
  refine ⟨.of_same coherent' (placed.weaken fun t => (t.1.1, t.2)), view_eq found, ?_,
    fun c apart => ?_, next?_congr next, globals.labels, globals.catcher⟩
  · have stored' : g'.edges.get? e = some { edge with kind := .fallthru } := by
      rw [recast, if_pos rfl, stored, Option.map_some]
    rw [view_eq found', look, succs, arrows_cons stored', arrows_nil]
    rfl
  · rw [view, view, block]
    cases foundC : g.block? c with
    | none => rfl
    | some d =>
      -- another block does not list the edge, so its arrows are as they were
      have same : g'.arrows d.succs = g.arrows d.succs := by
        refine arrows_congr fun e' member => ?_
        obtain ⟨edge', stored', there⟩ := coherent.edge_of_mem_succs foundC member
        have other : e' ≠ e := by
          intro same
          rw [same, stored] at stored'
          cases stored'
          exact apart (there.symm.trans src)
        rw [recast, if_neg other]
      simp only [Option.map_some, if_neg apart, look, same]

section

variable {data : Block} {e f : EdgeId} {edge : Edge} {rest : List EdgeId}
  (coherent : g.Coherent xs) (found : g.block? b = some data)
  (stored : g.edges.get? e = some edge) (src : edge.src = b) (branch : edge.kind = .branch)
  (next : data.next = some edge.dst) (last : data.last?.any (·.opcode.isBranch) = true)
include coherent found stored src branch next last

theorem branchFolded_of_only (out : data.succs = [e]) :
    let g' : Graph := { (g.modify b (·.modifyLast fun _ => .plain .nop)).modify b
        ({ · with deadEnd := false }) with
      edges := g.edges.modify e ({ · with kind := .fallthru }), order := none }
    Evolves xs xs g g' ∧ BranchFolded b edge.dst (g.look data) [] g g' := by
  intro g'
  obtain ⟨i, isLast, -⟩ := (Option.any_eq_true _ _).1 last
  have block (c : BlockId) : g'.block? c = (g.block? c).map fun d =>
      if c = b then { d.modifyLast fun _ => .plain .nop with deadEnd := false } else d := by
    change ((g.modify b _).modify b _).block? c = _
    rw [block?_modify_eq_map, block?_modify_eq_map, Option.map_map]
    congr 1
    funext d
    by_cases here : c = b <;> simp [here]
  have recast (e' : EdgeId) : g'.edges.get? e' = if e' = e then
      (g.edges.get? e').map ({ · with kind := .fallthru }) else g.edges.get? e' :=
    EdgePool.get?_modify g.edges e e' _
  obtain ⟨evolves, recoded⟩ := recoded_of_recast coherent found stored src out
    (f := fun d => { d.modifyLast fun _ => .plain .nop with deadEnd := false }) rfl
    (fun d => d.frame_modifyLast _) block recast ⟨rfl, rfl, rfl, rfl⟩
  refine ⟨evolves, ?_, ?_, (next?_eq found).trans next, last⟩
  · rw [Block.modifyLast_eq isLast] at recoded
    simpa [look] using recoded
  · rw [look, out, arrows_cons stored, ← branch]
    rfl

theorem branchFolded_of_pruned (out : data.succs = e :: f :: rest)
    (pruned : Pruned [e] (g.modify b (·.modifyLast fun _ => .plain .nop)) g') :
    Evolves xs xs g g' ∧ BranchFolded b edge.dst (g.look data) (g.arrows (f :: rest)) g g' := by
  obtain ⟨i, isLast, -⟩ := (Option.any_eq_true _ _).1 last
  obtain ⟨evolves, recoded⟩ := recoded_of_pruned coherent found stored src
    (Block.modifyLast_eq isLast fun _ => .plain .nop) (fun d => d.frame_modifyLast _) pruned
  -- no edge is listed twice, so what is left of the array is its tail
  have kept : data.succs.filter (· ∉ [e]) = f :: rest := by
    have distinct := (coherent.succs found).1
    rw [out, List.nodup_cons] at distinct
    rw [out, List.filter_cons_of_neg (by simp), List.filter_eq_self]
    intro e' member
    have apart : e' ≠ e := fun same => distinct.1 (same ▸ member)
    simp [apart]
  obtain ⟨edge', stored', -⟩ := coherent.edge_of_mem_succs found (e := f) (by simp [out])
  refine ⟨evolves, ?_, ?_, (next?_eq found).trans next, last⟩
  · rw [kept] at recoded
    simpa [arrows_cons stored', look] using recoded
  · rw [look, out, arrows_cons stored, ← branch]
    rfl

end

theorem foldBranch_yields {allowed : Fault → Prop} (coherent : g.Coherent xs)
    (inside : (g.block? b).isSome) : Yields allowed (foldBranch g b) fun (g', r) =>
      (r = none ∧ g' = g) ∨ r = some (.branchFolded b) ∧ Evolves xs xs g g' ∧
        ∃ n v rest, BranchFolded b n v rest g g' := by
  obtain ⟨data, found⟩ := Option.isSome_iff_exists.1 inside
  rw [foldBranch, block_bind found]
  cases out : data.succs with
  | nil => exact yields_pure (.inl ⟨rfl, rfl⟩)
  | cons e rest =>
    obtain ⟨edge, stored, src⟩ := coherent.edge_of_mem_succs found (e := e) (by simp [out])
    simp only
    rw [edge_bind stored]
    split
    · rename_i applies
      obtain ⟨branch, next, last⟩ := applies
      cases rest with
      | nil =>
        rw [if_pos rfl, pure_bind_fault]
        obtain ⟨evolves, folded⟩ :=
          branchFolded_of_only coherent found stored src branch next last out
        exact yields_pure (.inr ⟨rfl, evolves, _, _, _, folded⟩)
      | cons f rest =>
        rw [if_neg (by simp)]
        have coherent₁ : (g.modify b (·.modifyLast fun _ => .plain .nop)).Coherent xs :=
          coherent.modify fun d => (d.frame_modifyLast _).1
        apply (disconnect_yields coherent₁ stored).bind
        intro g' pruned
        obtain ⟨evolves, folded⟩ :=
          branchFolded_of_pruned coherent found stored src branch next last out pruned
        exact yields_pure (.inr ⟨rfl, evolves, _, _, _, folded⟩)
    · exact yields_pure (.inl ⟨rfl, rfl⟩)

/-- In a graph that agrees, a block that branches on has one arrow to where it branches, and falls
through besides unless it is a dead end. -/
theorem Agrees.of_branch {v : View} (agrees : g.Agrees xs) (member : b ∈ xs) (inner : b ≠ .exit)
    (seen : g.view b = some v) (last : v.last?.any (·.opcode.isBranch) = true) :
    ∃ d, g.calls b v.last? = .ok [(d, .branch)] ∧
      v.arrows = (d, .branch) :: v.fall (g.next? b) := by
  obtain ⟨explicit, called, split⟩ := agrees b member inner v seen
  obtain ⟨i, isLast, isBranch⟩ := (Option.any_eq_true _ _).1 last
  rw [isLast] at called ⊢
  obtain ⟨aims, aimed, hits⟩ := transfers_eq_ok.1 called
  -- a branch has a single aim, be it conditional or not
  have single : ∃ l, aims = [(.label l, .branch)] := by
    unfold Opcode.isBranch at isBranch
    unfold Instr.aims? at aimed
    split at isBranch
    · rename_i flow
      rw [flow] at aimed
      obtain ⟨l, -, same⟩ := Option.map_eq_some_iff.1 aimed
      exact ⟨l, same.symm⟩
    · rename_i flow
      rw [flow] at aimed
      obtain ⟨l, -, same⟩ := Option.map_eq_some_iff.1 aimed
      exact ⟨l, same.symm⟩
    · cases isBranch
  obtain ⟨l, rfl⟩ := single
  cases hits with
  | cons hit rest =>
    cases rest
    rename_i a
    obtain ⟨d, k⟩ := a
    obtain ⟨-, rfl⟩ := hit
    exact ⟨d, called, split⟩

namespace BranchFolded

variable {n : BlockId} {v : View} {rest : List (BlockId × EdgeKind)}

theorem rest_eq (folded : BranchFolded b n v rest g g') (coherent : g.Coherent xs)
    (agrees : g.Agrees xs) : rest = [] ∨ v.deadEnd = false ∧ rest = [(n, .fallthru)] := by
  obtain ⟨member, inner⟩ := coherent.of_mem_arrows (a := (n, .branch)) folded.recoded.before
    (by simp [folded.arrows])
  obtain ⟨d, -, split⟩ := agrees.of_branch member inner folded.recoded.before folded.last
  rw [folded.arrows, folded.next, List.cons.injEq] at split
  -- besides the branch there can only be the arrow by which the block falls through
  cases dead : v.deadEnd with
  | true => exact .inl (by simpa [View.fall, dead] using split.2)
  | false => exact .inr ⟨rfl, by simpa [View.fall, dead] using split.2⟩

theorem agrees (folded : BranchFolded b n v rest g g') (coherent : g.Coherent xs)
    (agrees : g.Agrees xs) : g'.Agrees xs := by
  refine folded.recoded.agrees agrees ⟨[], ?_, ?_⟩
  · simp only [View.last?, List.getLast?_concat]
    rfl
  · rw [folded.next]
    obtain rfl | ⟨falls, rfl⟩ := folded.rest_eq coherent agrees
    · simp [View.fall]
    · simp [View.fall, falls]

end BranchFolded

/-! ## Conditional branches that do not decide anything -/

/-- The conditional branch of `b` to `d` has become unconditional, because the next block `n` does
nothing but branch to `d`. -/
structure ConditionalFolded (b n d : BlockId) (v u : View) (i : Instr) (g g' : Graph) : Prop where
  recoded : Recoded b v
    { v with
      instrs := v.instrs.dropLast ++ [i.withOpcode .br]
      deadEnd := true
      arrows := [(d, .branch)] } g g'
  arrows : v.arrows = [(d, .branch), (n, .fallthru)]
  next : g.next? b = some n
  last : v.last? = some i
  conditional : i.opcode.flow = .conditionalBranch
  between : g.view n = some u
  jump : u.arrows = [(d, .branch)]
  trivial : u.instrs.all (·.opcode.isTrivial) = true

theorem conditionalFolded_of_pruned (coherent : g.Coherent xs) {data between : Block}
    {e f j : EdgeId} {taken fall jump : Edge} (found : g.block? b = some data)
    (out : data.succs = [e, f]) (storedTaken : g.edges.get? e = some taken)
    (storedFall : g.edges.get? f = some fall) (src : fall.src = b)
    (branch : taken.kind = .branch) (fallthru : fall.kind = .fallthru)
    (next : data.next = some fall.dst) (last : data.last?.any (·.opcode.flow = .conditionalBranch))
    (foundBetween : g.block? fall.dst = some between) (outBetween : between.succs = [j])
    (storedJump : g.edges.get? j = some jump) (branchJump : jump.kind = .branch)
    (sameDst : jump.dst = taken.dst) (empty : between.isEmpty)
    (pruned : Pruned [f] (g.modify b fun d =>
      { d.modifyLast (·.withOpcode .br) with deadEnd := true }) g') :
    Evolves xs xs g g' ∧
      ∃ i, ConditionalFolded b fall.dst taken.dst (g.look data) (g.look between) i g g' := by
  obtain ⟨i, isLast, conditional⟩ := (Option.any_eq_true _ _).1 last
  have changed : ({ data.modifyLast (·.withOpcode .br) with deadEnd := true } : Block) =
      { data with instrs := data.instrs.dropLast ++ [i.withOpcode .br], deadEnd := true } := by
    rw [Block.modifyLast_eq isLast]
  obtain ⟨evolves, recoded⟩ := recoded_of_pruned coherent found storedFall src
    (f := fun d => { d.modifyLast (·.withOpcode .br) with deadEnd := true }) changed
    (fun d => d.frame_modifyLast _) pruned
  have apart : e ≠ f := by
    have distinct := (coherent.succs found).1
    simpa [out] using distinct
  have kept : g.arrows (data.succs.filter (· ∉ [f])) = [(taken.dst, .branch)] := by
    rw [out, List.filter_cons_of_pos (by simp [apart]), List.filter_cons_of_neg (by simp),
      List.filter_nil, arrows_cons storedTaken, ← branch]
    rfl
  rw [kept] at recoded
  refine ⟨evolves, i, recoded, ?_, (next?_eq found).trans next, isLast, by simpa using conditional,
    view_eq foundBetween, ?_, empty⟩
  · rw [look, out, arrows_cons storedTaken, arrows_cons storedFall, ← branch, ← fallthru]
    rfl
  · rw [look, outBetween, arrows_cons storedJump, ← branchJump, ← sameDst]
    rfl

theorem foldConditional_yields {allowed : Fault → Prop} (coherent : g.Coherent xs)
    (inside : (g.block? b).isSome) : Yields allowed (foldConditional g b) fun (g', r) =>
      (r = none ∧ g' = g) ∨ ∃ n d, r = some (.conditionalFolded b n d) ∧ Evolves xs xs g g' ∧
        ∃ v u i, ConditionalFolded b n d v u i g g' := by
  obtain ⟨data, found⟩ := Option.isSome_iff_exists.1 inside
  rw [foldConditional, block_bind found]
  split
  · rename_i n e f next out
    obtain ⟨taken, storedTaken, srcTaken⟩ := coherent.edge_of_mem_succs found (e := e) (by simp [out])
    obtain ⟨fall, storedFall, srcFall⟩ := coherent.edge_of_mem_succs found (e := f) (by simp [out])
    rw [edge_bind storedTaken, edge_bind storedFall]
    split
    · rename_i applies
      obtain ⟨last, branch, fallthru, rfl⟩ := applies
      obtain ⟨-, between, foundBetween, -⟩ := coherent.target storedFall
      rw [block_bind foundBetween]
      split
      · rename_i j outBetween
        obtain ⟨jump, storedJump, -⟩ :=
          coherent.edge_of_mem_succs foundBetween (e := j) (by simp [outBetween])
        rw [edge_bind storedJump]
        split
        · rename_i applies
          obtain ⟨branchJump, sameDst, empty⟩ := applies
          have coherent₁ : (g.modify b fun d =>
              { d.modifyLast (·.withOpcode .br) with deadEnd := true }).Coherent xs :=
            coherent.modify fun d => (d.frame_modifyLast _).1
          apply (disconnect_yields coherent₁ storedFall).bind
          intro g' pruned
          obtain ⟨evolves, i, folded⟩ := conditionalFolded_of_pruned coherent found out storedTaken
            storedFall srcFall branch fallthru next last foundBetween outBetween storedJump
            branchJump sameDst empty pruned
          exact yields_pure (.inr ⟨_, _, rfl, evolves, _, _, i, folded⟩)
        · exact yields_pure (.inl ⟨rfl, rfl⟩)
      · exact yields_pure (.inl ⟨rfl, rfl⟩)
    · exact yields_pure (.inl ⟨rfl, rfl⟩)
  · exact yields_pure (.inl ⟨rfl, rfl⟩)

theorem ConditionalFolded.agrees {n d : BlockId} {v u : View} {i : Instr}
    (folded : ConditionalFolded b n d v u i g g') (coherent : g.Coherent xs)
    (agrees : g.Agrees xs) : g'.Agrees xs := by
  obtain ⟨member, inner⟩ := coherent.of_mem_arrows (a := (d, .branch)) folded.recoded.before
    (by simp [folded.arrows])
  obtain ⟨d', called, split⟩ := agrees.of_branch member inner folded.recoded.before
    (by simp [folded.last, Opcode.isBranch, folded.conditional])
  rw [folded.arrows, List.cons.injEq] at split
  obtain ⟨same, -⟩ := split
  cases same
  refine folded.recoded.agrees agrees ⟨[(d, .branch)], ?_, by simp [View.fall]⟩
  rw [folded.last] at called
  simp only [View.last?, List.getLast?_concat]
  rw [← called]
  -- both instructions look up the same destination
  simp only [calls, transfers, folded.conditional]
  rfl

end

end Graph

end FlowGraph
