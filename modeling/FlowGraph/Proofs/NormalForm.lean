import FlowGraph.Proofs.Quiet
import FlowGraph.Proofs.Simplification

/-! # What is left after a simplification

A run that ends of its own accord ends with a round in which no rule has applied. What each rule
looks for is therefore nowhere to be found in the result, save at entry, where no rule is tried. Some
of it a rule looks for only in part: that a fallthrough leads to the next block, and that no second
one leads there, is known from the instructions, with which the edges still agree.

What the last search found is also what entry leads to in the end, for no edge was dropped that starts
at a block found. -/

namespace FlowGraph.Graph

/-! ## Reachable blocks -/

/-- A path of edges leads from entry to the block. -/
inductive Reachable (g : Graph) : BlockId → Prop where
  | entry : g.Reachable .entry
  | step {e : EdgeId} {edge : Edge} (stored : g.edges.get? e = some edge)
      (before : g.Reachable edge.src) : g.Reachable edge.dst

section

variable {g g' : Graph} {s : Settings} {xs order dropped : List BlockId}

theorem Rested.reachable (rested : Rested s xs order dropped g g') (matched : g.Matched)
    (reached : g.reached = .ok order) : ∀ b ∈ order, g'.Reachable b := by
  refine forall_of_reached matched reached .entry fun e edge stored inside before => ?_
  have kept : edge.src ∉ dropped := by
    rw [rested.dropped_iff]
    exact fun gone => gone.2.2 inside
  have stored' : g'.edges.get? e = some edge := by
    rw [rested.eliminated.edge, stored]
    simp [kept]
  exact before.step stored'

theorem Reachable.congr {b : BlockId} (reachable : g.Reachable b) (edges : g'.edges = g.edges) :
    g'.Reachable b := by
  induction reachable with
  | entry => exact .entry
  | step stored _ before => exact before.step (edges ▸ stored)

end

/-! ## Normal blocks -/

/-- Nothing is left to be reduced at the block. -/
structure Normal (g : Graph) (b : BlockId) (data : Block) : Prop where
  /-- Its last instruction does not branch to the next block. -/
  branch : data.last?.any (·.opcode.isBranch) → ∀ d rest,
    g.successors b = .ok ((d, .branch) :: rest) → data.next ≠ some d
  /-- It does not branch on a condition past an empty block that branches to the same place. -/
  conditional : data.last?.any (·.opcode.flow = .conditionalBranch) → ∀ d n,
    g.successors b = .ok [(d, .branch), (n, .fallthru)] →
      ∀ between, g.block? n = some between → between.isEmpty → g.successors n ≠ .ok [(d, .branch)]
  /-- If it is empty and leads on to another block, it stands between a fallthrough into it and its
  own branch, and serves nothing else. -/
  empty : data.isEmpty → ∀ d kind, g.successors b = .ok [(d, kind)] →
    kind = .branch ∨ kind = .fallthru → d = b ∨ kind = .branch ∧ data.label = none ∧
      ∃ e into, g.inEdges b = .ok [(e, into)] ∧ into.kind = .fallthru

section

variable {g g' : Graph} {xs : List BlockId} {b : BlockId} {data : Block} {e : EdgeId} {edge : Edge}

theorem not_foldBranch {es : List EdgeId} (idle : foldBranch g b = .ok (g', none))
    (found : g.block? b = some data) (succs : data.succs = e :: es)
    (stored : g.edges.get? e = some edge) :
    ¬(edge.kind = .branch ∧ data.next = some edge.dst ∧ data.last?.any (·.opcode.isBranch)) := by
  intro applies
  rw [foldBranch, block_bind found, succs] at idle
  dsimp only at idle
  rw [edge_bind stored, if_pos applies] at idle
  split at idle
  · cases idle
  · rw [bind_eq_ok] at idle
    obtain ⟨_, -, ⟨⟩⟩ := idle

theorem not_foldConditional {f j : EdgeId} {taken fall jump : Edge} {n : BlockId} {between : Block}
    (idle : foldConditional g b = .ok (g', none)) (found : g.block? b = some data)
    (behind : data.next = some n) (succs : data.succs = [e, f])
    (storedTaken : g.edges.get? e = some taken) (storedFall : g.edges.get? f = some fall)
    (foundNext : g.block? n = some between) (single : between.succs = [j])
    (storedJump : g.edges.get? j = some jump) :
    ¬((data.last?.any (·.opcode.flow = .conditionalBranch) ∧ taken.kind = .branch ∧
      fall.kind = .fallthru ∧ fall.dst = n) ∧
        jump.kind = .branch ∧ jump.dst = taken.dst ∧ between.isEmpty) := by
  intro ⟨here, next⟩
  rw [foldConditional, block_bind found, behind, succs] at idle
  dsimp only at idle
  rw [edge_bind storedTaken, edge_bind storedFall, if_pos here, block_bind foundNext, single] at idle
  dsimp only at idle
  rw [edge_bind storedJump, if_pos next, bind_eq_ok] at idle
  obtain ⟨_, -, ⟨⟩⟩ := idle

/-- An empty block is only left as it is if there was nothing to pass on but a fallthrough, and the
block itself does not fall through. -/
theorem of_mergeEmpty (idle : mergeEmpty g b = .ok (g', none)) (found : g.block? b = some data)
    (succs : data.succs = [e]) (stored : g.edges.get? e = some edge)
    (applies : (edge.kind = .branch ∨ edge.kind = .fallthru) ∧ edge.dst ≠ b ∧ data.isEmpty) :
    edge.kind = .branch ∧ data.label = none ∧ data.preds ≠ [] ∧
      ∀ f ∈ data.preds, ∃ into, g.edges.get? f = some into ∧ into.kind.isExplicit = false := by
  rw [mergeEmpty, block_bind found, succs] at idle
  dsimp only at idle
  rw [edge_bind stored, if_pos applies] at idle
  simp only [bind_eq_ok] at idle
  obtain ⟨g₁, labels, ⟨g₂, kept, moved⟩, passed, ⟨g₃, moved'⟩, sent, data', found', idle⟩ := idle
  have passedOn := (passEdges_idle b edge.dst data.preds).of_eq_ok passed
  have sentOn := (passKept_idle g₂ edge.dst edge.kind kept moved).of_eq_ok sent
  split at idle
  · simp only [bind_eq_ok] at idle
    obtain ⟨_, -, _, -, ⟨⟩⟩ := idle
  · rename_i entered
    split at idle
    · cases idle
    · rename_i nothing
      simp only [not_or, Option.not_isSome_iff_eq_none] at nothing
      obtain ⟨unlabelled, unmoved⟩ := nothing
      rw [unlabelled] at labels
      cases labels
      obtain ⟨unmoved, rfl, stays⟩ := sentOn (by omega)
      obtain ⟨rfl, last, implicit⟩ := passedOn unmoved
      rw [block_eq_ok, found] at found'
      cases found'
      -- a fallthrough was met, so it is the block that does not fall through
      have met : kept ≠ none := by
        rw [last]
        exact mt List.getLast?_eq_none_iff.1 entered
      have notFallthru : edge.kind ≠ .fallthru := stays.resolve_left met
      exact ⟨applies.1.resolve_right notFallthru, unlabelled, entered, implicit⟩

/-- The successors of a block are listed edge by edge. -/
theorem forall₂_of_successors {out : List (BlockId × EdgeKind)} (found : g.block? b = some data)
    (listed : g.successors b = .ok out) : List.Forall₂
      (fun e a => ∃ edge, g.edges.get? e = some edge ∧ edge.arrow = a) data.succs out := by
  rw [successors, outEdges, block_bind found, edgesOf] at listed
  cases read : data.succs.mapM fun e => do return (e, ← g.edge e) with
  | error f =>
    rw [read] at listed
    cases listed
  | ok pairs =>
    rw [read] at listed
    cases listed
    rw [List.forall₂_map_right_iff]
    refine (mapM_eq_ok.1 read).imp fun e pair here => ?_
    simp only [bind_eq_ok, edge_eq_ok] at here
    obtain ⟨edge, stored, ⟨⟩⟩ := here
    exact ⟨edge, stored, rfl⟩

theorem exists_of_successors {d : BlockId} {kind : EdgeKind} (found : g.block? b = some data)
    (listed : g.successors b = .ok [(d, kind)]) :
    ∃ e edge, data.succs = [e] ∧ g.edges.get? e = some edge ∧ edge.dst = d ∧ edge.kind = kind := by
  have edges := forall₂_of_successors found listed
  generalize data.succs = es at edges
  obtain _ | ⟨⟨edge, stored, leads⟩, _ | _⟩ := edges
  rw [Edge.arrow, Prod.mk.injEq] at leads
  exact ⟨_, edge, rfl, stored, leads⟩

theorem inEdges_eq (found : g.block? b = some data) (preds : data.preds = [e])
    (stored : g.edges.get? e = some edge) : g.inEdges b = .ok [(e, edge)] := by
  rw [inEdges, block_bind found, preds, edgesOf, List.mapM_cons, edge_bind stored]
  rfl

/-- If only fallthroughs enter a block, only one does. -/
theorem Agrees.preds_eq_singleton (agrees : g.Agrees xs) (coherent : g.Coherent xs)
    (found : g.block? b = some data) (entered : data.preds ≠ [])
    (implicit : ∀ e ∈ data.preds, ∃ into, g.edges.get? e = some into ∧ into.kind.isExplicit = false) :
    ∃ e into, data.preds = [e] ∧ g.edges.get? e = some into ∧ into.kind = .fallthru := by
  obtain ⟨distinct, members⟩ := coherent.preds found
  obtain ⟨e, rest, preds⟩ := List.exists_cons_of_ne_nil entered
  have enters (f : EdgeId) (member : f ∈ data.preds) :
      ∃ into, g.edges.get? f = some into ∧ into.kind.isExplicit = false ∧ into.dst = b := by
    obtain ⟨into, stored, isImplicit⟩ := implicit f member
    obtain ⟨into', stored', dst⟩ := (members f).1 member
    rw [stored] at stored'
    cases stored'
    exact ⟨into, stored, isImplicit, dst⟩
  obtain ⟨into, stored, isImplicit, dst⟩ := enters e (by simp [preds])
  have alone : rest = [] := by
    refine List.eq_nil_iff_forall_not_mem.2 fun f member => ?_
    obtain ⟨into', stored', isImplicit', dst'⟩ := enters f (by simp [preds, member])
    obtain rfl := agrees.implicit_unique coherent stored stored' isImplicit isImplicit'
      (dst.trans dst'.symm)
    rw [preds] at distinct
    exact (List.nodup_cons.1 distinct).1 member
  refine ⟨e, into, by rw [preds, alone], stored, ?_⟩
  cases kind : into.kind with
  | fallthru => rfl
  | branch | except | ret => simp [kind, EdgeKind.isExplicit] at isImplicit

theorem Faithful.normal (faithful : g.Faithful xs) (found : g.block? b = some data)
    (resists : data.succs ≠ [] → g.Resists .standard b) : g.Normal b data := by
  obtain ⟨coherent, agrees, -⟩ := faithful
  have tried (rule : Rule) (listed : rule ∈ Settings.standard.rules) (exits : data.succs ≠ []) :
      rule g b = .ok (g, none) := resists exits rule listed
  refine ⟨?branch, ?conditional, ?empty⟩
  case branch =>
    intro branches d rest listed next
    have edges := forall₂_of_successors found listed
    generalize succs : data.succs = es at edges
    obtain _ | ⟨⟨⟨_, _, _⟩, stored, ⟨⟩⟩, others⟩ := edges
    have idle := tried foldBranch (by simp [Settings.rules, Settings.standard]) (by simp [succs])
    exact not_foldBranch idle found succs stored ⟨rfl, next, branches⟩
  case conditional =>
    intro branches d n listed between foundNext isEmpty onward
    have edges := forall₂_of_successors found listed
    generalize succs : data.succs = es at edges
    obtain _ | ⟨⟨⟨_, _, _⟩, storedTaken, ⟨⟩⟩, _ | @⟨f, _, _, _, ⟨⟨_, _, _⟩, storedFall, ⟨⟩⟩, _ | _⟩⟩ :=
      edges
    obtain ⟨j, jump, single, storedJump, dst, kind⟩ := exists_of_successors foundNext onward
    -- where the block falls through to is known from its instructions
    have inArray : f ∈ data.succs := by simp [succs]
    obtain ⟨member, inner, -⟩ := coherent.of_mem_succs found inArray
    obtain ⟨edge, stored, src⟩ := coherent.edge_of_mem_succs found inArray
    have arrow := (coherent.mem_arrows (view_eq found)).2 ⟨f, edge, stored, src, rfl⟩
    rw [storedFall] at stored
    cases stored
    have next := agrees.next?_of_implicit member inner (view_eq found) arrow rfl
    rw [next?_eq found] at next
    have idle := tried foldConditional (by simp [Settings.rules, Settings.standard])
      (by simp [succs])
    exact not_foldConditional idle found next succs storedTaken storedFall foundNext single storedJump
      ⟨⟨branches, rfl, rfl, rfl⟩, kind, dst, isEmpty⟩
  case empty =>
    intro isEmpty d kind listed falls
    obtain ⟨e, edge, succs, stored, rfl, rfl⟩ := exists_of_successors found listed
    by_cases circle : edge.dst = b
    · exact .inl circle
    have idle := tried mergeEmpty (by simp [Settings.rules, Settings.standard]) (by simp [succs])
    obtain ⟨branches, unlabelled, entered, implicit⟩ :=
      of_mergeEmpty idle found succs stored ⟨falls, circle, isEmpty⟩
    obtain ⟨f, into, preds, stored', kind⟩ :=
      agrees.preds_eq_singleton coherent found entered implicit
    exact .inr ⟨branches, unlabelled, f, into, inEdges_eq found preds stored', kind⟩

/-- A round that has come to rest leaves every block but entry normal. -/
theorem Rested.normal {order dropped : List BlockId}
    (rested : Rested .standard xs order dropped g g')
    (faithful' : g'.Faithful (xs.filter (· ∉ dropped))) (found : g'.block? b = some data)
    (notEntry : b ≠ .entry) : g'.Normal b data := by
  refine faithful'.normal found fun exits => ?_
  obtain ⟨e, inArray⟩ := List.exists_mem_of_ne_nil _ exits
  obtain ⟨member, inner, live⟩ := faithful'.coherent.of_mem_succs found inArray
  exact rested.resists (rested.mem_order member inner) notEntry inner found
    (by simp [Block.isLive, live])

end

/-! ## Blocks outside the layout -/

/-- The block is live, but not in the layout. -/
def Stray (g : Graph) (b : BlockId) : Prop :=
  ∃ xs data, g.layout = .ok xs ∧ b ∉ xs ∧ g.block? b = some data ∧ data.status = .live

/-- The blocks that are live outside the layout satisfy `p`. -/
def StraysWithin (p : BlockId → Prop) (g : Graph) (xs : List BlockId) : Prop :=
  ∀ b data, g.block? b = some data → data.status = .live → b ∉ xs → p b

theorem StraysWithin.evolves {p : BlockId → Prop} {g g' : Graph} {xs xs' : List BlockId}
    (within : StraysWithin p g xs) (evolves : Evolves xs xs' g g') : StraysWithin p g' xs' := by
  intro b data' found' live outside
  by_cases stays : b ∈ xs → b ∈ xs'
  · obtain ⟨data, found, status, -⟩ := evolves.kept b stays data' found'
    exact within b data found (status ▸ live) (mt stays outside)
  · rw [Classical.not_imp] at stays
    obtain ⟨retired, -⟩ := evolves.gone b stays.1 outside data' found'
    simp [retired] at live

theorem preserved_straysWithin (p : BlockId → Prop) : Preserved (StraysWithin p) :=
  ⟨fun _ within eliminated => within.evolves eliminated.evolves,
    fun _ evolves within _ => within.evolves evolves, fun _ within => within⟩

/-! ## Simplified graphs -/

/-- What simplification makes of a graph just built, if its labels are exact and the settings are
the usual ones: every block of the layout but exit can be reached from entry, and at no block but
entry there is anything left to be reduced. No block has become live outside the layout. -/
theorem simplify_normal (g₀ g : Graph) (built : g₀.build = .ok g) (consistent : g.violations = .ok [])
    (exact : g.LabelsExact) :
    Yields g.Unlinkable (g.simplify .standard) fun (_, g') => ∃ xs, g'.layout = .ok xs ∧
      (∀ b ∈ xs, b ≠ .exit → g'.Reachable b) ∧
      (∀ b data, g'.block? b = some data → b ≠ .entry → g'.Normal b data) ∧
      ∀ b, g'.Stray b → g.Stray b := by
  have preserved := preserved_straysWithin g.Stray
  have start (xs : List BlockId) (faithful : g.Faithful xs) : StraysWithin g.Stray g xs :=
    fun b data found live outside =>
      ⟨xs, data, faithful.coherent.laid.layout_eq, outside, found, live⟩
  set bound := 2 * (g.liveCount + g.edgeCount) with isBound
  have holds : Bounded g.Unlinkable (StraysWithin g.Stray) bound 0 g :=
    bounded_of_built built consistent exact start
  have keeps (h : Graph) (order : List BlockId) (round : Round) (h' : Graph)
      (holds : ∃ n, Bounded g.Unlinkable (StraysWithin g.Stray) bound n h)
      (made : h.simplifyRound .standard = .ok (order, round, h')) :
      ∃ n, Bounded g.Unlinkable (StraysWithin g.Stray) bound n h' := by
    obtain ⟨n, holds⟩ := holds
    exact ⟨_, ((preserved.carries bound).simplifyRound_yields holds).of_eq_ok made⟩
  refine ((preserved.simplify_yields built consistent exact start).and_of_eq_ok
    fun (report, g') ran => ?_).mono fun _ => And.right
  have ended := (simplifyFrom_ended keeps _ [] g ⟨0, holds⟩).of_eq_ok ran
  obtain ⟨h, order, round, h', ⟨n, ys, faithful, ready, -, within⟩, made, -, last⟩ := ended.last
  split at last
  · -- the usual settings have no limit that could have been met
    obtain ⟨-, n, exhausted⟩ := last
    cases exhausted
  · rename_i unchanged
    have quiet : round.changed = false := by simpa using unchanged
    subst last
    obtain ⟨reached, -⟩ := of_simplifyRound_quiet made quiet
    have rested := simplifyRound_quiet faithful.coherent ready made quiet
    have faithful' := faithful.eliminated rested.eliminated
    have within' := within.evolves rested.eliminated.evolves
    have laid' : ({ h' with order := some order } : Graph).LaidOut _ :=
      (faithful'.coherent.reorder _).laid
    refine ⟨_, laid'.layout_eq, fun b member inner => ?_, fun b data found notEntry => ?_, ?_⟩
    · have reachable := rested.reachable faithful.coherent.matched reached b
        (rested.mem_order member inner)
      exact reachable.congr rfl
    · obtain ⟨branch, conditional, empty⟩ := rested.normal faithful' found notEntry
      exact ⟨branch, conditional, empty⟩
    · intro b ⟨zs, data, layout, outside, found, live⟩
      rw [laid'.layout_eq] at layout
      cases layout
      exact within' b data found live outside

theorem simplify_triangle_normal :
    triangle.build = .ok triangle ∧ triangle.violations = .ok [] ∧ triangle.LabelsExact ∧
      ∃ report g', triangle.simplify .standard = .ok (report, g') ∧ ∃ xs, g'.layout = .ok xs ∧
        (∀ b ∈ xs, b ≠ .exit → g'.Reachable b) ∧
        (∀ b data, g'.block? b = some data → b ≠ .entry → g'.Normal b data) ∧
        ∀ b, g'.Stray b → triangle.Stray b := by
  obtain ⟨built, consistent, exact⟩ := triangle_built
  obtain ⟨⟨report, g'⟩, ran⟩ := triangle_simplifies
  have normal := simplify_normal triangle triangle built consistent exact
  exact ⟨built, consistent, exact, report, g', ran, normal.of_eq_ok ran⟩

end FlowGraph.Graph
