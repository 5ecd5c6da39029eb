import FlowGraph.Proofs.Retracing
import FlowGraph.Proofs.Symmetry

/-! # Rounds in which no rule applies

A rule that reports no reduction has left the graph as it was, although it may have gone through
labels and edges to find out. Hence a round without reductions consists of a search and the dropping
of what was not found, and the search would find the same again: nothing that it went by is dropped.
This needs no more than that the arrays of blocks agree with the pool of edges. -/

namespace FlowGraph.Graph

/-! ## Rules -/

section

variable {g g' : Graph} {b : BlockId}

/-- If anything has changed, a reduction is reported. -/
def Honest (g : Graph) (result : Graph × Option Reduction) : Prop := result.2 = none → result.1 = g

theorem foldBranch_honest (g : Graph) (b : BlockId) :
    Yields (fun _ => True) (foldBranch g b) g.Honest := by
  refine (block_yields g b).bind fun data _ => ?_
  split
  · exact yields_pure fun _ => rfl
  · refine (edge_yields g _).bind fun edge _ => ?_
    split
    · dsimp only
      split
      · exact yields_pure nofun
      · exact (yields_of_forall fun _ => id).bind fun g' _ => yields_pure nofun
    · exact yields_pure fun _ => rfl

theorem foldConditional_honest (g : Graph) (b : BlockId) :
    Yields (fun _ => True) (foldConditional g b) g.Honest := by
  have same : Yields (fun _ => True) (pure (g, none)) g.Honest := yields_pure fun _ => rfl
  refine (block_yields g b).bind fun data _ => ?_
  split
  · refine (edge_yields g _).bind fun taken _ => (edge_yields g _).bind fun fall _ => ?_
    split
    · refine (block_yields g _).bind fun between _ => ?_
      split
      · refine (edge_yields g _).bind fun edge _ => ?_
        split
        · exact (yields_of_forall fun _ => id).bind fun g' _ => yields_pure nofun
        · exact same
      · exact same
    · exact same
  · exact same

/-- As long as no edge has been sent on, nothing has changed, and no edge met is explicit. -/
theorem passEdges_idle (b t : BlockId) (es : List EdgeId) :
    Yields (fun _ => True) (es.foldlM (passEdge b t) (g, none, 0)) fun (g', kept, moved) =>
      moved = 0 → g' = g ∧ kept = es.getLast? ∧
        ∀ e ∈ es, ∃ edge, g.edges.get? e = some edge ∧ edge.kind.isExplicit = false := by
  refine Yields.foldlM (fun done (state : Graph × Option EdgeId × Nat) => state.2.2 = 0 →
    state.1 = g ∧ state.2.1 = done.getLast? ∧
      ∀ e ∈ done, ∃ edge, g.edges.get? e = some edge ∧ edge.kind.isExplicit = false)
    (fun _ => ⟨rfl, rfl, by simp⟩) ?_
  rintro done e rest ⟨g₁, kept, moved⟩ - idle
  refine (edge_yields g₁ e).bind fun edge stored => ?_
  split
  · refine (yields_of_forall fun _ => id).bind fun g₂ _ => ?_
    refine require_yields.bind fun _ _ => yields_pure fun unmoved => ?_
    exact absurd unmoved (Nat.succ_ne_zero moved)
  · rename_i implicit
    refine yields_pure fun unmoved => ?_
    obtain ⟨rfl, -, before⟩ := idle unmoved
    refine ⟨rfl, by simp, fun e' member => ?_⟩
    rw [List.mem_append, List.mem_singleton] at member
    obtain member | rfl := member
    · exact before e' member
    · exact ⟨edge, stored, by simpa using implicit⟩

theorem passKept_idle (g : Graph) (t : BlockId) (kind : EdgeKind) (kept : Option EdgeId)
    (moved : Nat) : Yields (fun _ => True) (passKept t kind (g, kept, moved)) fun (g', moved') =>
      moved' = 0 → moved = 0 ∧ g' = g ∧ (kept = none ∨ kind ≠ .fallthru) := by
  cases kept with
  | none => exact yields_pure fun unmoved => ⟨unmoved, rfl, .inl rfl⟩
  | some e =>
    cases kind with
    | fallthru => exact (yields_of_forall fun _ => id).bind fun g₁ _ => yields_pure nofun
    | branch | except | ret => exact yields_pure fun unmoved => ⟨unmoved, rfl, .inr nofun⟩

theorem mergeEmpty_honest (g : Graph) (b : BlockId) :
    Yields (fun _ => True) (mergeEmpty g b) g.Honest := by
  refine (block_yields g b).bind fun data _ => ?_
  split
  · refine (edge_yields g _).bind fun edge _ => ?_
    split
    · refine (yields_of_forall fun _ => id).bind fun g₁ labels => ?_
      refine (passEdges_idle b edge.dst data.preds).bind fun (g₂, kept, moved) passed => ?_
      refine (passKept_idle g₂ edge.dst edge.kind kept moved).bind fun (g₃, moved') sent => ?_
      refine (block_yields g₃ b).bind fun data' _ => ?_
      split
      · refine (yields_of_forall fun _ => id).bind fun g₄ _ => ?_
        exact (yields_of_forall fun _ => id).bind fun g' _ => yields_pure nofun
      · split
        · exact yields_pure nofun
        · rename_i nothing
          rw [not_or] at nothing
          -- without labels to pass on, the graph was the same when the edges came up
          obtain ⟨unmoved, rfl, -⟩ := sent (by omega)
          obtain ⟨rfl, -⟩ := passed unmoved
          refine yields_pure fun _ => ?_
          cases label : data.label with
          | none =>
            rw [label] at labels
            cases labels
            rfl
          | some l => simp [label] at nothing
    · exact yields_pure fun _ => rfl
  · exact yields_pure fun _ => rfl

theorem eq_of_rule {s : Settings} {rule : Rule} (listed : rule ∈ s.rules)
    (ran : rule g b = .ok (g', none)) : g' = g := by
  have honest : Yields (fun _ => True) (rule g b) g.Honest := by
    obtain rfl | rfl | rfl := Settings.mem_rules listed
    · exact foldBranch_honest g b
    · exact foldConditional_honest g b
    · exact mergeEmpty_honest g b
  exact honest.of_eq_ok ran rfl

end

/-! ## Blocks -/

section

variable {s : Settings} {g g' : Graph} {b : BlockId} {made : List Reduction}

/-- No rule applies at the block. -/
def Resists (g : Graph) (s : Settings) (b : BlockId) : Prop :=
  ∀ rule ∈ s.rules, rule g b = .ok (g, none)

theorem tryRules_quiet {rules : List Rule} (listed : ∀ rule ∈ rules, rule ∈ s.rules) :
    ∀ {g : Graph} {made : List Reduction}, rules.foldlM (tryRule b) (g, made) = .ok (g', []) →
      made = [] ∧ g' = g ∧ ∀ rule ∈ rules, rule g b = .ok (g, none) := by
  induction rules with
  | nil =>
    intro g made ran
    cases ran
    simp
  | cons rule rules ih =>
    intro g made ran
    obtain ⟨here, others⟩ := List.forall_mem_cons.1 listed
    rw [List.foldlM_cons, bind_eq_ok] at ran
    obtain ⟨⟨g₁, made₁⟩, tried, ran⟩ := ran
    simp only [tryRule, bind_eq_ok] at tried
    obtain ⟨⟨g₁, r⟩, applied, ⟨⟩⟩ := tried
    obtain ⟨nothing, rfl, rest⟩ := ih others ran
    -- reductions are only ever added, so this rule has added none
    obtain ⟨noneHere, rfl⟩ := List.append_eq_nil_iff.1 nothing
    cases r with
    | some reduction => cases noneHere
    | none =>
      obtain rfl := eq_of_rule here applied
      exact ⟨rfl, rfl, List.forall_mem_cons.2 ⟨applied, rest⟩⟩

theorem reduceBlock_quiet (ran : reduceBlock s.rules (g, made) b = .ok (g', [])) :
    made = [] ∧ g' = g ∧ (b ≠ .entry → b ≠ .exit → ∀ data, g.block? b = some data →
      data.isLive = true → g.Resists s b) := by
  unfold reduceBlock at ran
  split at ran
  · rename_i sentinel
    cases ran
    exact ⟨rfl, rfl, fun notEntry notExit => absurd sentinel (not_or.2 ⟨notEntry, notExit⟩)⟩
  · rw [bind_eq_ok] at ran
    obtain ⟨data, found, ran⟩ := ran
    rw [block_eq_ok] at found
    split at ran
    · obtain ⟨none', same, resists⟩ := tryRules_quiet (fun _ => id) ran
      exact ⟨none', same, fun _ _ _ _ _ => resists⟩
    · rename_i notLive
      cases ran
      refine ⟨rfl, rfl, fun _ _ data' found' live => ?_⟩
      rw [found] at found'
      cases found'
      exact absurd live notLive

/-- If nothing is reduced, nothing happens, and no rule applies at any of the blocks. -/
theorem reduceAll_quiet {bs : List BlockId} : ∀ {g : Graph} {made : List Reduction},
    bs.foldlM (reduceBlock s.rules) (g, made) = .ok (g', []) → made = [] ∧ g' = g ∧
      ∀ b ∈ bs, b ≠ .entry → b ≠ .exit → ∀ data, g.block? b = some data → data.isLive = true →
        g.Resists s b := by
  induction bs with
  | nil =>
    intro g made ran
    cases ran
    simp
  | cons b bs ih =>
    intro g made ran
    rw [List.foldlM_cons, bind_eq_ok] at ran
    obtain ⟨⟨g₁, made₁⟩, reduced, ran⟩ := ran
    obtain ⟨rfl, rfl, rest⟩ := ih ran
    obtain ⟨rfl, rfl, here⟩ := reduceBlock_quiet reduced
    exact ⟨rfl, rfl, List.forall_mem_cons.2 ⟨here, rest⟩⟩

theorem reduceBlock_changes (state : Graph × List Reduction) (b : BlockId) :
    Yields (fun _ => True) (reduceBlock s.rules state b) fun state' =>
      Changes state.1 state'.1 := by
  unfold reduceBlock
  split
  · exact yields_pure .refl
  · refine (block_yields state.1 b).bind fun data _ => ?_
    split
    · refine Yields.foldlM (fun _ (state' : Graph × List Reduction) => Changes state.1 state'.1)
        .refl ?_
      intro done rule rest state' split before
      refine (rule_changes (s := s) (by simp [split]) state'.1 b).bind fun (g', r) after => ?_
      exact yields_pure (before.trans after)
    · exact yields_pure .refl

theorem reduceAll_changes (g : Graph) (bs : List BlockId) :
    Yields (fun _ => True) (bs.foldlM (reduceBlock s.rules) (g, [])) fun state =>
      Changes g state.1 :=
  Yields.foldlM (fun _ state => Changes g state.1) .refl fun _ b _ state _ before =>
    (reduceBlock_changes state b).mono fun _ after => before.trans after

end

/-! ## Dropping what was not found -/

/-- Every edge that leaves one of the blocks leads to another one of them. -/
def Closed (g : Graph) (order : List BlockId) : Prop :=
  ∀ e edge, g.edges.get? e = some edge → edge.src ∈ order → edge.dst ∈ order

/-- The blocks of `order` have kept their marks and outgoing edges, and no edge has come. -/
structure Sheltered (order : List BlockId) (g g' : Graph) : Prop where
  matched : g'.Matched
  block : ∀ c ∈ order, (g'.block? c).map (fun d => (d.marked, d.succs)) =
    (g.block? c).map fun d => (d.marked, d.succs)
  edge : ∀ e edge, g.edges.get? e = some edge → edge.src ∈ order → g'.edges.get? e = some edge
  old : ∀ e edge, g'.edges.get? e = some edge → g.edges.get? e = some edge

section

variable {g g' g'' : Graph} {order : List BlockId} {b : BlockId}

theorem Sheltered.refl (matched : g.Matched) : Sheltered order g g :=
  ⟨matched, fun _ _ => rfl, fun _ _ stored _ => stored, fun _ _ => id⟩

theorem Sheltered.trans (first : Sheltered order g g') (second : Sheltered order g' g'') :
    Sheltered order g g'' :=
  ⟨second.matched, fun c member => (second.block c member).trans (first.block c member),
    fun e edge stored inside => second.edge e edge (first.edge e edge stored inside) inside,
    fun e edge stored => first.old e edge (second.old e edge stored)⟩

theorem Closed.sheltered (closed : g.Closed order) (sheltered : Sheltered order g g') :
    g'.Closed order :=
  fun e edge stored => closed e edge (sheltered.old e edge stored)

theorem Sheltered.sameWays (sheltered : Sheltered order g g') (matched : g.Matched) :
    SameWays order g g' := by
  intro c member data found
  have same := sheltered.block c member
  rw [found, Option.map_some] at same
  obtain ⟨data', found', same⟩ := Option.map_eq_some_iff.1 same
  rw [Prod.mk.injEq] at same
  refine ⟨data', found', same.2, fun e inArray => ?_⟩
  obtain ⟨edge, stored, rfl⟩ := ((matched.succs.array found).2 e).1 inArray
  rw [SameEnd, stored, sheltered.edge e edge stored member]

/-- An edge of a block outside does not start inside either. -/
theorem Sheltered.disconnect_yields (matched : g.Matched) (closed : g.Closed order)
    (outside : b ∉ order) {e : EdgeId} {edge : Edge} (stored : g.edges.get? e = some edge)
    (touches : edge.src = b ∨ edge.dst = b) :
    Yields (fun _ => True) (g.disconnect e) (Sheltered order g) := by
  have apart : edge.src ∉ order := by
    intro inside
    obtain rfl | rfl := touches
    · exact outside inside
    · exact outside (closed e edge stored inside)
  apply (matched.disconnect_yields stored).mono
  intro g' pruned
  refine ⟨matched.pruned pruned, fun c member => ?_, fun e' edge' stored' inside => ?_,
    fun e' edge' stored' => (pruned.get?_eq stored').2⟩
  · rw [pruned.block, Option.map_map]
    cases found : g.block? c with
    | none => rfl
    | some data =>
      have unlisted : e ∉ data.succs := by
        intro inArray
        obtain ⟨edge', stored', rfl⟩ := ((matched.succs.array found).2 e).1 inArray
        rw [stored] at stored'
        cases stored'
        exact apart member
      have succs : data.succs.filter (· ∉ [e]) = data.succs := by
        refine List.filter_eq_self.2 fun e' inArray => ?_
        simpa using ne_of_mem_of_not_mem inArray unlisted
      simpa [Block.unlist] using succs
  · rw [pruned.edge, if_neg]
    · exact stored'
    · intro same
      obtain rfl := List.mem_singleton.1 same
      rw [stored] at stored'
      cases stored'
      exact apart inside

theorem Sheltered.dropSide_yields {side : Block → List EdgeId}
    (touches : ∀ {g : Graph} {data : Block} {e : EdgeId}, g.Matched → g.block? b = some data →
      e ∈ side data → ∃ edge, g.edges.get? e = some edge ∧ (edge.src = b ∨ edge.dst = b))
    (outside : b ∉ order) (n : Nat) : ∀ g : Graph, g.Matched → g.Closed order →
      Yields (fun _ => True) (g.dropSide side b n) (Sheltered order g) := by
  induction n with
  | zero =>
    intro g matched closed
    refine (block_yields g b).bind fun data _ => ?_
    exact require_yields.bind fun _ _ => yields_pure (.refl matched)
  | succ n ih =>
    intro g matched closed
    refine (block_yields g b).bind fun data found => ?_
    split
    · exact yields_pure (.refl matched)
    · rename_i e last
      obtain ⟨edge, stored, here⟩ := touches matched found (List.mem_of_getLast? last)
      refine (Sheltered.disconnect_yields matched closed outside stored here).bind fun g₁ first => ?_
      exact (ih g₁ first.matched (closed.sheltered first)).mono fun g' rest => first.trans rest

theorem Sheltered.retire_yields (matched : g.Matched) (outside : b ∉ order) :
    Yields (fun _ => True) (g.retire b) (Sheltered order g) := by
  apply (retire_yields_relaid g b).mono
  rintro g' ⟨data, g₁, found, noSuccs, noPreds, -, relaid, rfl⟩
  have edgeless : g.Edgeless b := by
    intro data' found'
    rw [found] at found'
    cases found'
    exact ⟨noSuccs, noPreds⟩
  have arrays := (relaid.block.weaken Block.arrays).trans
    ((edgeless.relaid relaid).arrays_modify (f := Block.spent) fun _ => rfl)
  refine ⟨matched.congr arrays fun e => ?_, fun c member => ?_, fun e edge stored _ => ?_,
    fun e edge stored => ?_⟩
  · change (g₁.edges.get? e).map _ = _
    rw [relaid.edges]
  · have apart : c ≠ b := ne_of_mem_of_not_mem member outside
    change ((g₁.modify b _).block? c).map _ = _
    rw [block?_modify, if_neg apart]
    exact relaid.block.weaken (fun d => (d.marked, d.succs)) c
  · change g₁.edges.get? e = _
    rw [relaid.edges, stored]
  · rw [← relaid.edges]
    exact stored

theorem Sheltered.drop_yields (matched : g.Matched) (closed : g.Closed order)
    (outside : b ∉ order) : Yields (fun _ => True) (g.drop b) (Sheltered order g) := by
  refine (block_yields g b).bind fun data _ => ?_
  refine (Sheltered.dropSide_yields (fun matched found inArray => ?_) outside _ g matched
    closed).bind fun g₁ first => ?_
  · obtain ⟨edge, stored, src⟩ := ((matched.succs.array found).2 _).1 inArray
    exact ⟨edge, stored, .inl src⟩
  refine (block_yields g₁ b).bind fun data₁ _ => ?_
  have closed₁ := closed.sheltered first
  refine (Sheltered.dropSide_yields (fun matched found inArray => ?_) outside _ g₁ first.matched
    closed₁).bind fun g₂ second => ?_
  · obtain ⟨edge, stored, dst⟩ := ((matched.preds.array found).2 _).1 inArray
    exact ⟨edge, stored, .inr dst⟩
  exact (Sheltered.retire_yields second.matched outside).mono fun g' third =>
    (first.trans second).trans third

/-- Every block of the list that there is has a mark. -/
def AllMarked (g : Graph) (order : List BlockId) : Prop :=
  ∀ c ∈ order, ∀ data, g.block? c = some data → data.marked = true

theorem AllMarked.sheltered (marked : g.AllMarked order) (sheltered : Sheltered order g g') :
    g'.AllMarked order := by
  intro c member data' found'
  have same := sheltered.block c member
  rw [found', Option.map_some, eq_comm] at same
  obtain ⟨data, found, same⟩ := Option.map_eq_some_iff.1 same
  rw [Prod.mk.injEq] at same
  rw [← same.1]
  exact marked c member data found

theorem Sheltered.sweep_yields (n : Nat) : ∀ (g : Graph) (o : Option BlockId)
    (dropped : List BlockId), g.Matched → g.Closed order → g.AllMarked order →
      Yields (fun _ => True) (g.sweep n o dropped) fun (_, g') => Sheltered order g g' := by
  induction n with
  | zero =>
    intro g o dropped matched _ _
    cases o with
    | none => exact yields_ok (.refl matched)
    | some b => exact trivial
  | succ n ih =>
    intro g o dropped matched closed marked
    cases o with
    | none => exact yields_ok (.refl matched)
    | some b =>
      rw [sweep]
      split
      · exact yields_pure (.refl matched)
      · refine (block_yields g b).bind fun data found => ?_
        split
        · exact ih g data.next dropped matched closed marked
        · rename_i unmarked
          have outside : b ∉ order := fun member => unmarked (marked b member data found)
          refine (Sheltered.drop_yields matched closed outside).bind fun g₁ first => ?_
          exact (ih g₁ data.next (b :: dropped) first.matched (closed.sheltered first)
            (marked.sheltered first)).mono fun _ rest => first.trans rest

theorem eliminate_sameWays (matched : g.Matched) (closed : g.Closed order)
    (marked : g.AllMarked order) :
    Yields (fun _ => True) (g.eliminate order) fun (_, g') => SameWays order g g' := by
  refine (block_yields g .entry).bind fun data _ => ?_
  refine (Sheltered.sweep_yields _ g data.next [] matched closed marked).bind ?_
  intro (dropped, g₁) sheltered
  refine (clearMarks_yields order g₁).bind fun g' cleared => yields_pure ?_
  obtain ⟨rfl, -⟩ := cleared
  have succs : SameBlocks Block.succs g₁ (g₁.setMarks order false) :=
    (remarked_setMarks order false g₁).block.weaken Block.succs
  have edges := (remarked_setMarks order false g₁).edges
  exact (sheltered.sameWays matched).trans (.of_same succs edges)

end

/-! ## Whole rounds -/

section

variable {s : Settings} {g g' : Graph} {order : List BlockId} {round : Round}

theorem simplifyRound_eq_ok : g.simplifyRound s = .ok (order, round, g') ↔
    ∃ dropped g₂ made, g.reached = .ok order ∧
      ({ g.setMarks order true with order := none } : Graph).eliminate order = .ok (dropped, g₂) ∧
      order.foldlM (reduceBlock s.rules) (g₂, []) = .ok (g', made) ∧
      round = ⟨dropped, made.reverse, g'.liveCount⟩ := by
  simp only [simplifyRound, markReached, bind_eq_ok]
  constructor
  · rintro ⟨⟨_, _⟩, ⟨_, ran, ⟨⟩⟩, ⟨dropped, g₂⟩, eliminated, ⟨_, made⟩, reduced, ⟨⟩⟩
    exact ⟨dropped, g₂, made, ran, eliminated, reduced, rfl⟩
  · rintro ⟨dropped, g₂, made, ran, eliminated, reduced, rfl⟩
    exact ⟨_, ⟨order, ran, rfl⟩, (dropped, g₂), eliminated, (g', made), reduced, rfl⟩

/-- A round keeps no order. -/
theorem order_simplifyRound (ran : g.simplifyRound s = .ok (order, round, g')) :
    g'.order = none := by
  obtain ⟨dropped, g₂, made, -, eliminated, reduced, -⟩ := simplifyRound_eq_ok.1 ran
  have forgets {h h' : Graph} (changes : Changes h h') : h.order = none → h'.order = none :=
    changes.keeps (fun k => h.order = none → k.order = none) (fun change before isNone => by
      obtain none' | same := change.order
      · exact none'
      · rw [same, before isNone]) id
  obtain ⟨h, changes, cleared⟩ := (eliminate_changes _ order).of_eq_ok eliminated
  obtain ⟨rfl, -⟩ := (clearMarks_yields order h).of_eq_ok cleared
  have isNone : h.order = none := forgets changes rfl
  refine forgets ((reduceAll_changes _ order).of_eq_ok reduced) ?_
  rw [setMarks, modifyAll_eq]
  exact isNone

/-- A round without reductions has searched and dropped, and then tried the rules in vain. -/
theorem of_simplifyRound_quiet (ran : g.simplifyRound s = .ok (order, round, g'))
    (quiet : round.changed = false) : g.reached = .ok order ∧
      ({ g.setMarks order true with order := none } : Graph).eliminate order =
        .ok (round.dropped, g') ∧
      order.foldlM (reduceBlock s.rules) (g', []) = .ok (g', []) := by
  obtain ⟨dropped, g₂, made, reached, eliminated, reduced, rfl⟩ := simplifyRound_eq_ok.1 ran
  have noneMade : made = [] := by simpa [Round.changed] using quiet
  subst made
  obtain ⟨-, rfl, -⟩ := reduceAll_quiet reduced
  exact ⟨reached, eliminated, reduced⟩

/-- After a round without reductions a search finds what the round went by. -/
theorem reached_of_quiet (ran : g.simplifyRound s = .ok (order, round, g'))
    (quiet : round.changed = false) (matched : g.Matched) (clear : g.Clear)
    (matched' : g'.Matched) (clear' : g'.Clear) : g'.reached = .ok order := by
  obtain ⟨reached, eliminated, -⟩ := of_simplifyRound_quiet ran quiet
  obtain ⟨data, found, -⟩ := visits_of_reached reached
  have result : Yields (fun _ => True) g.reached g.Explored :=
    reached_yields matched (Option.isSome_of_eq_some found)
  have explored := result.of_eq_ok reached
  have remarked := remarked_setMarks order true g
  have closed : g.Closed order := by
    intro e edge stored inside
    obtain listed | ⟨data, found, marked⟩ := explored.closed e edge stored inside
    · exact listed
    · rw [clear _ data found] at marked
      cases marked
  have marked : ({ g.setMarks order true with order := none } : Graph).AllMarked order := by
    intro c member data found
    change (g.setMarks order true).block? c = some data at found
    rw [block?_setMarks, Option.map_eq_some_iff] at found
    obtain ⟨data, -, rfl⟩ := found
    rw [if_pos member]
  have matched₁ : ({ g.setMarks order true with order := none } : Graph).Matched :=
    matched.congr (remarked.block.weaken Block.arrays) fun e => by rw [remarked.edges]
  have closed₁ : ({ g.setMarks order true with order := none } : Graph).Closed order := by
    intro e edge stored
    rw [remarked.edges] at stored
    exact closed e edge stored
  have ways := (eliminate_sameWays matched₁ closed₁ marked).of_eq_ok eliminated
  have before : SameWays order g { g.setMarks order true with order := none } :=
    .of_same (remarked.block.weaken Block.succs) remarked.edges
  exact reached_of_sameWays matched' clear clear' reached (before.trans ways)

/-- A round has come to rest: it has dropped the blocks of the layout that its search had not found,
and at none of the others there is anything to reduce. -/
structure Rested (s : Settings) (xs order dropped : List BlockId) (g g' : Graph) : Prop where
  eliminated : Eliminated xs dropped g g'
  dropped_iff : ∀ c, c ∈ dropped ↔ c ∈ xs ∧ c ≠ .exit ∧ c ∉ order
  idle : order.foldlM (reduceBlock s.rules) (g', []) = .ok (g', [])

/-- What a search that has found `order` leaves behind, with the marks it has set. -/
theorem marked_of_reached {xs : List BlockId} (coherent : g.Coherent xs)
    (reached : g.reached = .ok order) : g.Explored order ∧
      Remarked g { g.setMarks order true with order := none } ∧
      ∀ c, ({ g.setMarks order true with order := none } : Graph).block? c =
        (g.block? c).map fun data => if c ∈ order then { data with marked := true } else data := by
  have marking : g.markReached = .ok (order, { g.setMarks order true with order := none }) := by
    rw [markReached, reached]
    rfl
  have searched : Yields (fun _ => False) g.markReached _ := markReached_yields coherent
  exact searched.of_eq_ok marking

theorem simplifyRound_quiet {allowed : Fault → Prop} {xs : List BlockId} (coherent : g.Coherent xs)
    (ready : Ready allowed g xs) (ran : g.simplifyRound s = .ok (order, round, g'))
    (quiet : round.changed = false) : Rested s xs order round.dropped g g' := by
  obtain ⟨reached, eliminated, idle⟩ := of_simplifyRound_quiet ran quiet
  obtain ⟨explored, remarked, marks⟩ := marked_of_reached coherent reached
  obtain ⟨done, dropped_iff, -⟩ := (eliminate_yields coherent ready.unmarked explored remarked marks
    ready.enlisted).of_eq_ok eliminated
  exact ⟨done, dropped_iff, idle⟩

theorem Rested.resists {xs dropped : List BlockId} (rested : Rested s xs order dropped g g')
    {b : BlockId} (listed : b ∈ order) (notEntry : b ≠ .entry) (notExit : b ≠ .exit) {data : Block}
    (found : g'.block? b = some data) (live : data.isLive = true) : g'.Resists s b :=
  (reduceAll_quiet rested.idle).2.2 b listed notEntry notExit data found live

theorem Rested.mem_order {xs dropped : List BlockId} (rested : Rested s xs order dropped g g')
    {c : BlockId} (member : c ∈ xs.filter (· ∉ dropped)) (inner : c ≠ .exit) : c ∈ order := by
  simp only [List.mem_filter, decide_eq_true_eq, rested.dropped_iff] at member
  by_contra missed
  exact member.2 ⟨member.1, inner, missed⟩

end

/-! ## The last round of a run -/

/-- How a run has ended: some round came last, and if nothing was reduced in it, its order is kept. -/
structure Ended (s : Settings) (inv : Graph → Prop) (report : Report) (g' : Graph) : Prop where
  last : ∃ g order round g₁, inv g ∧ g.simplifyRound s = .ok (order, round, g₁) ∧
    report.rounds.getLast? = some round ∧
    if round.changed then g' = g₁ ∧ ∃ n, s.exhausted n = true else g' = { g₁ with order := some order }

theorem simplifyFrom_ended {s : Settings} {inv : Graph → Prop}
    (keeps : ∀ g order round g', inv g → g.simplifyRound s = .ok (order, round, g') → inv g')
    (n : Nat) : ∀ (made : List Round) (g : Graph), inv g →
      Yields (fun _ => True) (simplifyFrom s n made g) fun (report, g') => Ended s inv report g' := by
  induction n with
  | zero => exact fun _ _ _ => trivial
  | succ n ih =>
    intro made g holds
    refine (yields_of_forall fun _ => id).bind fun (order, round, g₁) ran => ?_
    have last : (round :: made).reverse.getLast? = some round := by simp
    dsimp only
    split
    · rename_i quiet
      refine yields_pure ⟨g, order, round, g₁, holds, ran, last, ?_⟩
      rw [if_neg (by simpa using quiet)]
    · rename_i changed
      split
      · rename_i exhausted
        refine yields_pure ⟨g, order, round, g₁, holds, ran, last, ?_⟩
        rw [if_pos (by simpa using changed)]
        exact ⟨rfl, _, exhausted⟩
      · exact ih (round :: made) g₁ (keeps g order round g₁ holds ran)

end FlowGraph.Graph
