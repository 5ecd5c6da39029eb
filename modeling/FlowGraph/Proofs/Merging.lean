import FlowGraph.Simplify.Rule
import FlowGraph.Proofs.Agreement
import FlowGraph.Proofs.Evolution

/-! # Merging empty blocks

An empty block passes on what enters it: first its labels, then the edges that come in explicitly,
and the fallthrough met last if it falls through itself. If that was all that entered, the block
loses its own edge and is retired; otherwise it stays for the sake of the rest.

The first half of this file follows the rule in any coherent graph. The second half tells the result
in views, for graphs that agree with their instructions: there at most one edge falls through into a
block, so that the block stays only if it branches away. -/

namespace FlowGraph.Graph

section

variable {allowed : Fault → Prop} {g g' : Graph} {xs : List BlockId} {b t : BlockId}

/-! ## Passing edges on -/

/-- The edge is there, leads to `b`, and does so explicitly or not. -/
def Enters (g : Graph) (b : BlockId) (explicit : Bool) (e : EdgeId) : Prop :=
  ∃ edge, g.edges.get? e = some edge ∧ edge.dst = b ∧ edge.kind.isExplicit = explicit

theorem enters_iff {e : EdgeId} {edge : Edge} (stored : g.edges.get? e = some edge)
    (dst : edge.dst = b) {explicit : Bool} :
    g.Enters b explicit e ↔ edge.kind.isExplicit = explicit := by
  simp [Enters, stored, dst]

/-- How far the edges `done` that enter `b` have been dealt with. -/
structure Passing (xs : List BlockId) (b t : BlockId) (g : Graph) (done : List EdgeId)
    (state : Graph × Option EdgeId × Nat) : Prop where
  coherent : state.1.Coherent xs
  moved : ∃ ms, Redirected ms t g state.1 ∧ (∀ e, e ∈ ms ↔ e ∈ done ∧ g.Enters b true e) ∧
    (state.2.2 = 0 → state.1 = g) ∧ (0 < state.2.2 → ms ≠ [])
  kept : ∀ e, state.2.1 = some e → e ∈ done ∧ g.Enters b false e
  none : state.2.1 = none → ∀ e ∈ done, g.Enters b true e

variable (allowed) in
theorem redirect_step {ms : List EdgeId} {h : Graph} (coherent : h.Coherent xs)
    (redirected : Redirected ms t g h) {new : Block} (foundNew : g.block? t = some new)
    (live : new.status = .live) (inner : t ≠ .entry) {e : EdgeId} {edge : Edge}
    (stored : g.edges.get? e = some edge) (fresh : e ∉ ms) :
    h.edges.get? e = some edge ∧ Yields allowed (h.redirect e t) fun h' =>
      h'.Coherent xs ∧ Redirected (ms ++ [e]) t g h' := by
  -- an edge that has not been sent on leads where it did
  have stored' : h.edges.get? e = some edge := by
    rw [redirected.edge, stored, Option.map_some, if_neg fresh]
  obtain ⟨new', foundNew', live'⟩ := redirected.exists_live foundNew live
  refine ⟨stored', (redirect_yields coherent stored' foundNew').mono fun h' result => ?_⟩
  obtain ⟨again, block⟩ := result
  exact ⟨coherent.redirected stored' foundNew' live' inner again block, redirected.trans again⟩

theorem passEdges_yields (coherent : g.Coherent xs) {data new : Block}
    (found : g.block? b = some data) (foundNew : g.block? t = some new) (live : new.status = .live)
    (inner : t ≠ .entry) : Yields allowed (data.preds.foldlM (passEdge b t) (g, none, 0))
      (Passing xs b t g data.preds) := by
  refine Yields.foldlM (Passing xs b t g) ⟨coherent, ⟨[], .refl t g, by simp, by simp, by simp⟩,
    by simp, by simp⟩ ?_
  intro done e rest ⟨h, kept, moved⟩ split ⟨coherent', ⟨ms, redirected, memIff, start, someSent⟩,
    keptIn, noneLeft⟩
  obtain ⟨edge, stored, dst⟩ := coherent.edge_of_mem_preds found (e := e) (by simp [split])
  -- no edge is listed twice, so this one has not been sent on yet
  have fresh : e ∉ ms := by
    have distinct := (coherent.preds found).1
    rw [split, List.nodup_append] at distinct
    intro member
    exact distinct.2.2 e ((memIff e).1 member).1 e (List.mem_cons_self ..) rfl
  obtain ⟨stored', redirects⟩ := redirect_step allowed coherent' redirected foundNew
    live inner stored fresh
  rw [passEdge, edge_bind stored']
  cases explicit : edge.kind.isExplicit with
  | true =>
    rw [if_pos rfl]
    apply redirects.bind
    intro h' result
    obtain ⟨coherent'', redirected'⟩ := result
    rw [require_bind dst]
    refine yields_pure ⟨coherent'', ⟨_, redirected', fun e' => ?sent, by simp, by simp⟩, ?waits, ?all⟩
    case sent =>
      have here := (enters_iff stored dst).2 explicit
      by_cases same : e' = e
      · simp [same, here]
      · simp [same, memIff]
    case waits =>
      intro e' isKept
      obtain ⟨member, enters⟩ := keptIn e' isKept
      exact ⟨by simp [member], enters⟩
    case all =>
      intro noneKept e' member
      rw [List.mem_append, List.mem_singleton] at member
      obtain member | rfl := member
      · exact noneLeft noneKept e' member
      · exact (enters_iff stored dst).2 explicit
  | false =>
    rw [if_neg (by simp)]
    have here := (enters_iff stored dst).2 explicit
    refine yields_pure ⟨coherent', ⟨ms, redirected, fun e' => ?_, start, someSent⟩, ?_, by simp⟩
    · by_cases same : e' = e
      · subst e'
        simp only [fresh, false_iff, not_and, enters_iff stored dst, explicit]
        simp
      · simp [same, memIff]
    · intro e' isKept
      cases isKept
      exact ⟨by simp, here⟩

/-! ## The rule in a coherent graph -/

/-- The edges `ms` that enter `b` lead to `t` now: all explicit ones, and some other one only if the
edge out of `b` falls through. -/
structure Forwarded (xs : List BlockId) (b t : BlockId) (kind : EdgeKind) (ms : List EdgeId)
    (g g' : Graph) : Prop where
  coherent : g'.Coherent xs
  redirected : Redirected ms t g g'
  enter : ∀ e ∈ ms, ∃ explicit, g.Enters b explicit e
  explicit : ∀ e, g.Enters b true e → e ∈ ms
  implicit : ∀ e ∈ ms, g.Enters b false e → kind = .fallthru
  rest : kind = .fallthru → ∀ e, g.Enters b false e → ∃ e' ∈ ms, g.Enters b false e'

/-- Forwards one more edge, which falls through, if the block does so itself. -/
theorem passKept_yields (coherent : g.Coherent xs) {data new : Block}
    (found : g.block? b = some data) (foundNew : g.block? t = some new) (live : new.status = .live)
    (inner : t ≠ .entry) {kind : EdgeKind} {h : Graph} {kept : Option EdgeId} {moved : Nat}
    (passing : Passing xs b t g data.preds (h, kept, moved)) :
    Yields allowed (passKept t kind (h, kept, moved)) fun (g', moved) =>
      ∃ ms, Forwarded xs b t kind ms g g' ∧ (moved = 0 → g' = g) ∧ (0 < moved → ms ≠ []) := by
  obtain ⟨coherent', ⟨ms, redirected, memIff, start, someSent⟩, keptIn, noneLeft⟩ := passing
  have listed {e : EdgeId} {explicit : Bool} (enters : g.Enters b explicit e) : e ∈ data.preds := by
    obtain ⟨edge, stored, rfl, -⟩ := enters
    exact coherent.mem_preds stored found
  have explicit (e : EdgeId) (enters : g.Enters b true e) : e ∈ ms :=
    (memIff e).2 ⟨listed enters, enters⟩
  -- all that was sent on so far entered explicitly
  have apart {e : EdgeId} (implicit : g.Enters b false e) : e ∉ ms := by
    intro member
    obtain ⟨edge, stored, dst, isExplicit⟩ := ((memIff e).1 member).2
    simp [(enters_iff stored dst).1 implicit] at isExplicit
  have unsent : Forwarded xs b t kind ms g h ↔
      (kind = .fallthru → ∀ e, g.Enters b false e → ∃ e' ∈ ms, g.Enters b false e') := by
    refine ⟨Forwarded.rest, fun rest => ⟨coherent', redirected, fun e member => ⟨true, ?_⟩, explicit,
      fun e member implicit => absurd member (apart implicit), rest⟩⟩
    exact ((memIff e).1 member).2
  cases kept with
  | none =>
    refine yields_pure ⟨ms, unsent.2 fun _ e implicit => ?_, start, someSent⟩
    obtain ⟨edge, stored, dst, isExplicit⟩ := noneLeft rfl e (listed implicit)
    simp [(enters_iff stored dst).1 implicit] at isExplicit
  | some e =>
    cases kind with
    | branch => exact yields_pure ⟨ms, unsent.2 (by simp), start, someSent⟩
    | except => exact yields_pure ⟨ms, unsent.2 (by simp), start, someSent⟩
    | ret => exact yields_pure ⟨ms, unsent.2 (by simp), start, someSent⟩
    | fallthru =>
      have enters := (keptIn e rfl).2
      have ⟨edge, stored, _⟩ := enters
      obtain ⟨-, redirects⟩ := redirect_step allowed coherent' redirected foundNew
        live inner stored (apart enters)
      refine redirects.bind fun g' result => yields_pure ⟨ms ++ [e], ?_, by simp, by simp⟩
      refine ⟨result.1, result.2, fun e' member => ?_, fun e' into => ?_, fun _ _ _ => rfl,
        fun _ e' _ => ⟨e, by simp, enters⟩⟩
      · rw [List.mem_append, List.mem_singleton] at member
        obtain member | rfl := member
        · exact ⟨true, ((memIff e').1 member).2⟩
        · exact ⟨false, enters⟩
      · exact List.mem_append_left _ (explicit e' into)

theorem forward_yields (coherent : g.Coherent xs) {data new : Block} (found : g.block? b = some data)
    (foundNew : g.block? t = some new) (live : new.status = .live) (inner : t ≠ .entry)
    (kind : EdgeKind) : Yields allowed
      (data.preds.foldlM (passEdge b t) (g, none, 0) >>= passKept t kind) fun (g', moved) =>
        ∃ ms, Forwarded xs b t kind ms g g' ∧ (moved = 0 → g' = g) ∧ (0 < moved → ms ≠ []) := by
  apply (passEdges_yields coherent found foundNew live inner).bind
  intro (h, kept, moved) passing
  exact passKept_yields coherent found foundNew live inner passing

theorem Forwarded.mem_preds_iff {kind : EdgeKind} {ms : List EdgeId}
    (forwarded : Forwarded xs b t kind ms g g') (apart : t ≠ b) {data : Block}
    (found : g'.block? b = some data) (e : EdgeId) :
    e ∈ data.preds ↔ (∃ explicit, g.Enters b explicit e) ∧ e ∉ ms := by
  rw [(forwarded.coherent.preds found).2 e, forwarded.redirected.edge]
  cases there : g.edges.get? e with
  | none => simp [Enters, there]
  | some edge =>
    by_cases sent : e ∈ ms
    · simp [sent, apart]
    · simp [sent, Enters, there]

theorem Forwarded.get?_out {kind : EdgeKind} {ms : List EdgeId} {out : EdgeId} {edge : Edge}
    (forwarded : Forwarded xs b t kind ms g g') (stored : g.edges.get? out = some edge)
    (apart : edge.dst ≠ b) : g'.edges.get? out = some edge := by
  have notSent : out ∉ ms := by
    intro sent
    obtain ⟨explicit, edge', stored', dst, -⟩ := forwarded.enter out sent
    rw [stored] at stored'
    cases stored'
    exact apart dst
  rw [forwarded.redirected.edge, stored, Option.map_some, if_neg notSent]

theorem leave_yields (coherent : g.Coherent xs) (member : b ∈ xs) (notEntry : b ≠ .entry)
    (notExit : b ≠ .exit) {out : EdgeId} {edge : Edge} (stored : g.edges.get? out = some edge)
    {data : Block} (found : g.block? b = some data) (succs : data.succs = [out])
    (preds : data.preds = []) (live : data.status = .live) :
    Yields allowed (g.disconnect out >>= (·.retire b)) fun g' => ∃ p n g₁,
      Pruned [out] g g₁ ∧ Retired p b n g₁ g' ∧ Evolves xs (xs.erase b) g g' := by
  apply (disconnect_yields coherent stored).bind
  intro g₁ pruned
  have found₁ : g₁.block? b = some (data.unlist [out]) := by
    rw [pruned.block, found, Option.map_some]
  apply (retire_yields (coherent.pruned pruned) member notEntry notExit found₁
    (by simp [Block.unlist, succs]) (by simp [Block.unlist, preds]) (.inl live)).mono
  intro g' result
  obtain ⟨⟨p, n, retired⟩, coherent'⟩ := result
  have evolves := retired.evolves coherent.laid.nodup member coherent'
  exact ⟨p, n, g₁, pruned, retired, (pruned.evolves coherent).trans evolves⟩

/-- What became of `b`: it stays because some edge still enters it, or it has gone with its edge. -/
inductive Fate (xs : List BlockId) (b : BlockId) (out : EdgeId) (ms : List EdgeId) (g g₁ : Graph) :
    List BlockId → Graph → Prop where
  | stays (waits : ∃ e explicit, g.Enters b explicit e ∧ e ∉ ms) : Fate xs b out ms g g₁ xs g₁
  | leaves {p n : BlockId} {g₂ g₃ : Graph} (all : ∀ e explicit, g.Enters b explicit e → e ∈ ms)
    (pruned : Pruned [out] g₁ g₂) (retired : Retired p b n g₂ g₃) :
    Fate xs b out ms g g₁ (xs.erase b) g₃

/-- What merging the empty block `b` into `t` does after its labels have gone from `g` to `g₀`. -/
structure MergedFrom (xs xs' : List BlockId) (b t : BlockId) (v : View) (out : EdgeId)
    (kind : EdgeKind) (ms : List EdgeId) (g g₀ g' : Graph) : Prop where
  seen : g.view b = some v
  listed : ∃ data, g.block? b = some data ∧ data.succs = [out]
  stored : g.edges.get? out = some ⟨b, t, kind⟩
  silent : kind = .branch ∨ kind = .fallthru
  apart : t ≠ b
  trivial : v.instrs.all (·.opcode.isTrivial) = true
  forwarded : ∃ g₁, Forwarded xs b t kind ms g₀ g₁ ∧ Fate xs b out ms g₀ g₁ xs' g'
  worth : xs' = xs → v.label.isSome ∨ ms ≠ []

/-- The rule does nothing, or merges `b` into its successor once the labels have been passed on,
which `moved` describes. -/
theorem mergeEmpty_yields (coherent : g.Coherent xs) (notEntry : b ≠ .entry)
    {data : Block} (found : g.block? b = some data) {moved : BlockId → Graph → Prop}
    (pass : ∀ t new, g.block? t = some new → b ≠ t → Yields allowed (g.passLabels b t data.label)
      fun g₀ => Relabelled g g₀ ∧ moved t g₀) :
    Yields allowed (mergeEmpty g b) fun (g', r) => (r = none ∧ g' = g) ∨
      ∃ xs' t v out kind ms n g₀, r = some (.blockMerged b t n) ∧ Evolves xs xs' g g' ∧
        Relabelled g g₀ ∧ moved t g₀ ∧ MergedFrom xs xs' b t v out kind ms g g₀ g' := by
  rw [mergeEmpty, block_bind found]
  split
  case h_2 => exact yields_pure (.inl ⟨rfl, rfl⟩)
  case h_1 out listed =>
  obtain ⟨edge, stored, src⟩ := coherent.edge_of_mem_succs found (e := out) (by simp [listed])
  rw [edge_bind stored]
  split
  case isFalse => exact yields_pure (.inl ⟨rfl, rfl⟩)
  case isTrue applies =>
  obtain ⟨silent, apart, empty⟩ := applies
  obtain ⟨inner, new, foundNew, live⟩ := coherent.target stored
  obtain ⟨member, notExit, liveB⟩ := coherent.of_mem_succs found (e := out) (by simp [listed])
  have unlabelled (g₀ : Graph) (passed : g.passLabels b edge.dst data.label = .ok g₀) :
      data.label = none → g₀ = g := by
    intro unlabelled
    rw [unlabelled] at passed
    cases passed
    rfl
  simp only
  apply ((pass edge.dst new foundNew apart.symm).and_of_eq_ok unlabelled).bind
  intro g₀ passed
  obtain ⟨⟨relabelled, moved⟩, unlabelled⟩ := passed
  have coherent₀ := coherent.relabelled relabelled
  obtain ⟨data₀, found₀, same₀⟩ := relabelled.block.exists_block found
  obtain ⟨new₀, foundNew₀, sameNew⟩ := relabelled.block.exists_block foundNew
  have liveNew : new₀.status = .live := (congrArg Block.status sameNew).trans live
  have preds : data.preds = data₀.preds := (congrArg Block.preds same₀).symm
  rw [preds]
  rw [← bind_assoc]
  apply (forward_yields coherent₀ found₀ foundNew₀ liveNew inner edge.kind).bind
  intro (g₁, count) ⟨ms, forwarded, unmoved, someSent⟩
  obtain ⟨data₁, found₁, same₁⟩ := forwarded.redirected.block.exists_block found₀
  have waits_iff := forwarded.mem_preds_iff apart found₁
  have evolves₁ := (relabelled.evolves coherent).trans
    (forwarded.redirected.evolves forwarded.coherent)
  -- whatever becomes of the block, the rest of the account is the same
  have mergedFrom {xs' : List BlockId} {g' : Graph} (fate : Fate xs b out ms g₀ g₁ xs' g')
      (worth : xs' = xs → data.label.isSome ∨ ms ≠ []) :
      MergedFrom xs xs' b edge.dst (g.look data) out edge.kind ms g g₀ g' :=
    ⟨view_eq found, ⟨data, found, listed⟩, src ▸ stored, silent, apart, empty,
      ⟨g₁, forwarded, fate⟩, worth⟩
  rw [block_bind found₁]
  split
  · rename_i noPreds
    have succs₁ : data₁.succs = [out] :=
      (congrArg Block.succs same₁).trans ((congrArg Block.succs same₀).trans listed)
    have live₁ : data₁.status = .live :=
      (congrArg Block.status same₁).trans ((congrArg Block.status same₀).trans liveB)
    have stored₁ := forwarded.get?_out (relabelled.edges ▸ stored) apart
    rw [← bind_assoc]
    refine (leave_yields forwarded.coherent member notEntry notExit stored₁ found₁ succs₁ noPreds
      live₁).bind fun g' result => ?_
    obtain ⟨p, n, g₂, pruned, retired, evolves⟩ := result
    have all (e : EdgeId) (explicit : Bool) (enters : g₀.Enters b explicit e) : e ∈ ms := by
      by_contra unsent
      have waits := (waits_iff e).2 ⟨⟨explicit, enters⟩, unsent⟩
      simp [noPreds] at waits
    have gone : xs.erase b ≠ xs := by
      intro same
      have absent := coherent.laid.nodup.not_mem_erase (a := b)
      rw [same] at absent
      exact absent member
    exact yields_pure (.inr ⟨_, _, _, _, _, _, _, _, rfl, evolves₁.trans evolves, relabelled, moved,
      mergedFrom (.leaves all pruned retired) fun same => absurd same gone⟩)
  · rename_i left
    obtain ⟨e, waiting⟩ := List.exists_mem_of_ne_nil _ left
    obtain ⟨⟨explicit, enters⟩, unsent⟩ := (waits_iff e).1 waiting
    split
    · rename_i worth
      exact yields_pure (.inr ⟨_, _, _, _, _, _, _, _, rfl, evolves₁, relabelled, moved,
        mergedFrom (.stays ⟨e, explicit, enters, unsent⟩) fun _ => worth.imp_right someSent⟩)
    · -- nothing was sent on and there was no label to pass on, so the graph is the one at the start
      rename_i worthless
      rw [not_or, Bool.not_eq_true, Option.isSome_eq_false_iff, Option.isNone_iff_eq_none,
        Nat.not_lt, Nat.le_zero] at worthless
      exact yields_pure (.inl ⟨rfl, (unmoved worthless.2).trans (unlabelled worthless.1)⟩)

end

/-! ## The rule in a graph that agrees -/

/-- The arrows to `b` lead to its successor `t` now, all of them if `b` has been retired and the
explicit ones if it stays. -/
structure Merged (xs xs' : List BlockId) (b t : BlockId) (v : View) (kind : EdgeKind)
    (whole : Bool) (g g' : Graph) : Prop where
  seen : g.view b = some v
  arrows : v.arrows = [(t, kind)]
  silent : kind = .branch ∨ kind = .fallthru
  apart : t ≠ b
  trivial : v.instrs.all (·.opcode.isTrivial) = true
  remaining : xs' = if whole then xs.erase b else xs
  other : ∀ c u, c ≠ b → g.view c = some u → ∃ label, g'.view c = some { u with
      label := label, arrows := u.arrows.map (sendOn b t fun k => whole || k.isExplicit) } ∧
    (c ≠ t → label = u.label) ∧ (label.isSome → v.label.isSome ∨ u.label.isSome)
  self : whole = false → g'.view b = some { v with label := none }
  labelled : whole = false → v.label.isSome
  target : whole = false → ∀ u, g.view t = some u → u.label.isSome
  agrees : g'.Agrees xs'
  exact : g'.LabelsExact

section

variable {g g₀ g' : Graph} {xs xs' : List BlockId} {b t : BlockId} {v : View} {out : EdgeId}
  {kind : EdgeKind} {ms : List EdgeId}

theorem sendOn_of_ne {d : BlockId} (apart : d ≠ b) (k : EdgeKind) (sent : EdgeKind → Bool) :
    sendOn b t sent (d, k) = (d, k) := by
  simp [sendOn, apart]

theorem sendOn_of_sent {a : BlockId × EdgeKind} {sent sent' : EdgeKind → Bool}
    (same : sent a.2 = sent' a.2) : sendOn b t sent a = sendOn b t sent' a := by
  simp [sendOn, same]

theorem MergedFrom.arrows (merged : MergedFrom xs xs' b t v out kind ms g g₀ g') :
    v.arrows = [(t, kind)] := by
  obtain ⟨data, found, listed⟩ := merged.listed
  have seen := merged.seen
  rw [view_eq found] at seen
  cases seen
  rw [look, listed, arrows_cons merged.stored]
  rfl

theorem Fate.labels {g₁ : Graph} (fate : Fate xs b out ms g₀ g₁ xs' g') : g'.labels = g₁.labels := by
  cases fate with
  | stays => rfl
  | leaves _ pruned retired => exact retired.labels.trans pruned.globals.labels

theorem Fate.catcher {g₁ : Graph} (fate : Fate xs b out ms g₀ g₁ xs' g') :
    g'.catcher = g₁.catcher := by
  cases fate with
  | stays => rfl
  | leaves _ pruned retired => exact retired.catcher.trans pruned.globals.catcher

theorem Fate.label {g₁ : Graph} (fate : Fate xs b out ms g₀ g₁ xs' g') :
    SameBlocks Block.label g₁ g' := by
  cases fate with
  | stays => exact .refl _ _
  | @leaves p n g₂ _ _ pruned retired =>
    have first : SameBlocks Block.label g₁ g₂ := .of_map pruned.block fun _ _ => rfl
    refine first.trans (.of_map retired.block fun c data => ?_)
    split <;> rfl

theorem MergedFrom.labelsExact (merged : MergedFrom xs xs' b t v out kind ms g g₀ g')
    (exact : g₀.LabelsExact) : g'.LabelsExact := by
  obtain ⟨g₁, forwarded, fate⟩ := merged.forwarded
  have label := (forwarded.redirected.block.weaken Block.label).trans fate.label
  exact exact.congr label (fate.labels.trans forwarded.redirected.globals.labels)

theorem MergedFrom.catcher (merged : MergedFrom xs xs' b t v out kind ms g g₀ g')
    (relabelled : Relabelled g g₀) : g'.catcher = g.catcher := by
  obtain ⟨g₁, forwarded, fate⟩ := merged.forwarded
  rw [fate.catcher, forwarded.redirected.globals.catcher, relabelled.catcher]

theorem MergedFrom.resolve (merged : MergedFrom xs xs' b t v out kind ms g g₀ g')
    (moved : LabelsMoved b t g g₀) (l : Label) :
    g'.resolve l = if g.resolve l = some b then some t else g.resolve l := by
  obtain ⟨g₁, forwarded, fate⟩ := merged.forwarded
  rw [← moved.resolve, resolve_congr fate.labels,
    resolve_congr forwarded.redirected.globals.labels]

/-- The block stays only if it branches away, and then exactly the explicit edges were sent on. -/
theorem MergedFrom.sent_iff (merged : MergedFrom xs xs' b t v out kind ms g g₀ g')
    (coherent : g.Coherent xs) (agrees : g.Agrees xs) (edges : g₀.edges = g.edges) {g₁ : Graph}
    (forwarded : Forwarded xs b t kind ms g₀ g₁)
    (waits : ∃ e explicit, g₀.Enters b explicit e ∧ e ∉ ms) : kind = .branch ∧
      ∀ e edge, g₀.edges.get? e = some edge →
        (e ∈ ms ↔ edge.dst = b ∧ edge.kind.isExplicit = true) := by
  obtain ⟨e₀, explicit, enters, unsent⟩ := waits
  have implicit₀ : g₀.Enters b false e₀ := by
    cases explicit with
    | true => exact absurd (forwarded.explicit e₀ enters) unsent
    | false => exact enters
  -- only one edge falls through into the block, and that is the one that waits
  have unique {e : EdgeId} (implicit : g₀.Enters b false e) : e = e₀ := by
    obtain ⟨edge, stored, dst, isImplicit⟩ := implicit
    obtain ⟨edge₀, stored₀, dst₀, isImplicit₀⟩ := implicit₀
    rw [edges] at stored stored₀
    exact agrees.implicit_unique coherent stored stored₀ isImplicit isImplicit₀ (dst.trans dst₀.symm)
  have notFallthru : kind ≠ .fallthru := by
    intro falls
    obtain ⟨e, sent, implicit⟩ := forwarded.rest falls e₀ implicit₀
    exact unsent (unique implicit ▸ sent)
  refine ⟨merged.silent.resolve_right notFallthru, fun e edge stored => ⟨fun sent => ?_, ?_⟩⟩
  · obtain ⟨explicit, enters⟩ := forwarded.enter e sent
    cases explicit with
    | true =>
      obtain ⟨edge', stored', dst, isExplicit⟩ := enters
      rw [stored] at stored'
      cases stored'
      exact ⟨dst, isExplicit⟩
    | false => exact absurd (forwarded.implicit e sent enters) notFallthru
  · intro ⟨dst, isExplicit⟩
    exact forwarded.explicit e ⟨edge, stored, dst, isExplicit⟩

theorem LabelsMoved.exists_view (moved : LabelsMoved b t g g₀) (seen : g.view b = some v)
    {c : BlockId} {u : View} (apart : c ≠ b) (seenC : g.view c = some u) :
    ∃ label, g₀.view c = some { u with label := label } ∧ (c ≠ t → label = u.label) ∧
      (label.isSome → v.label.isSome ∨ u.label.isSome) := by
  obtain ⟨data₀, found₀, seen₀⟩ := moved.relabelled.exists_view seenC
  obtain ⟨old, foundB, rfl⟩ := exists_of_view seen
  obtain ⟨data, found, rfl⟩ := exists_of_view seenC
  have other (notT : c ≠ t) : data₀.label = data.label := by
    rw [moved.other c apart notT, found] at found₀
    cases found₀
    rfl
  refine ⟨data₀.label, seen₀, other, fun labelled => ?_⟩
  by_cases atT : c = t
  · subst c
    exact moved.target old data data₀ foundB found found₀ labelled
  · rw [other atT] at labelled
    exact .inr labelled

/-- A block goes on agreeing if its explicit arrows follow the labels and its last one the layout. -/
theorem Agrees.sendOn (agrees : g.Agrees xs) {c : BlockId} {u : View} (member : c ∈ xs)
    (inner : c ≠ .exit) (seen : g.view c = some u) (notExit : b ≠ .exit)
    (resolve : ∀ l, g'.resolve l = if g.resolve l = some b then some t else g.resolve l)
    (catcher : g'.catcher = g.catcher) {sent : EdgeKind → Bool}
    (allExplicit : ∀ k, k.isExplicit = true → sent k = true)
    (falls : (u.fall (g.next? c)).map (sendOn b t sent) = u.fall (g'.next? c)) :
    ∃ explicit, g'.calls c u.last? = .ok explicit ∧
      u.arrows.map (sendOn b t sent) = explicit ++ u.fall (g'.next? c) := by
  obtain ⟨explicit, called, split⟩ := agrees c member inner u seen
  refine ⟨_, calls_moved notExit resolve catcher called, ?_⟩
  rw [split, List.map_append, falls]
  congr 1
  apply List.map_congr_left
  intro a inside
  exact sendOn_of_sent (allExplicit a.2 (mem_calls called inside).1)

/-- A block that stays has a label to lose, and its successor has one already. -/
theorem MergedFrom.labelled (merged : MergedFrom xs xs b t v out kind ms g g₀ g')
    (coherent : g.Coherent xs) (agrees : g.Agrees xs) (exact : g.LabelsExact)
    (edges : g₀.edges = g.edges) (branch : kind = .branch)
    (sent : ∀ e edge, g₀.edges.get? e = some edge →
      (e ∈ ms ↔ edge.dst = b ∧ edge.kind.isExplicit = true))
    (enter : ∀ e ∈ ms, ∃ explicit, g₀.Enters b explicit e) :
    v.label.isSome ∧ ∀ u, g.view t = some u → u.label.isSome := by
  obtain ⟨data, found, rfl⟩ := exists_of_view merged.seen
  have ownArrow : (t, kind) ∈ (g.look data).arrows := by simp [merged.arrows]
  obtain ⟨member, inner⟩ := coherent.of_mem_arrows merged.seen ownArrow
  refine ⟨?_, fun u seen => ?_⟩
  · obtain labelled | nonempty := merged.worth rfl
    · exact labelled
    · -- if an edge was sent on, it entered explicitly, hence by a label of the block
      obtain ⟨e, inMs⟩ := List.exists_mem_of_ne_nil _ nonempty
      obtain ⟨_, edge, stored, -⟩ := enter e inMs
      obtain ⟨dst, isExplicit⟩ := (sent e edge stored).1 inMs
      rw [edges] at stored
      obtain ⟨inside, notExit, src, foundSrc, -⟩ := coherent.source stored
      have arrow := (coherent.mem_arrows (view_eq foundSrc)).2 ⟨e, edge, stored, rfl, rfl⟩
      obtain ⟨atExit, -⟩ | ⟨l, bound⟩ :=
        agrees.resolve_of_explicit inside notExit (view_eq foundSrc) arrow isExplicit
      · exact absurd (dst.symm.trans atExit) inner
      · exact exact.isSome_label found (bound.trans (congrArg _ dst))
  · obtain ⟨target, foundT, rfl⟩ := exists_of_view seen
    obtain ⟨-, noBranch⟩ | ⟨l, bound⟩ := agrees.resolve_of_explicit member inner merged.seen ownArrow
      (by rw [branch]; rfl)
    · exact absurd branch noBranch
    · exact exact.isSome_label foundT bound

theorem Forwarded.mem_iff {g₁ : Graph} (forwarded : Forwarded xs b t kind ms g₀ g₁)
    (all : ∀ e explicit, g₀.Enters b explicit e → e ∈ ms) {e : EdgeId} {edge : Edge}
    (stored : g₀.edges.get? e = some edge) : e ∈ ms ↔ edge.dst = b := by
  constructor
  · intro sent
    obtain ⟨explicit, edge', stored', dst, -⟩ := forwarded.enter e sent
    rw [stored] at stored'
    cases stored'
    exact dst
  · intro dst
    exact all e _ ⟨edge, stored, dst, rfl⟩

theorem Forwarded.next? {g₁ : Graph} (forwarded : Forwarded xs b t kind ms g₀ g₁)
    (relabelled : Relabelled g g₀) (c : BlockId) : g₁.next? c = g.next? c := by
  rw [next?_congr (forwarded.redirected.block.weaken Block.next),
    next?_congr (relabelled.block.weaken Block.next)]

/-- A block that falls into `b` falls, once all its arrows have been sent on, to where `b` does. -/
theorem MergedFrom.fall_sendOn (merged : MergedFrom xs xs' b t v out kind ms g g₀ g')
    (coherent : g.Coherent xs) (agrees : g.Agrees xs) (edges : g₀.edges = g.edges) {g₁ : Graph}
    (forwarded : Forwarded xs b t kind ms g₀ g₁)
    (all : ∀ e explicit, g₀.Enters b explicit e → e ∈ ms) {c : BlockId} {u : View} (member : c ∈ xs)
    (inner : c ≠ .exit) (seen : g.view c = some u) :
    (u.fall (g.next? c)).map (FlowGraph.sendOn b t fun _ => true) =
      u.fall (if g.next? c = some b then g.next? b else g.next? c) := by
  obtain ⟨d, link⟩ := coherent.laid.exists_next? member inner
  rw [link, View.fall, View.fall]
  cases dead : u.deadEnd with
  | true => rfl
  | false =>
    by_cases here : d = b
    · -- what fell into `b` was sent on, so `b` itself falls through, into `t`
      subst d
      have falls : (b, EdgeKind.fallthru) ∈ u.arrows := by
        obtain ⟨explicit, -, split⟩ := agrees c member inner u seen
        rw [split, List.mem_append]
        exact .inr (View.mem_fall.2 ⟨dead, link, rfl⟩)
      obtain ⟨e, edge, stored, -, arrow⟩ := (coherent.mem_arrows seen).1 falls
      obtain ⟨rfl, isFall⟩ := Prod.mk.inj arrow
      rw [← edges] at stored
      have implicit : g₀.Enters edge.dst false e := ⟨edge, stored, rfl, by rw [isFall]; rfl⟩
      have fallsThrough := forwarded.implicit e (all e false implicit) implicit
      have ownArrow : (t, kind) ∈ v.arrows := by simp [merged.arrows]
      obtain ⟨inside, notExit⟩ := coherent.of_mem_arrows merged.seen ownArrow
      have next : g.next? edge.dst = some t :=
        agrees.next?_of_implicit inside notExit merged.seen ownArrow (by rw [fallsThrough]; rfl)
      simp [FlowGraph.sendOn, next]
    · simp [FlowGraph.sendOn, here]

section

variable (passed : MergedFrom xs xs' b t v out kind ms g g₀ g') (coherent : g.Coherent xs)
  (agrees : g.Agrees xs) (moved : LabelsMoved b t g g₀)
include passed coherent agrees moved

theorem MergedFrom.agrees_of_ne {sent : EdgeKind → Bool}
    (view : ∀ c, c ≠ b → g'.view c = (g₀.view c).map fun u =>
      { u with arrows := u.arrows.map (FlowGraph.sendOn b t sent) })
    (allExplicit : ∀ k, k.isExplicit = true → sent k = true) {c : BlockId} (member : c ∈ xs)
    (inner : c ≠ .exit) (apart : c ≠ b)
    (falls : ∀ u, g.view c = some u →
      (u.fall (g.next? c)).map (FlowGraph.sendOn b t sent) = u.fall (g'.next? c))
    (u : View) (seen : g'.view c = some u) :
    ∃ explicit, g'.calls c u.last? = .ok explicit ∧ u.arrows = explicit ++ u.fall (g'.next? c) := by
  obtain ⟨data, found⟩ := coherent.laid.exists_block member
  obtain ⟨label, seen₀, -⟩ := moved.exists_view passed.seen apart (view_eq found)
  rw [view c apart, seen₀] at seen
  cases seen
  have ownArrow : (t, kind) ∈ v.arrows := by simp [passed.arrows]
  have notExit := (coherent.of_mem_arrows passed.seen ownArrow).2
  exact agrees.sendOn member inner (view_eq found) notExit (passed.resolve moved)
    (passed.catcher moved.relabelled) allExplicit (falls _ (view_eq found))

theorem MergedFrom.leaves {p n : BlockId} {g₁ g₂ : Graph} (remaining : xs' = xs.erase b)
    (forwarded : Forwarded xs b t kind ms g₀ g₁)
    (all : ∀ e explicit, g₀.Enters b explicit e → e ∈ ms)
    (pruned : Pruned [out] g₁ g₂) (retired : Retired p b n g₂ g') :
    Merged xs xs' b t v kind true g g' := by
  have edges := moved.relabelled.edges
  have stored₀ : g₀.edges.get? out = some ⟨b, t, kind⟩ := edges ▸ passed.stored
  have stored₁ := forwarded.get?_out stored₀ passed.apart
  have view (c : BlockId) (apart : c ≠ b) : g'.view c = (g₀.view c).map fun u =>
      { u with arrows := u.arrows.map (FlowGraph.sendOn b t fun _ => true) } := by
    rw [retired.view apart, pruned.view_of_ne forwarded.coherent stored₁ apart]
    refine forwarded.redirected.view _ (fun e edge stored => ?_) c
    rw [forwarded.mem_iff all stored, eq_self, and_true]
  -- the layout closes behind the block that goes
  have next {c : BlockId} (member : c ∈ xs) (apart : c ≠ b) :
      g'.next? c = if g.next? c = some b then g.next? b else g.next? c := by
    have links (d : BlockId) : g₂.next? d = g.next? d := by
      rw [next?_congr (.of_map pruned.block fun _ _ => rfl), forwarded.next? moved.relabelled]
    rw [retired.next?_around (forwarded.coherent.pruned pruned).laid member apart, links, links]
  refine ⟨passed.seen, passed.arrows, passed.silent, passed.apart, passed.trivial, remaining,
    fun c u apart seen => ?_, by simp, by simp, by simp, ?_, passed.labelsExact moved.exact⟩
  · obtain ⟨label, seen₀, rest⟩ := moved.exists_view passed.seen apart seen
    exact ⟨label, by rw [view c apart, seen₀]; rfl, rest⟩
  · rw [remaining]
    intro c inside inner
    obtain ⟨apart, member⟩ := coherent.laid.nodup.mem_erase_iff.1 inside
    refine passed.agrees_of_ne coherent agrees moved view (fun _ _ => rfl) member inner apart ?_
    intro u seen
    rw [next member apart]
    exact passed.fall_sendOn coherent agrees edges forwarded all member inner seen

theorem MergedFrom.stays (exact : g.LabelsExact) (remaining : xs' = xs)
    (forwarded : Forwarded xs b t kind ms g₀ g')
    (waits : ∃ e explicit, g₀.Enters b explicit e ∧ e ∉ ms) :
    Merged xs xs' b t v kind false g g' := by
  subst remaining
  obtain ⟨branch, sent⟩ :=
    passed.sent_iff coherent agrees moved.relabelled.edges forwarded waits
  obtain ⟨labelled, target⟩ := passed.labelled coherent agrees exact moved.relabelled.edges branch
    sent forwarded.enter
  have view := forwarded.redirected.view EdgeKind.isExplicit sent
  have self : g'.view b = some { v with label := none } := by
    obtain ⟨data₀, found₀, seen₀⟩ := moved.relabelled.exists_view passed.seen
    rw [view, seen₀, moved.source data₀ found₀, Option.map_some]
    simp only [passed.arrows, List.map_singleton, sendOn_of_ne passed.apart]
  -- what falls through is not explicit, so it is not sent on
  have falls (c : BlockId) (u : View) :
      (u.fall (g.next? c)).map (FlowGraph.sendOn b t EdgeKind.isExplicit) =
        u.fall (g'.next? c) := by
    rw [forwarded.next? moved.relabelled]
    refine (List.map_congr_left fun a inFall => ?_).trans (List.map_id _)
    simp [FlowGraph.sendOn, (View.mem_fall.1 inFall).2.2, EdgeKind.isExplicit]
  refine ⟨passed.seen, passed.arrows, passed.silent, passed.apart, passed.trivial, rfl,
    fun c u apart seen => ?_, fun _ => self, fun _ => labelled, fun _ => target,
    fun c member inner => ?_, passed.labelsExact moved.exact⟩
  · obtain ⟨label, seen₀, rest⟩ := moved.exists_view passed.seen apart seen
    exact ⟨label, by rw [view, seen₀]; rfl, rest⟩
  · by_cases here : c = b
    · -- the block itself keeps its one arrow, which does not lead back to it
      subst c
      intro u seen
      rw [self] at seen
      cases seen
      have own := agrees.sendOn member inner passed.seen inner (passed.resolve moved)
        (passed.catcher moved.relabelled) (fun _ isExplicit => isExplicit) (falls b v)
      rwa [passed.arrows, List.map_singleton, sendOn_of_ne passed.apart, ← passed.arrows] at own
    · exact passed.agrees_of_ne coherent agrees moved (fun c _ => view c)
        (fun _ isExplicit => isExplicit) member inner here fun u _ => falls c u

theorem MergedFrom.merged (exact : g.LabelsExact) :
    ∃ whole, Merged xs xs' b t v kind whole g g' := by
  obtain ⟨g₁, forwarded, fate⟩ := passed.forwarded
  cases fate with
  | stays waits => exact ⟨false, passed.stays coherent agrees moved exact rfl forwarded waits⟩
  | leaves all pruned retired =>
    exact ⟨true, passed.leaves coherent agrees moved rfl forwarded all pruned retired⟩

end

end

end FlowGraph.Graph
