import FlowGraph.Graph.Terminator
import FlowGraph.Proofs.View

/-! # Graphs that agree with their instructions

The arrows of a block also follow from its last instruction, its dead end, the block behind it and
the labels. In a graph that agrees, both accounts are the same. Explicit arrows follow from the
instruction alone; giving the labels of one block to another sends exactly those arrows on. -/

namespace FlowGraph

def View.last? (v : View) : Option Instr := v.instrs.getLast?

/-- The arrow by which control leaves the bottom of a block in front of `next`. -/
def View.fall (v : View) (next : Option BlockId) : List (BlockId × EdgeKind) :=
  if v.deadEnd then [] else (next.map (·, .fallthru)).toList

theorem View.mem_fall {v : View} {next : Option BlockId} {a : BlockId × EdgeKind} :
    a ∈ v.fall next ↔ v.deadEnd = false ∧ next = some a.1 ∧ a.2 = .fallthru := by
  obtain ⟨d, k⟩ := a
  unfold fall
  cases v.deadEnd with
  | true => simp
  | false => simp [eq_comm (a := k)]

namespace Graph

/-- The arrows that the last instruction of `b` calls for. -/
def calls (g : Graph) (b : BlockId) : Option Instr → Except Fault (List (BlockId × EdgeKind))
  | none => .ok []
  | some i => g.transfers b i

section

variable {g g' : Graph} {b c t : BlockId} {v : View}

theorem outgoing_of_block {data : Block} (found : g.block? b = some data) :
    g.outgoing b =
      g.calls b data.last? >>= fun explicit => .ok (explicit ++ fallthrough data) := by
  rw [outgoing, block_bind found]
  cases last : data.last? with
  | none => rfl
  | some i => rfl

theorem outgoing_eq (seen : g.view b = some v) :
    g.outgoing b = g.calls b v.last? >>= fun explicit => .ok (explicit ++ v.fall (g.next? b)) := by
  obtain ⟨data, found, rfl⟩ := exists_of_view seen
  rw [outgoing_of_block found, next?_eq found]
  rfl

end

/-! ## What an instruction calls for -/

end Graph

/-- Where an instruction sends control, before labels are looked up. -/
inductive Aim where
  | exit
  | handler
  | label (l : Label)

/-- The aims of an instruction with the kinds of the arrows; none if a destination is missing. -/
def Instr.aims? (i : Instr) : Option (List (Aim × EdgeKind)) :=
  match i.opcode.flow with
  | .ret => some [(.exit, .ret)]
  | .branch | .conditionalBranch => i.dest.map fun l => [(.label l, .branch)]
  | .callHandler => i.dest.map fun l => [(.label l, .except)]
  | .throw | .call => some [(.handler, .except)]
  | .jumpTable => some (i.table.map fun l => (.label l, .branch))
  | .sequential => some []

theorem Instr.kind_of_aims {i : Instr} {aims : List (Aim × EdgeKind)} (aimed : i.aims? = some aims) :
    ∀ aim ∈ aims, aim.2.isExplicit = true ∧ (aim.2 = .branch → ∃ l, aim.1 = .label l) := by
  unfold aims? at aimed
  cases flow : i.opcode.flow with
  | sequential | ret | throw | call | jumpTable =>
    rw [flow] at aimed
    cases aimed
    simp [EdgeKind.isExplicit]
  | branch | conditionalBranch | callHandler =>
    rw [flow] at aimed
    obtain ⟨l, -, rfl⟩ := Option.map_eq_some_iff.1 aimed
    simp [EdgeKind.isExplicit]

namespace Graph

def hit? (g : Graph) : Aim → Option BlockId
  | .exit => some .exit
  | .handler => some g.handler
  | .label l => g.resolve l

/-- The arrow goes where it is aimed. -/
def Hits (g : Graph) (aim : Aim × EdgeKind) (a : BlockId × EdgeKind) : Prop :=
  g.hit? aim.1 = some a.1 ∧ aim.2 = a.2

section

variable {g g' : Graph} {b c t : BlockId} {i : Instr} {out : List (BlockId × EdgeKind)}

theorem target_eq_ok {l : Label} {d : BlockId} : g.target c l = .ok d ↔ g.resolve l = some d := by
  unfold target
  split <;> simp_all

theorem destination_eq_ok {k : EdgeKind} :
    (do return [(← g.destination c i, k)]) = Except.ok out ↔
      ∃ aims, (i.dest.map fun l => [(Aim.label l, k)]) = some aims ∧ List.Forall₂ g.Hits aims out := by
  unfold destination
  cases i.dest with
  | none =>
    constructor
    · intro failed
      cases failed
    · intro ⟨_, failed, _⟩
      cases failed
  | some l =>
    simp only [bind_eq_ok, target_eq_ok, Option.map_some, Option.some.injEq, exists_eq_left']
    constructor
    · intro ⟨d, bound, same⟩
      cases same
      exact .cons ⟨bound, rfl⟩ .nil
    · intro hits
      cases hits with
      | cons hit rest =>
        cases rest
        obtain ⟨bound, rfl⟩ := hit
        exact ⟨_, bound, rfl⟩

/-- An instruction calls for an arrow for each of its aims, provided all of them are met. -/
theorem transfers_eq_ok :
    g.transfers c i = .ok out ↔ ∃ aims, i.aims? = some aims ∧ List.Forall₂ g.Hits aims out := by
  have single (aim : Aim) (d : BlockId) (k : EdgeKind) (met : g.hit? aim = some d) :
      (Except.ok [(d, k)] : Except Fault _) = .ok out ↔
        ∃ aims, some [(aim, k)] = some aims ∧ List.Forall₂ g.Hits aims out := by
    simp only [Except.ok.injEq, Option.some.injEq, exists_eq_left', List.forall₂_cons_left_iff,
      List.forall₂_nil_left_iff, Hits, met]
    constructor
    · rintro rfl
      exact ⟨(d, k), [], ⟨rfl, rfl⟩, rfl, rfl⟩
    · rintro ⟨⟨d', k'⟩, _, ⟨same, rfl⟩, rfl, rfl⟩
      cases same
      rfl
  unfold transfers Instr.aims?
  cases i.opcode.flow with
  | sequential => simp [List.forall₂_nil_left_iff, eq_comm]
  | ret => exact single .exit _ _ rfl
  | branch => exact destination_eq_ok
  | conditionalBranch => exact destination_eq_ok
  | callHandler => exact destination_eq_ok
  | throw => exact single .handler _ _ rfl
  | call => exact single .handler _ _ rfl
  | jumpTable =>
    have entry (l : Label) (a : BlockId × EdgeKind) :
        (do return (← g.target c l, .branch)) = Except.ok a ↔ g.Hits (.label l, .branch) a := by
      obtain ⟨d, k⟩ := a
      simp only [bind_eq_ok, target_eq_ok, pure, Except.pure, Except.ok.injEq, Prod.mk.injEq, Hits,
        hit?]
      constructor
      · rintro ⟨_, bound, rfl, rfl⟩
        exact ⟨bound, rfl⟩
      · rintro ⟨bound, rfl⟩
        exact ⟨d, bound, rfl, rfl⟩
    simp only [mapM_eq_ok, entry, Option.some.injEq, exists_eq_left', List.forall₂_map_left_iff]

/-! ## Labels that move -/

theorem calls_congr (resolve : ∀ l, g'.resolve l = g.resolve l) (catcher : g'.catcher = g.catcher)
    (c : BlockId) (o : Option Instr) : g'.calls c o = g.calls c o := by
  have target : g'.target = g.target := by
    funext c l
    rw [target, target, resolve]
  have handler : g'.handler = g.handler := by
    have same : g'.resolve = g.resolve := funext resolve
    rw [Graph.handler, Graph.handler, catcher, same]
  cases o with
  | none => rfl
  | some i => simp only [calls, transfers, destination, target, handler]

theorem hit?_moved (apart : b ≠ .exit)
    (resolve : ∀ l, g'.resolve l = if g.resolve l = some b then some t else g.resolve l)
    (catcher : g'.catcher = g.catcher) {aim : Aim} {d : BlockId} (met : g.hit? aim = some d) :
    g'.hit? aim = some (if d = b then t else d) := by
  have label (l : Label) : g'.resolve l = (g.resolve l).map fun d => if d = b then t else d := by
    rw [resolve]
    cases g.resolve l with
    | none => simp
    | some d => by_cases here : d = b <;> simp [here]
  cases aim with
  | exit =>
    cases met
    rw [if_neg apart.symm]
    rfl
  | label l => rw [hit?, label, show g.resolve l = some d from met, Option.map_some]
  | handler =>
    cases met
    obtain absent | ⟨l, present⟩ : g.catcher = none ∨ ∃ l, g.catcher = some l := by
      cases g.catcher <;> simp
    · simp [hit?, Graph.handler, catcher, absent, apart.symm]
    · cases bound : g.resolve l with
      | none => simp [hit?, Graph.handler, catcher, present, label, bound, apart.symm]
      | some d => simp [hit?, Graph.handler, catcher, present, label, bound]

/-- Giving the labels of `b` to `t` sends the arrows to `b` on to `t`. -/
theorem calls_moved (apart : b ≠ .exit)
    (resolve : ∀ l, g'.resolve l = if g.resolve l = some b then some t else g.resolve l)
    (catcher : g'.catcher = g.catcher) {o : Option Instr} (called : g.calls c o = .ok out) :
    g'.calls c o = .ok (out.map (sendOn b t fun _ => true)) := by
  cases o with
  | none =>
    cases called
    rfl
  | some i =>
    rw [calls, transfers_eq_ok] at called ⊢
    obtain ⟨aims, aimed, hits⟩ := called
    refine ⟨aims, aimed, List.forall₂_map_right_iff.2 (hits.imp fun aim a hit => ?_)⟩
    obtain ⟨d, k⟩ := a
    have moved := hit?_moved apart resolve catcher hit.1
    by_cases here : d = b
    · simpa [Hits, sendOn, here, hit.2] using moved
    · simpa [Hits, sendOn, here, hit.2] using moved

/-- Every arrow that an instruction calls for is explicit. It leads where a label does, or to exit,
but not for a branch. -/
theorem mem_calls {o : Option Instr} (called : g.calls c o = .ok out) {a : BlockId × EdgeKind}
    (member : a ∈ out) : a.2.isExplicit = true ∧
      ((a.1 = .exit ∧ a.2 ≠ .branch) ∨ ∃ l, g.resolve l = some a.1) := by
  cases o with
  | none =>
    cases called
    cases member
  | some i =>
    obtain ⟨aims, aimed, hits⟩ := transfers_eq_ok.1 called
    obtain ⟨aim, inAims, met, kind⟩ := exists_of_forall₂ hits member
    obtain ⟨isExplicit, branch⟩ := Instr.kind_of_aims aimed aim inAims
    rw [kind] at isExplicit branch
    refine ⟨isExplicit, ?_⟩
    obtain ⟨aim, k⟩ := aim
    cases aim with
    | exit => exact .inl ⟨(Option.some.inj met).symm, fun isBranch => by simpa using branch isBranch⟩
    | label l => exact .inr ⟨l, met⟩
    | handler =>
      have met : g.handler = a.1 := Option.some.inj met
      unfold Graph.handler at met
      cases bound : g.catcher.bind g.resolve with
      | none =>
        rw [bound] at met
        exact .inl ⟨met.symm, fun isBranch => by simpa using branch isBranch⟩
      | some d =>
        rw [bound] at met
        obtain ⟨l, -, bound⟩ := Option.bind_eq_some_iff.1 bound
        exact .inr ⟨l, by rw [bound, ← met]; rfl⟩

end

/-! ## Agreement -/

/-- The arrows of every block of the layout, exit apart, are those its instructions call for. -/
def Agrees (g : Graph) (xs : List BlockId) : Prop :=
  ∀ b ∈ xs, b ≠ .exit → ∀ v, g.view b = some v →
    ∃ explicit, g.calls b v.last? = .ok explicit ∧ v.arrows = explicit ++ v.fall (g.next? b)

theorem agrees_iff {g : Graph} {xs : List BlockId} : g.Agrees xs ↔
    ∀ b ∈ xs, b ≠ .exit → ∀ v, g.view b = some v → g.outgoing b = .ok v.arrows := by
  have single {b : BlockId} {v : View} (seen : g.view b = some v) : g.outgoing b = .ok v.arrows ↔
      ∃ explicit, g.calls b v.last? = .ok explicit ∧ v.arrows = explicit ++ v.fall (g.next? b) := by
    rw [outgoing_eq seen, bind_eq_ok]
    simp only [Except.ok.injEq, eq_comm (a := v.arrows)]
  constructor
  · intro agrees b member inner v seen
    exact (single seen).2 (agrees b member inner v seen)
  · intro agrees b member inner v seen
    exact (single seen).1 (agrees b member inner v seen)

section

variable {g g' : Graph} {xs : List BlockId} {b : BlockId} {v : View}

/-- An arrow that is not explicit leads to the block behind. -/
theorem Agrees.next?_of_implicit (agrees : g.Agrees xs) (member : b ∈ xs) (inner : b ≠ .exit)
    (seen : g.view b = some v) {a : BlockId × EdgeKind} (arrow : a ∈ v.arrows)
    (implicit : a.2.isExplicit = false) : g.next? b = some a.1 := by
  obtain ⟨explicit, called, split⟩ := agrees b member inner v seen
  rw [split, List.mem_append] at arrow
  obtain arrow | arrow := arrow
  · simp [(mem_calls called arrow).1] at implicit
  · exact (View.mem_fall.1 arrow).2.1

/-- An explicit arrow leads where a label does, or to exit, but not for a branch. -/
theorem Agrees.resolve_of_explicit (agrees : g.Agrees xs) (member : b ∈ xs) (inner : b ≠ .exit)
    (seen : g.view b = some v) {a : BlockId × EdgeKind} (arrow : a ∈ v.arrows)
    (isExplicit : a.2.isExplicit = true) :
    (a.1 = .exit ∧ a.2 ≠ .branch) ∨ ∃ l, g.resolve l = some a.1 := by
  obtain ⟨explicit, called, split⟩ := agrees b member inner v seen
  rw [split, List.mem_append] at arrow
  obtain arrow | arrow := arrow
  · exact (mem_calls called arrow).2
  · simp [(View.mem_fall.1 arrow).2.2, EdgeKind.isExplicit] at isExplicit

theorem Agrees.countP_implicit (agrees : g.Agrees xs) (member : b ∈ xs) (inner : b ≠ .exit)
    (seen : g.view b = some v) : v.arrows.countP (fun a => !a.2.isExplicit) ≤ 1 := by
  obtain ⟨explicit, called, split⟩ := agrees b member inner v seen
  have none : explicit.countP (fun a => !a.2.isExplicit) = 0 := by
    apply List.countP_eq_zero.2
    intro a member
    simp [(mem_calls called member).1]
  have short : (v.fall (g.next? b)).length ≤ 1 := by
    unfold View.fall
    cases v.deadEnd with
    | true => simp
    | false => cases g.next? b <;> simp
  have few := List.countP_le_length (p := fun a => !a.2.isExplicit) (l := v.fall (g.next? b))
  rw [split, List.countP_append, none]
  omega

theorem eq_of_length_le_one {α : Type} {l : List α} (short : l.length ≤ 1) {x y : α} (first : x ∈ l)
    (second : y ∈ l) : x = y := by
  match l with
  | [z] => exact (List.mem_singleton.1 first).trans (List.mem_singleton.1 second).symm
  | _ :: _ :: _ => simp at short

/-- At most one edge falls through into a block. -/
theorem Agrees.implicit_unique (agrees : g.Agrees xs) (coherent : g.Coherent xs) {e e' : EdgeId}
    {edge edge' : Edge} (stored : g.edges.get? e = some edge) (stored' : g.edges.get? e' = some edge')
    (implicit : edge.kind.isExplicit = false) (implicit' : edge'.kind.isExplicit = false)
    (same : edge.dst = edge'.dst) : e = e' := by
  obtain ⟨member, inner, data, found, -⟩ := coherent.source stored
  obtain ⟨member', inner', data', found', -⟩ := coherent.source stored'
  have arrow := (coherent.mem_arrows (view_eq found)).2 ⟨e, edge, stored, rfl, rfl⟩
  have arrow' := (coherent.mem_arrows (view_eq found')).2 ⟨e', edge', stored', rfl, rfl⟩
  have next : g.next? edge.src = some edge.dst :=
    agrees.next?_of_implicit member inner (view_eq found) arrow implicit
  have next' : g.next? edge'.src = some edge'.dst :=
    agrees.next?_of_implicit member' inner' (view_eq found') arrow' implicit'
  have src : edge.src = edge'.src := coherent.laid.next?_inj member member' next (same ▸ next')
  rw [← src, found] at found'
  cases found'
  -- among the edges of this one block only one is not explicit
  have few := agrees.countP_implicit member inner (view_eq found)
  rw [look, arrows, List.countP_filterMap, List.countP_eq_length_filter] at few
  refine eq_of_length_le_one few (List.mem_filter.2 ⟨coherent.mem_succs stored found, ?_⟩)
    (List.mem_filter.2 ⟨coherent.mem_succs stored' (src ▸ found), ?_⟩)
  · simp [stored, Edge.arrow, implicit]
  · simp [stored', Edge.arrow, implicit']

theorem Agrees.eliminated {gone : List BlockId} (agrees : g.Agrees xs) (coherent : g.Coherent xs)
    (eliminated : Eliminated xs gone g g') : g'.Agrees (xs.filter (· ∉ gone)) := by
  intro b member inner v seen
  obtain ⟨member, kept⟩ := List.mem_filter.1 member
  have kept : b ∉ gone := by simpa using kept
  rw [eliminated.view coherent kept] at seen
  obtain ⟨explicit, called, split⟩ := agrees b member inner v seen
  refine ⟨explicit, ?_, ?_⟩
  · rw [calls_congr (resolve_congr eliminated.labels) eliminated.catcher, called]
  · rw [split]
    congr 1
    -- a block that falls through has an arrow to the next one, which therefore stays
    cases dead : v.deadEnd with
    | true => simp [View.fall, dead]
    | false =>
      obtain ⟨l, n, r, around⟩ := coherent.laid.exists_behind member inner
      have next := (coherent.laid.linked around).1
      have falls : (n, EdgeKind.fallthru) ∈ v.arrows := by
        rw [split, List.mem_append]
        exact .inr (View.mem_fall.2 ⟨dead, next, rfl⟩)
      obtain ⟨e, edge, stored, src, arrow⟩ := (coherent.mem_arrows seen).1 falls
      have keptNext : n ∉ gone := by
        have dst : edge.dst = n := congrArg Prod.fst arrow
        rw [← dst]
        exact eliminated.closed e edge stored (src ▸ kept)
      have around' : xs.filter (· ∉ gone) = l.filter (· ∉ gone) ++ b :: n :: r.filter (· ∉ gone) := by
        rw [around, List.filter_append, List.filter_cons_of_pos (by simpa using kept),
          List.filter_cons_of_pos (by simpa using keptNext)]
      rw [next, (eliminated.coherent.laid.linked around').1]

end

end Graph

end FlowGraph
