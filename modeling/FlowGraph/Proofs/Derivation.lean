import FlowGraph.Proofs.Build
import FlowGraph.Proofs.Frame

/-! # Which edges a build derives

What the edges of a graph ought to be is said here by rules: one for each way in which an
instruction can end a block, and two for the bottom of a block. A build gives exactly the edges that
these rules derive along the layout, numbered from zero in the order of their derivation, and
nothing is left of the edges there were before.

The edges are planned before the old ones go. They may as well be worked out one block at a time
from the graph that is being filled: filling it changes neither links nor instructions nor labels,
so the same edges come out. -/

namespace FlowGraph.Graph

/-! ## Rules -/

/-- An instruction at the end of a block sends control along these arrows. -/
inductive Sends (g : Graph) (i : Instr) : List (BlockId × EdgeKind) → Prop where
  | ret (flow : i.opcode.flow = .ret) : Sends g i [(.exit, .ret)]
  | branch {l : Label} {t : BlockId}
      (flow : i.opcode.flow = .branch ∨ i.opcode.flow = .conditionalBranch)
      (dest : i.dest = some l) (bound : g.resolve l = some t) : Sends g i [(t, .branch)]
  | callHandler {l : Label} {t : BlockId} (flow : i.opcode.flow = .callHandler)
      (dest : i.dest = some l) (bound : g.resolve l = some t) : Sends g i [(t, .except)]
  | caught {l : Label} {t : BlockId} (flow : i.opcode.flow = .throw ∨ i.opcode.flow = .call)
      (catcher : g.catcher = some l) (bound : g.resolve l = some t) : Sends g i [(t, .except)]
  | uncaught (flow : i.opcode.flow = .throw ∨ i.opcode.flow = .call)
      (free : ∀ l, g.catcher = some l → g.resolve l = none) : Sends g i [(.exit, .except)]
  | jumpTable {ts : List BlockId} (flow : i.opcode.flow = .jumpTable)
      (bound : List.Forall₂ (fun l t => g.resolve l = some t) i.table ts) :
      Sends g i (ts.map (·, .branch))
  | sequential (flow : i.opcode.flow = .sequential) : Sends g i []

/-- The instructions of a block send control along these arrows. -/
inductive Explicit (g : Graph) (data : Block) : List (BlockId × EdgeKind) → Prop where
  | empty (last : data.instrs.getLast? = none) : Explicit g data []
  | last {i : Instr} {out : List (BlockId × EdgeKind)} (last : data.instrs.getLast? = some i)
      (sends : g.Sends i out) : Explicit g data out

/-- The edges of the blocks of a layout, block by block: those of its instructions, and then one to
the block behind it unless it is a dead end. The last block has none. -/
inductive Derived (g : Graph) : List BlockId → List Edge → Prop where
  | last (b : BlockId) : Derived g [b] []
  | stops {b c : BlockId} {xs : List BlockId} {data : Block} {out : List (BlockId × EdgeKind)}
      {es : List Edge} (found : g.block? b = some data) (explicit : g.Explicit data out)
      (dead : data.deadEnd = true) (rest : Derived g (c :: xs) es) :
      Derived g (b :: c :: xs) (edgesFrom b out ++ es)
  | falls {b c : BlockId} {xs : List BlockId} {data : Block} {out : List (BlockId × EdgeKind)}
      {es : List Edge} (found : g.block? b = some data) (explicit : g.Explicit data out)
      (dead : data.deadEnd = false) (rest : Derived g (c :: xs) es) :
      Derived g (b :: c :: xs) (edgesFrom b out ++ ⟨b, c, .fallthru⟩ :: es)

section

variable {g g' h : Graph} {xs : List BlockId} {es : List Edge} {b c : BlockId}
  {out : List (BlockId × EdgeKind)}

/-! ## What is worked out follows the rules -/

theorem handler_of_caught {l : Label} {t : BlockId} (catcher : g.catcher = some l)
    (bound : g.resolve l = some t) : g.handler = t := by
  simp [handler, catcher, bound]

theorem handler_of_uncaught (free : ∀ l, g.catcher = some l → g.resolve l = none) :
    g.handler = .exit := by
  cases catcher : g.catcher with
  | none => simp [handler, catcher]
  | some l => simp [handler, catcher, free l catcher]

theorem sends_handler {i : Instr} (flow : i.opcode.flow = .throw ∨ i.opcode.flow = .call) :
    g.Sends i [(g.handler, .except)] := by
  by_cases caught : ∃ l t, g.catcher = some l ∧ g.resolve l = some t
  · obtain ⟨l, t, catcher, bound⟩ := caught
    rw [handler_of_caught catcher bound]
    exact .caught flow catcher bound
  · have free (l : Label) (catcher : g.catcher = some l) : g.resolve l = none := by
      cases bound : g.resolve l with
      | none => rfl
      | some t => exact absurd ⟨l, t, catcher, bound⟩ caught
    rw [handler_of_uncaught free]
    exact .uncaught flow free

/-- One arrow that is aimed hits one block. -/
theorem forall₂_hits_singleton {aim : Aim} {k : EdgeKind} :
    List.Forall₂ g.Hits [(aim, k)] out ↔ ∃ t, g.hit? aim = some t ∧ out = [(t, k)] := by
  simp [List.forall₂_cons_left_iff, List.forall₂_nil_left_iff, Hits]

/-- Arrows that are aimed at labels hit one block each. -/
theorem forall₂_hits_labels {ls : List Label} {k : EdgeKind} :
    List.Forall₂ g.Hits (ls.map fun l => (.label l, k)) out ↔
      ∃ ts, List.Forall₂ (fun l t => g.resolve l = some t) ls ts ∧ out = ts.map (·, k) := by
  rw [List.forall₂_map_left_iff]
  constructor
  · intro hits
    induction hits with
    | nil => exact ⟨[], .nil, rfl⟩
    | @cons l a ls out hit _ ih =>
      obtain ⟨ts, rest, rfl⟩ := ih
      obtain ⟨bound, rfl⟩ := hit
      exact ⟨a.1 :: ts, .cons bound rest, rfl⟩
  · intro found
    obtain ⟨ts, bound, rfl⟩ := found
    rw [List.forall₂_map_right_iff]
    exact bound.imp fun l t bound => ⟨bound, rfl⟩

/-- The rules for instructions are complete, and they are followed. -/
theorem transfers_eq_ok_iff_sends {i : Instr} : g.transfers b i = .ok out ↔ g.Sends i out := by
  rw [transfers_eq_ok]
  constructor
  · intro aimed
    obtain ⟨aims, aimed, hits⟩ := aimed
    unfold Instr.aims? at aimed
    cases flow : i.opcode.flow with
    | ret =>
      rw [flow] at aimed
      cases aimed
      obtain ⟨t, hit, rfl⟩ := forall₂_hits_singleton.1 hits
      cases hit
      exact .ret flow
    | throw | call =>
      rw [flow] at aimed
      cases aimed
      obtain ⟨t, hit, rfl⟩ := forall₂_hits_singleton.1 hits
      cases hit
      exact sends_handler (by simp [flow])
    | branch | conditionalBranch =>
      rw [flow] at aimed
      obtain ⟨l, dest, rfl⟩ := Option.map_eq_some_iff.1 aimed
      obtain ⟨t, bound, rfl⟩ := forall₂_hits_singleton.1 hits
      exact .branch (by simp [flow]) dest bound
    | callHandler =>
      rw [flow] at aimed
      obtain ⟨l, dest, rfl⟩ := Option.map_eq_some_iff.1 aimed
      obtain ⟨t, bound, rfl⟩ := forall₂_hits_singleton.1 hits
      exact .callHandler flow dest bound
    | jumpTable =>
      rw [flow] at aimed
      cases aimed
      obtain ⟨ts, bound, rfl⟩ := forall₂_hits_labels.1 hits
      exact .jumpTable flow bound
    | sequential =>
      rw [flow] at aimed
      cases aimed
      cases hits
      exact .sequential flow
  · intro sends
    have aimed_handler (flow : i.opcode.flow = .throw ∨ i.opcode.flow = .call) :
        i.aims? = some [(.handler, .except)] := by
      obtain flow | flow := flow <;> rw [Instr.aims?, flow]
    cases sends with
    | ret flow => exact ⟨_, by rw [Instr.aims?, flow], forall₂_hits_singleton.2 ⟨_, rfl, rfl⟩⟩
    | @branch l t flow dest bound =>
      have aimed : i.aims? = some [(.label l, .branch)] := by
        obtain flow | flow := flow <;> rw [Instr.aims?, flow, dest] <;> rfl
      exact ⟨_, aimed, forall₂_hits_singleton.2 ⟨_, bound, rfl⟩⟩
    | @callHandler l t flow dest bound =>
      have aimed : i.aims? = some [(.label l, .except)] := by
        rw [Instr.aims?, flow, dest]
        rfl
      exact ⟨_, aimed, forall₂_hits_singleton.2 ⟨_, bound, rfl⟩⟩
    | caught flow catcher bound =>
      rw [← handler_of_caught catcher bound]
      exact ⟨_, aimed_handler flow, forall₂_hits_singleton.2 ⟨_, rfl, rfl⟩⟩
    | uncaught flow free =>
      rw [← handler_of_uncaught free]
      exact ⟨_, aimed_handler flow, forall₂_hits_singleton.2 ⟨_, rfl, rfl⟩⟩
    | jumpTable flow bound =>
      exact ⟨_, by rw [Instr.aims?, flow], forall₂_hits_labels.2 ⟨_, bound, rfl⟩⟩
    | sequential flow => exact ⟨_, by rw [Instr.aims?, flow], .nil⟩

theorem calls_eq_ok_iff_explicit {data : Block} :
    g.calls b data.last? = .ok out ↔ g.Explicit data out := by
  unfold Block.last?
  constructor
  · intro called
    cases last : data.instrs.getLast? with
    | none =>
      rw [last] at called
      cases called
      exact .empty last
    | some i =>
      rw [last] at called
      exact .last last (transfers_eq_ok_iff_sends.1 called)
  · intro explicit
    cases explicit with
    | empty last => rw [last, calls]
    | last last sends =>
      rw [last]
      exact transfers_eq_ok_iff_sends.2 sends

/-- Deriving the edges of a block in front of another one is working out its arrows. -/
theorem derived_cons_iff (link : g.next? b = some c) :
    g.Derived (b :: c :: xs) es ↔ ∃ out rest, g.outgoing b = .ok out ∧
      g.Derived (c :: xs) rest ∧ es = edgesFrom b out ++ rest := by
  obtain ⟨data, found, next⟩ := exists_of_next? link
  rw [outgoing_of_block found]
  simp only [bind_eq_ok, calls_eq_ok_iff_explicit, fallthrough, next]
  constructor
  · intro derived
    cases derived with
    | stops found' explicit dead rest =>
      rw [found] at found'
      cases found'
      exact ⟨_, _, ⟨_, explicit, rfl⟩, rest, by simp [dead]⟩
    | falls found' explicit dead rest =>
      rw [found] at found'
      cases found'
      exact ⟨_, _, ⟨_, explicit, rfl⟩, rest, by simp [dead, edgesFrom]⟩
  · intro called
    obtain ⟨_, rest, ⟨out, explicit, same⟩, derived, rfl⟩ := called
    cases same
    cases dead : data.deadEnd with
    | true => simpa using Derived.stops found explicit dead derived
    | false => simpa [edgesFrom] using Derived.falls found explicit dead derived

theorem derived_iff_due (chain : xs.IsChain g.Linked) (occupied : xs ≠ []) : g.Derived xs es ↔
    (∀ b ∈ xs.dropLast, g.outgoing b = .ok (g.due b)) ∧
      es = xs.dropLast.flatMap fun b => edgesFrom b (g.due b) := by
  induction xs generalizing es with
  | nil => exact absurd rfl occupied
  | cons b t ih =>
    cases t with
    | nil =>
      constructor
      · intro derived
        cases derived
        simp
      · intro called
        obtain ⟨-, rfl⟩ := called
        exact .last b
    | cons c t =>
      rw [List.isChain_cons_cons] at chain
      rw [derived_cons_iff chain.1.1, List.dropLast_cons_cons, List.forall_mem_cons,
        List.flatMap_cons]
      have behind (es : List Edge) := @ih es chain.2 (List.cons_ne_nil c t)
      constructor
      · intro steps
        obtain ⟨out, rest, called, derived, rfl⟩ := steps
        obtain ⟨called, rfl⟩ := outgoing_eq_ok_iff.1 called
        obtain ⟨others, rfl⟩ := (behind _).1 derived
        exact ⟨⟨called, others⟩, rfl⟩
      · intro steps
        obtain ⟨⟨called, others⟩, rfl⟩ := steps
        exact ⟨_, _, called, (behind _).2 ⟨others, rfl⟩, rfl⟩

/-- Edges are planned exactly if the rules derive them and all of them end in the arena. -/
theorem planned_eq_ok_iff_derived (laid : g.LaidOut xs) : g.planned = .ok es ↔
    g.Derived xs es ∧ ∀ edge ∈ es, (g.block? edge.dst).isSome := by
  have occupied : xs ≠ [] := List.ne_nil_of_mem laid.entry_mem
  rw [planned_eq_ok laid.body_eq, derived_iff_due laid.links occupied]
  simp only [Plannable, forall₂_and]
  constructor
  · intro planned
    obtain ⟨⟨called, inside⟩, rfl⟩ := planned
    have ends : ∀ edge ∈ xs.dropLast.flatMap fun b => edgesFrom b (g.due b),
        (g.block? edge.dst).isSome := by
      intro edge member
      obtain ⟨b, inBody, member⟩ := List.mem_flatMap.1 member
      obtain ⟨a, inDue, rfl⟩ := List.mem_map.1 member
      exact inside b inBody a inDue
    exact ⟨⟨called, rfl⟩, ends⟩
  · intro derived
    obtain ⟨⟨called, rfl⟩, ends⟩ := derived
    have inside : ∀ b ∈ xs.dropLast, ∀ a ∈ g.due b, (g.block? a.1).isSome := by
      intro b inBody a inDue
      have member : (⟨b, a.1, a.2⟩ : Edge) ∈ edgesFrom b (g.due b) :=
        List.mem_map.2 ⟨a, inDue, rfl⟩
      exact ends _ (List.mem_flatMap.2 ⟨b, inBody, member⟩)
    exact ⟨⟨called, inside⟩, rfl⟩

/-! ## What a build leaves behind -/

/-- The same graph with the edges `es` in place of its own, numbered in order. -/
def filled (g : Graph) (es : List Edge) : Graph :=
  { g with
    blocks := g.blocks.mapIdx fun i data =>
      { data with succs := incident es Edge.src ⟨i⟩, preds := incident es Edge.dst ⟨i⟩ }
    edges := ⟨(es.map some).toArray, []⟩, order := none }

theorem Connected.eq_filled (connected : Connected es g g') (order : g'.order = none) :
    g' = g.filled es := by
  have blocks : g'.blocks = (g.filled es).blocks := by
    apply Array.ext_getElem?
    intro i
    have block := connected.block ⟨i⟩
    simpa only [filled, Array.getElem?_mapIdx, block?] using block
  obtain ⟨liveCount, retired, labels, catcher⟩ := connected.globals
  have edges := connected.edges
  cases g'
  simp only at blocks edges order liveCount retired labels catcher
  subst blocks edges order liveCount retired labels catcher
  rfl

theorem connectAll_of_planned (planned : g.planned = .ok es) :
    g.disconnectAll.connectAll es = .ok (g.filled es) := by
  obtain ⟨h, ran, connected⟩ := (connectAll_yields (inside_of_planned planned)).exists_ok
  have order := ((Rewired.connectAll_yields g es).of_eq_ok ran).2
  rw [ran, connected.eq_filled order]

/-- A build fills the graph with what was planned. -/
theorem build_eq_ok_iff : g.build = .ok g' ↔ ∃ es, g.planned = .ok es ∧ g' = g.filled es := by
  rw [build, bind_eq_ok]
  constructor
  · intro built
    obtain ⟨es, planned, ran⟩ := built
    rw [connectAll_of_planned planned] at ran
    cases ran
    exact ⟨es, planned, rfl⟩
  · intro built
    obtain ⟨es, planned, rfl⟩ := built
    exact ⟨es, planned, connectAll_of_planned planned⟩

theorem connected_filled (g : Graph) (es : List Edge) : Connected es g (g.filled es) := by
  constructor
  case block =>
    intro c
    simp [block?, filled]
  case edges => rfl
  case globals => constructor <;> rfl

theorem disconnectAll_filled (g : Graph) (es : List Edge) :
    (g.filled es).disconnectAll = g.disconnectAll := by
  have blocks : (g.filled es).disconnectAll.blocks = g.disconnectAll.blocks := by
    apply Array.ext_getElem?
    intro i
    simp only [disconnectAll, filled, Array.getElem?_map, Array.getElem?_mapIdx, Option.map_map]
    rfl
  simpa only [disconnectAll, filled, Graph.mk.injEq, and_true, true_and] using ⟨blocks, rfl⟩

theorem length_incident (es : List Edge) (side : Edge → BlockId) (b : BlockId) :
    (incident es side b).length = es.countP (side · = b) := by
  induction es using List.reverseRecOn with
  | nil => rfl
  | append_singleton es edge ih =>
    rw [incident_append, List.length_append, ih, List.countP_append]
    by_cases here : side edge = b <;> simp [here]

theorem Connected.due_eq (connected : Connected es g g') (b : BlockId) : g'.due b = g.due b := by
  rw [due, due, connected.outgoing_eq]

theorem Connected.plannable_iff (connected : Connected es g g') :
    g'.Plannable b ↔ g.Plannable b := by
  have inside (c : BlockId) : (g'.block? c).isSome = (g.block? c).isSome := by
    rw [connected.block, Option.isSome_map]
  simp only [Plannable, connected.outgoing_eq, connected.due_eq, inside]

/-- What is planned does not depend on the edges there are. -/
theorem planned_filled (laid : g.LaidOut xs) (planned : g.planned = .ok es) (es' : List Edge) :
    (g.filled es').planned = .ok es := by
  have connected := connected_filled g es'
  have laid' : (g.filled es').LaidOut xs := laid.congr (.of_map connected.block fun _ _ => rfl)
  rw [planned_eq_ok laid.body_eq] at planned
  rw [planned_eq_ok laid'.body_eq]
  simpa only [connected.plannable_iff, connected.due_eq] using planned

/-- Building again changes nothing. -/
theorem build_filled (laid : g.LaidOut xs) (planned : g.planned = .ok es) :
    (g.filled es).build = .ok (g.filled es) := by
  rw [build, planned_filled laid planned, ok_bind, disconnectAll_filled]
  exact connectAll_of_planned planned

end

/-! ## Working the edges out while the graph is filled -/

/-- Connects what `b` calls for in the graph as it is. -/
def emit (g : Graph) (b : BlockId) : Except Fault Graph := do
  g.connectAll (edgesFrom b (← g.outgoing b))

/-- Emits block after block up to exit, each as it stands in the graph that is being filled. -/
def materialize : Nat → Option BlockId → Graph → Except Fault Graph
  | _, none, g => .ok g
  | 0, some _, _ => .error .endless
  | n + 1, some b, g =>
    if b = .exit then .ok g
    else do
      let g ← g.emit b
      let data ← g.block b
      materialize n data.next g

section

variable {g g' h : Graph} {xs : List BlockId} {es : List Edge} {b c : BlockId}

theorem connectAll_append (h : Graph) (es es' : List Edge) :
    h.connectAll (es ++ es') = h.connectAll es >>= fun h' => h'.connectAll es' :=
  List.foldlM_append

theorem Connected.emit_eq (connected : Connected es g h) (plannable : g.Plannable b) :
    h.emit b = h.connectAll (edgesFrom b (g.due b)) := by
  rw [emit, connected.outgoing_eq, plannable.1]
  rfl

/-- From any block of the layout on, emitting connects what is due to the blocks that are left. -/
theorem Connected.materialize_eq (laid : g.LaidOut xs)
    (plannable : ∀ b ∈ xs.dropLast, g.Plannable b) (t : List BlockId) :
    ∀ (l : List BlockId) (b : BlockId) (n : Nat) (es : List Edge) (h : Graph), xs = l ++ b :: t →
      t.length < n → Connected es g h →
      h.materialize n (some b) =
        h.connectAll ((b :: t).dropLast.flatMap fun b => edgesFrom b (g.due b)) := by
  -- along the rest of the layout, with any edges in the graph already
  induction t with
  | nil =>
    intro l b n es h split enough connected
    obtain ⟨n, rfl⟩ := Nat.exists_eq_add_one_of_ne_zero (Nat.ne_zero_of_lt enough)
    have atExit : b = .exit := by simpa [split] using laid.last
    rw [materialize, if_pos atExit]
    rfl
  | cons c t ih =>
    intro l b n es h split enough connected
    obtain ⟨n, rfl⟩ := Nat.exists_eq_add_one_of_ne_zero (Nat.ne_zero_of_lt enough)
    have inBody : b ∈ xs.dropLast := by
      rw [split, List.dropLast_append_of_ne_nil (by simp)]
      simp
    have inner : b ≠ .exit := (laid.mem_dropLast.1 inBody).2
    have called := plannable b inBody
    obtain ⟨h', ran, connected'⟩ := (connected.connectAll_yields called.inside).exists_ok
    obtain ⟨data, found, next⟩ := exists_of_next? (laid.linked split).1
    have found' := connected'.block b
    rw [found, Option.map_some] at found'
    rw [materialize, if_neg inner, connected.emit_eq called, ran, ok_bind, block_bind found']
    have rest := ih (l ++ [b]) c n _ h' (by simp [split]) (by simpa using enough) connected'
    simp only [next, rest]
    rw [List.dropLast_cons_cons, List.flatMap_cons, connectAll_append, ran, ok_bind]

theorem materialize_of_planned (laid : g.LaidOut xs) (planned : g.planned = .ok es) :
    g.disconnectAll.materialize (g.blockCount + 1) (some .entry) = .ok (g.filled es) := by
  obtain ⟨t, split, enough⟩ := laid.eq_entry_cons
  have ran := connectAll_of_planned planned
  obtain ⟨plannable, rfl⟩ := (planned_eq_ok laid.body_eq).1 planned
  rw [Connected.materialize_eq laid plannable t [] .entry _ [] _ split (Nat.lt_succ_of_lt enough)
    (connected_disconnectAll g), ← split, ran]

/-- A build returns exactly if the rules derive edges along the layout and all of them end in the
arena. Whatever edges there were, it then gives the derived ones in the order of their derivation:
they fill the pool from slot zero on with none vacant, and every block lists its own by ascending
slot, as many on each side as were planned. The same graph comes about when the edges are worked out
while it is filled, and when it is built again. -/
theorem build_derives (laid : g.LaidOut xs) :
    ((∃ g', g.build = .ok g') ↔
      ∃ es, g.Derived xs es ∧ ∀ edge ∈ es, (g.block? edge.dst).isSome) ∧
    ∀ g', g.build = .ok g' → ∃ es, g.Derived xs es ∧ g' = g.filled es ∧ g.planned = .ok es ∧
      (∀ c data, g'.block? c = some data →
        data.succs.length = es.countP (·.src = c) ∧ data.preds.length = es.countP (·.dst = c)) ∧
      g.disconnectAll.materialize (g.blockCount + 1) (some .entry) = .ok g' ∧
      g'.build = .ok g' := by
  constructor
  · simp only [build_eq_ok_iff, ← planned_eq_ok_iff_derived laid]
    constructor
    · intro built
      obtain ⟨_, es, planned, -⟩ := built
      exact ⟨es, planned⟩
    · intro derived
      obtain ⟨es, planned⟩ := derived
      exact ⟨g.filled es, es, planned, rfl⟩
  · intro g' built
    obtain ⟨es, planned, rfl⟩ := build_eq_ok_iff.1 built
    obtain ⟨derived, -⟩ := (planned_eq_ok_iff_derived laid).1 planned
    have degrees (c : BlockId) (data : Block) (found : (g.filled es).block? c = some data) :
        data.succs.length = es.countP (·.src = c) ∧ data.preds.length = es.countP (·.dst = c) := by
      rw [(connected_filled g es).block, Option.map_eq_some_iff] at found
      obtain ⟨_, -, rfl⟩ := found
      exact ⟨length_incident es Edge.src c, length_incident es Edge.dst c⟩
    exact ⟨es, derived, rfl, planned, degrees, materialize_of_planned laid planned,
      build_filled laid planned⟩

/-- Block 2 dispatches on a table that names it twice, block 3 calls, and block 4 throws, with a
handler whose label is not bound. The one edge is left over from other instructions. -/
def switchboard : Graph :=
  { blocks := #[
      { Block.fresh with status := .live, next := some ⟨2⟩ },
      { Block.fresh with status := .live, prev := some ⟨4⟩ },
      { Block.fresh with
        instrs := [.dispatch [⟨1⟩, ⟨2⟩, ⟨1⟩]], label := some ⟨1⟩, deadEnd := true, status := .live
        prev := some .entry, next := some ⟨3⟩, preds := [⟨1⟩] },
      { Block.fresh with
        instrs := [.plain .call], label := some ⟨2⟩, status := .live
        prev := some ⟨2⟩, next := some ⟨4⟩, succs := [⟨1⟩] },
      { Block.fresh with
        instrs := [.plain .throw], deadEnd := true, status := .live
        prev := some ⟨3⟩, next := some .exit }]
    liveCount := 5, retired := #[]
    edges := ⟨#[none, some ⟨⟨3⟩, ⟨2⟩, .branch⟩], [⟨0⟩]⟩
    labels := (LabelTable.empty.bind ⟨1⟩ ⟨2⟩ none).bind ⟨2⟩ ⟨3⟩ none
    order := none, catcher := some ⟨9⟩ }

theorem build_derives_switchboard :
    switchboard.LaidOut [.entry, ⟨2⟩, ⟨3⟩, ⟨4⟩, .exit] ∧
    (∃ es, switchboard.Derived [.entry, ⟨2⟩, ⟨3⟩, ⟨4⟩, .exit] es ∧
      ∀ edge ∈ es, (switchboard.block? edge.dst).isSome) ∧
    ∃ g', switchboard.build = .ok g' ∧
      ∃ es, switchboard.Derived [.entry, ⟨2⟩, ⟨3⟩, ⟨4⟩, .exit] es ∧ g' = switchboard.filled es ∧
        switchboard.planned = .ok es ∧
        (∀ c data, g'.block? c = some data →
          data.succs.length = es.countP (·.src = c) ∧ data.preds.length = es.countP (·.dst = c)) ∧
        switchboard.disconnectAll.materialize (switchboard.blockCount + 1) (some .entry) = .ok g' ∧
        g'.build = .ok g' := by
  have laid : switchboard.LaidOut [.entry, ⟨2⟩, ⟨3⟩, ⟨4⟩, .exit] := by
    have links : List.IsChain switchboard.Linked [.entry, ⟨2⟩, ⟨3⟩, ⟨4⟩, .exit] :=
      .cons_cons ⟨rfl, rfl⟩ (.cons_cons ⟨rfl, rfl⟩ (.cons_cons ⟨rfl, rfl⟩
        (.cons_cons ⟨rfl, rfl⟩ (.singleton _))))
    exact ⟨by decide, rfl, rfl, links, rfl, rfl⟩
  obtain ⟨g', built, -⟩ : ∃ g', switchboard.build = .ok g' ∧ True := by
    decide +kernel
  obtain ⟨returns, result⟩ := build_derives laid
  exact ⟨laid, returns.1 ⟨g', built⟩, g', built, result g' built⟩

example : switchboard.planned = .ok [
    ⟨.entry, ⟨2⟩, .fallthru⟩, ⟨⟨2⟩, ⟨2⟩, .branch⟩, ⟨⟨2⟩, ⟨3⟩, .branch⟩, ⟨⟨2⟩, ⟨2⟩, .branch⟩,
    ⟨⟨3⟩, .exit, .except⟩, ⟨⟨3⟩, ⟨4⟩, .fallthru⟩, ⟨⟨4⟩, .exit, .except⟩] := by
  decide +kernel

end

end FlowGraph.Graph
