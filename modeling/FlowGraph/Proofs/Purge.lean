import FlowGraph.Proofs.Integrity
import FlowGraph.Proofs.Postorder
import FlowGraph.Proofs.Quiet

/-! # What an elimination leaves

An elimination after a search takes the blocks of the layout to which no path leads from entry, and
those only. Edges go with whichever of their two ends the sweep comes to first, so the arrays of
blocks that are still to come shrink as well, and the layout changes under the hand that follows it.
What is left in the end does not depend on any of this: every array is the old one without the
edges that have gone, in its old order, and an edge has gone exactly if a block at one of its ends
has. -/

namespace FlowGraph

theorem Block.eq_of_stem {d d' : Block} (same : d'.stem = d.stem) : d' =
    { d with prev := d'.prev, next := d'.next, succs := d'.succs, preds := d'.preds } := by
  cases d
  cases d'
  simp_all [Block.stem]

namespace Graph

/-- The blocks `gone` have been taken out of the layout `xs`, in this order and with all their edges.
The blocks that stay have kept everything but the edges that came from blocks that went. -/
structure Purged (xs gone : List BlockId) (g g' : Graph) : Prop where
  laid : g'.LaidOut (xs.filter (· ∉ gone))
  count : g'.liveCount = (xs.filter (· ∉ gone)).length
  retired : g'.retired = g.retired ++ gone.toArray
  shed : ∀ c ∈ gone, g'.block? c = (g.block? c).map Block.retire
  kept : ∀ c ∈ xs, c ∉ gone → ∀ data, g.block? c = some data → ∃ prev next,
    g'.block? c = some { data with
      prev := prev, next := next
      preds := data.preds.filter fun e => (g.edges.get? e).all (·.src ∉ gone) }
  outside : ∀ c, c ∉ xs → g'.block? c = g.block? c
  edge : ∀ e, g'.edges.get? e =
    (g.edges.get? e).filter fun edge => edge.src ∉ gone ∧ edge.dst ∉ gone
  clear : g'.Clear
  labels : g'.labels = g.labels
  catcher : g'.catcher = g.catcher

section

variable {g g₁ g₂ : Graph} {xs t order gone : List BlockId} {c : BlockId}

/-- Edges end at live blocks, so no path leads out of the layout. -/
theorem Settled.mem_of_way (settled : g.Settled xs) (coherent : g.Coherent xs)
    (way : g.Way .entry c) : c ∈ xs := by
  cases way with
  | refl => exact coherent.laid.entry_mem
  | tail _ step =>
    obtain ⟨-, e, edge, -, -, stored, rfl⟩ := step
    obtain ⟨-, data, found, live⟩ := coherent.target stored
    exact (settled.enrolled _ data found).1 live

/-- The edges of a block that stays: none of those that leave it has gone, and of those that enter it
the ones that came from a block that went. -/
theorem Swept.arrays (swept : Swept g₁ xs t gone g₂) (coherent : g₁.Coherent xs)
    (closed : g₁.ClosedOff gone) (kept : c ∉ gone) {data data₂ : Block}
    (found : g₁.block? c = some data) (found₂ : g₂.block? c = some data₂) :
    data₂.succs = data.succs ∧
      data₂.preds = data.preds.filter fun e => (g₁.edges.get? e).all (·.src ∉ gone) := by
  constructor
  · refine (swept.dropped.succs c kept data data₂ found found₂).trans ?_
    refine List.filter_eq_self.2 fun e member => ?_
    obtain ⟨edge, stored, rfl⟩ := coherent.edge_of_mem_succs found member
    simp [swept.dropped.edge, stored, kept, closed e edge stored kept]
  · refine (swept.dropped.preds c kept data data₂ found found₂).trans ?_
    refine List.filter_congr fun e member => ?_
    obtain ⟨edge, stored, rfl⟩ := coherent.edge_of_mem_preds found member
    simp [swept.dropped.edge, stored, kept]

variable (remarked : Remarked g g₁)
  (marks : ∀ c, g₁.block? c = (g.block? c).map fun data =>
    if c ∈ order then { data with marked := true } else data)

include marks in
/-- A block that the search has not found carries no mark in between. -/
theorem unmarked_between (missed : c ∉ order) :
    g₁.block? c = g.block? c ∧ (g₂.setMarks order false).block? c = g₂.block? c := by
  rw [marks, block?_setMarks]
  simp [missed]

include marks in
theorem Swept.shed (swept : Swept g₁ xs t gone g₂) (apart : ∀ c ∈ gone, c ∉ order)
    (member : c ∈ gone) :
    (g₂.setMarks order false).block? c = (g.block? c).map Block.retire := by
  obtain ⟨before, after⟩ := unmarked_between marks (apart c member)
  rw [after, swept.parted.shed c member, before]

include marks in
theorem Swept.outside (swept : Swept g₁ xs t gone g₂) (settled : g.Settled xs)
    (within : ∀ c ∈ order, c ∈ xs) (away : c ∉ xs) :
    (g₂.setMarks order false).block? c = g.block? c := by
  obtain ⟨before, after⟩ := unmarked_between marks fun member => away (within c member)
  rw [after, ← before]
  cases found : g₁.block? c with
  | none =>
    have same := swept.dropped.label.isSome_eq c
    rwa [found, Option.isSome_none, Option.isSome_eq_false_iff, Option.isNone_iff_eq_none] at same
  | some data =>
    refine swept.parted.aside c data away (fun live => away ?_) found
    exact (settled.enrolled c data (before.symm.trans found)).1 live

include remarked marks in
theorem Swept.kept (swept : Swept g₁ xs t gone g₂) (coherent : g.Coherent xs)
    (settled : g.Settled xs) (closed : g.ClosedOff gone) (stays : c ∉ gone) {data : Block}
    (found : g.block? c = some data) : ∃ prev next,
      (g₂.setMarks order false).block? c = some { data with
        prev := prev, next := next
        preds := data.preds.filter fun e => (g.edges.get? e).all (·.src ∉ gone) } := by
  have found₁ := marks c
  rw [found, Option.map_some] at found₁
  obtain ⟨data₂, found₂⟩ := Option.isSome_iff_exists.1
    ((swept.dropped.label.isSome_eq c).trans (Option.isSome_of_eq_some found₁))
  have closed₁ : g₁.ClosedOff gone := by
    intro e edge stored
    rw [remarked.edges] at stored
    exact closed e edge stored
  obtain ⟨succs, preds⟩ := swept.arrays (coherent.remarked remarked) closed₁ stays found₁ found₂
  have stem := swept.dropped.stem c stays
  rw [found₁, found₂, Option.map_some, Option.map_some, Option.some.injEq] at stem
  refine ⟨data₂.prev, data₂.next, ?_⟩
  rw [block?_setMarks, found₂, Option.map_some, Option.some.injEq, Block.eq_of_stem stem, succs,
    preds, remarked.edges]
  by_cases inOrder : c ∈ order
  · have clear := settled.clear c data found
    simp only [if_pos inOrder, ← clear]
  · simp only [if_neg inOrder]

include remarked marks in
theorem Swept.purged (swept : Swept g₁ xs t gone g₂) (coherent : g.Coherent xs)
    (settled : g.Settled xs) (within : ∀ c ∈ order, c ∈ xs) (apart : ∀ c ∈ gone, c ∉ order)
    (closed : g.ClosedOff gone) : Purged xs gone g (g₂.setMarks order false) := by
  have cleared := remarked_setMarks order false g₂
  have left := swept.coherent.remarked cleared
  have shed (c : BlockId) (member : c ∈ gone) := swept.shed marks apart member
  have outside (c : BlockId) (away : c ∉ xs) := swept.outside marks settled within away
  have kept (c : BlockId) (stays : c ∉ gone) (data : Block) (found : g.block? c = some data) :=
    swept.kept remarked marks coherent settled closed stays found
  refine ⟨left.laid, left.count, ?retired, shed, fun c _ => kept c, outside, fun e => ?edge, ?clear,
    ?labels, ?catcher⟩
  case retired =>
    rw [cleared.globals.retired, swept.parted.listed, remarked.globals.retired]
  case edge =>
    rw [cleared.edges, swept.dropped.edge, remarked.edges]
  case clear =>
    intro c data' found'
    obtain ⟨data, found⟩ := Option.isSome_iff_exists.1
      (((cleared.block.isSome_eq c).trans (swept.dropped.label.isSome_eq c)).trans
        (remarked.block.isSome_eq c) ▸ Option.isSome_of_eq_some found')
    by_cases member : c ∈ gone
    · rw [shed c member, found] at found'
      cases found'
      rfl
    · obtain ⟨prev, next, same⟩ := kept c member data found
      rw [found'] at same
      cases same
      exact settled.clear c data found
  case labels =>
    rw [cleared.globals.labels, swept.dropped.labels, remarked.globals.labels]
  case catcher =>
    rw [cleared.globals.catcher, swept.dropped.catcher, remarked.globals.catcher]

/-- In a graph that is intact, an elimination after a search takes out exactly the blocks of the
layout, other than exit, to which no path leads from entry, and gives them in the order in which
they stood. Nothing but what this entails has changed, and no block carries a mark. -/
theorem purge_exact (intact : g.Intact) :
    ∃ xs order g₁ dropped g', g.LaidOut xs ∧ g.markReached = .ok (order, g₁) ∧
      g₁.eliminate order = .ok (dropped, g') ∧ dropped.Sublist xs ∧
      (∀ b, b ∈ dropped ↔ b ∈ xs ∧ b ≠ .entry ∧ b ≠ .exit ∧ ¬g.Way .entry b) ∧
      Purged xs dropped g g' := by
  obtain ⟨xs, coherent, settled⟩ := intact_iff.1 intact
  have entered := Option.isSome_iff_exists.2 (coherent.laid.exists_block coherent.laid.entry_mem)
  have searched : Yields (fun _ => False) g.reached _ := reached_yields coherent.matched entered
  obtain ⟨order, reached, -⟩ := searched.exists_ok
  obtain ⟨explored, remarked, marks⟩ := marked_of_reached coherent reached
  obtain ⟨postordered, -⟩ := reached_postordered settled.clear reached
  have ready : Ready (fun _ => False) g xs := settled.ready coherent
  have swept : Yields (fun _ => False) (eliminate _ order) _ :=
    eliminate_swept coherent ready.unmarked explored remarked marks ready.enlisted
  obtain ⟨⟨dropped, g'⟩, eliminated, ⟨t, g₂, split, swept, rfl⟩, dropped_iff⟩ := swept.exists_ok
  have marking : g.markReached = .ok (order, { g.setMarks order true with order := none }) := by
    rw [markReached, reached]
    rfl
  have missed (b : BlockId) : b ∉ order ↔ b ≠ .entry ∧ ¬g.Way .entry b := by
    rw [postordered.mem_iff, iff_and_self]
    rintro away rfl
    exact away .refl
  refine ⟨xs, order, _, dropped, _, coherent.laid, marking, eliminated, ?order, fun b => ?exact,
    swept.purged remarked marks coherent settled ?within ?apart ?closed⟩
  case order =>
    rw [split]
    exact swept.sublist.cons _
  case exact =>
    rw [dropped_iff, missed]
    tauto
  case within =>
    exact fun c member => settled.mem_of_way coherent ((postordered.mem_iff c).1 member)
  case apart => exact fun c member => ((dropped_iff c).1 member).2.2
  case closed => exact explored.closedOff coherent ready.unmarked dropped_iff

/-- Blocks 3 and 4 lead to each other and to exit and to block 5, but nothing leads to them. -/
def derelict : Graph :=
  { blocks := #[
      { Block.fresh with status := .live, next := some ⟨2⟩, succs := [⟨0⟩] },
      { Block.fresh with status := .live, prev := some ⟨5⟩, preds := [⟨4⟩, ⟨6⟩] },
      { Block.fresh with
        instrs := [.branch .br ⟨1⟩], deadEnd := true, status := .live
        prev := some .entry, next := some ⟨3⟩, succs := [⟨1⟩], preds := [⟨0⟩] },
      { Block.fresh with
        instrs := [.plain .call], status := .live
        prev := some ⟨2⟩, next := some ⟨4⟩, succs := [⟨4⟩, ⟨2⟩], preds := [⟨3⟩] },
      { Block.fresh with
        instrs := [.branch .brItrue ⟨2⟩], status := .live
        prev := some ⟨3⟩, next := some ⟨5⟩, succs := [⟨3⟩, ⟨5⟩], preds := [⟨2⟩] },
      { Block.fresh with
        instrs := [.plain .ret], label := some ⟨1⟩, deadEnd := true, status := .live
        prev := some ⟨4⟩, next := some .exit, succs := [⟨6⟩], preds := [⟨1⟩, ⟨5⟩] }]
    liveCount := 6, retired := #[]
    edges := ⟨#[some ⟨.entry, ⟨2⟩, .fallthru⟩, some ⟨⟨2⟩, ⟨5⟩, .branch⟩, some ⟨⟨3⟩, ⟨4⟩, .fallthru⟩,
      some ⟨⟨4⟩, ⟨3⟩, .branch⟩, some ⟨⟨3⟩, .exit, .except⟩, some ⟨⟨4⟩, ⟨5⟩, .fallthru⟩,
      some ⟨⟨5⟩, .exit, .ret⟩], []⟩
    labels := LabelTable.empty.bind ⟨1⟩ ⟨5⟩ none, order := none, catcher := none }

theorem purge_exact_derelict : derelict.Intact ∧
    ∃ xs order g₁ dropped g', derelict.LaidOut xs ∧ derelict.markReached = .ok (order, g₁) ∧
      g₁.eliminate order = .ok (dropped, g') ∧ dropped.Sublist xs ∧
      (∀ b, b ∈ dropped ↔ b ∈ xs ∧ b ≠ .entry ∧ b ≠ .exit ∧ ¬derelict.Way .entry b) ∧
      Purged xs dropped derelict g' := by
  have intact : derelict.Intact := by decide +kernel
  exact ⟨intact, purge_exact intact⟩

example : (do
      let (order, g) ← derelict.markReached
      let (dropped, g) ← g.eliminate order
      return (dropped, (g.block? ⟨5⟩).map Block.preds)) = Except.ok ([⟨3⟩, ⟨4⟩], some [⟨1⟩]) := by
  decide +kernel

end

end Graph

end FlowGraph
