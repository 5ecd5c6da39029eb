import FlowGraph.Graph.Unreachable
import FlowGraph.Proofs.Frame
import FlowGraph.Proofs.Search

/-! # Eliminating unreachable blocks

A sweep drops the unmarked blocks of the layout one after the other. Each drop deletes the edges of
one block and retires it; the blocks that stay keep their instructions, labels and remaining edges.
After a search no edge leads from a block that stays to one that goes, so nothing is taken from the
blocks that stay but their place next to a dropped one. -/

namespace FlowGraph

/-- What a block holds beside its place in the layout and its edges. -/
def Block.stem (d : Block) : Block := { d with prev := none, next := none, succs := [], preds := [] }

def Block.unmark (d : Block) : Block := { d with marked := false }

/-- What a block holds beside its place in the layout, its incoming edges and its mark. -/
def Block.core (d : Block) : Block :=
  { d with marked := false, prev := none, next := none, preds := [] }

namespace Graph

/-! ## Dropping one block -/

/-- On one side, the blocks that stay list what they did but for edges that have gone. -/
def Thinned (side : Block → List EdgeId) (gone : List BlockId) (g g' : Graph) : Prop :=
  ∀ c, c ∉ gone → ∀ data data', g.block? c = some data → g'.block? c = some data' →
    side data' = (side data).filter fun e => (g'.edges.get? e).isSome

/-- The blocks `gone` have been retired with all their edges, and nothing else has happened. -/
structure Dropped (gone : List BlockId) (g g' : Graph) : Prop where
  stem : ∀ c, c ∉ gone → (g'.block? c).map Block.stem = (g.block? c).map Block.stem
  succs : Thinned (·.succs) gone g g'
  preds : Thinned (·.preds) gone g g'
  edge : ∀ e, g'.edges.get? e =
    (g.edges.get? e).filter fun edge => edge.src ∉ gone ∧ edge.dst ∉ gone
  label : SameBlocks (·.label) g g'
  retired : ∀ c ∈ gone, ∀ data, g'.block? c = some data →
    data.marked = false ∧ data.status = .retired
  labels : g'.labels = g.labels
  catcher : g'.catcher = g.catcher

theorem Dropped.exists_stem {gone : List BlockId} {g g' : Graph} (dropped : Dropped gone g g')
    {c : BlockId} (kept : c ∉ gone) {data' : Block} (found' : g'.block? c = some data') :
    ∃ data, g.block? c = some data ∧ data.stem = data'.stem := by
  have same := dropped.stem c kept
  rw [found', Option.map_some] at same
  exact Option.map_eq_some_iff.1 same.symm

theorem Thinned.trans {side : Block → List EdgeId} {gone gone' : List BlockId} {g₁ g₂ g₃ : Graph}
    (first : Thinned side gone g₁ g₂) (second : Thinned side gone' g₂ g₃)
    (same : ∀ c, (g₂.block? c).isSome = (g₁.block? c).isSome)
    (fewer : ∀ e, (g₃.edges.get? e).isSome → (g₂.edges.get? e).isSome) :
    Thinned side (gone ++ gone') g₁ g₃ := by
  intro c kept data data₃ found found₃
  simp only [List.mem_append, not_or] at kept
  obtain ⟨data₂, found₂⟩ := Option.isSome_iff_exists.1
    ((same c).trans (Option.isSome_of_eq_some found))
  rw [second c kept.2 data₂ data₃ found₂ found₃, first c kept.1 data data₂ found found₂,
    List.filter_filter]
  apply List.filter_congr
  intro e _
  -- an edge that is still there at the end was there in between
  cases there : (g₃.edges.get? e).isSome with
  | false => simp
  | true => simp [fewer e there]

theorem Dropped.trans {gone gone' : List BlockId} {g₁ g₂ g₃ : Graph} (first : Dropped gone g₁ g₂)
    (second : Dropped gone' g₂ g₃) : Dropped (gone ++ gone') g₁ g₃ := by
  have edge (e : EdgeId) : g₃.edges.get? e =
      (g₁.edges.get? e).filter fun edge => edge.src ∉ gone ++ gone' ∧ edge.dst ∉ gone ++ gone' := by
    rw [second.edge, first.edge, Option.filter_filter]
    congr 1
    funext edge
    simp only [List.mem_append, not_or, Bool.decide_and]
    grind
  have fewer (e : EdgeId) (there : (g₃.edges.get? e).isSome) : (g₂.edges.get? e).isSome := by
    rw [second.edge] at there
    exact Option.isSome_of_isSome_filter _ _ there
  have same := first.label.isSome_eq
  refine ⟨fun c kept => ?_, first.succs.trans second.succs same fewer,
    first.preds.trans second.preds same fewer, edge, first.label.trans second.label,
    fun c member data found => ?_, second.labels.trans first.labels,
    second.catcher.trans first.catcher⟩
  · simp only [List.mem_append, not_or] at kept
    rw [second.stem c kept.2, first.stem c kept.1]
  · by_cases last : c ∈ gone'
    · exact second.retired c last data found
    · have earlier : c ∈ gone := by simpa [last] using member
      obtain ⟨data₂, found₂, same⟩ := second.exists_stem last found
      obtain ⟨unmarked, status⟩ := first.retired c earlier data₂ found₂
      simp only [Block.stem, Block.mk.injEq] at same
      exact ⟨same.2.2.2.1 ▸ unmarked, same.2.2.2.2.1 ▸ status⟩

section

variable {allowed : Fault → Prop} (side : Block → List EdgeId)

theorem dropSide_yields
    (unlist : ∀ gone data, side (data.unlist gone) = (side data).filter (· ∉ gone))
    (listed : ∀ {g : Graph} {xs b data}, g.Coherent xs → g.block? b = some data →
      (side data).Nodup ∧ ∀ e ∈ side data, ∃ edge, g.edges.get? e = some edge) (n : Nat) :
    ∀ (g : Graph) (xs : List BlockId) (b : BlockId) (data : Block), g.Coherent xs →
      g.block? b = some data → (side data).length ≤ n → Yields allowed (g.dropSide side b n)
        fun g' => ∃ gone, Pruned gone g g' ∧ ∀ e, e ∈ gone ↔ e ∈ side data := by
  -- every step takes one edge from the array, whose length bounds the steps
  induction n with
  | zero =>
    intro g xs b data coherent found enough
    have empty : side data = [] := List.length_eq_zero_iff.1 (by omega)
    rw [dropSide, block_bind found, require_bind empty]
    exact yields_pure ⟨[], .refl g, by simp [empty]⟩
  | succ n ih =>
    intro g xs b data coherent found enough
    rw [dropSide, block_bind found]
    cases last : (side data).getLast? with
    | none =>
      have empty : side data = [] := List.getLast?_eq_none_iff.1 last
      exact yields_pure ⟨[], .refl g, by simp [empty]⟩
    | some e =>
      obtain ⟨distinct, stored⟩ := listed coherent found
      have member : e ∈ side data := List.mem_of_getLast? last
      obtain ⟨edge, stored⟩ := stored e member
      apply (disconnect_yields coherent stored).bind
      intro g₁ pruned
      have found₁ : g₁.block? b = some (data.unlist [e]) := by rw [pruned.block, found]; rfl
      have shorter : (side (data.unlist [e])).length ≤ n := by
        rw [unlist, ← strike_eq_filter distinct fun _ => trivial, if_pos trivial,
          List.length_erase_of_mem member]
        omega
      apply (ih g₁ xs b _ (coherent.pruned pruned) found₁ shorter).mono
      intro g' result
      obtain ⟨gone, rest, goneIff⟩ := result
      refine ⟨[e] ++ gone, pruned.trans rest, fun e' => ?_⟩
      rw [List.mem_append, goneIff, unlist, List.mem_filter]
      by_cases same : e' = e
      · simp [same, member]
      · simp [same]

end

theorem Pruned.dropped {g g₁ g₂ : Graph} {xs gone : List _} {p b n : BlockId}
    (coherent : g.Coherent xs) (pruned : Pruned gone g g₁)
    (all : ∀ e edge, g.edges.get? e = some edge → (e ∈ gone ↔ edge.src = b ∨ edge.dst = b))
    (retired : Retired p b n g₁ g₂) : Dropped [b] g g₂ := by
  have edge (e : EdgeId) : g₂.edges.get? e =
      (g.edges.get? e).filter fun edge => edge.src ∉ [b] ∧ edge.dst ∉ [b] := by
    rw [retired.edges, pruned.edge]
    cases stored : g.edges.get? e with
    | none => simp
    | some edge =>
      rw [Option.filter_some]
      by_cases inGone : e ∈ gone
      · have touches := (all e edge stored).1 inGone
        simp only [List.mem_singleton]
        rw [if_pos inGone, if_neg (by simp; tauto)]
      · have apart := mt (all e edge stored).2 inGone
        simp only [List.mem_singleton]
        rw [if_neg inGone, if_pos (by simp; tauto)]
  -- what happened to another block is that it lost edges and maybe a neighbour
  have block (c : BlockId) (kept : c ≠ b) {data : Block} (found : g.block? c = some data) :
      ∃ prev next, g₂.block? c = some ((data.unlist gone).relink prev next) :=
    ⟨_, _, retired.block_of_ne kept (by rw [pruned.block, found]; rfl)⟩
  have present (e : EdgeId) (stored : (g.edges.get? e).isSome) :
      decide (e ∉ gone) = (g₂.edges.get? e).isSome := by
    rw [retired.edges, pruned.edge]
    by_cases inGone : e ∈ gone <;> simp [inGone, stored]
  refine ⟨fun c kept => ?_, fun c kept data data₂ found found₂ => ?_,
    fun c kept data data₂ found found₂ => ?_, edge, fun c => ?_,
    fun c member data found => ?_, retired.labels.trans pruned.globals.labels,
    retired.catcher.trans pruned.globals.catcher⟩
  · rw [retired.block, pruned.block, Option.map_map, Option.map_map]
    congr 1
    funext data
    rw [Function.comp_apply, Function.comp_apply, if_neg (by simpa using kept)]
    rfl
  · obtain ⟨prev, next, there⟩ := block c (by simpa using kept) found
    rw [there] at found₂
    cases found₂
    apply List.filter_congr
    intro e member
    obtain ⟨edge', stored, -⟩ := coherent.edge_of_mem_succs found member
    exact present e (Option.isSome_of_eq_some stored)
  · obtain ⟨prev, next, there⟩ := block c (by simpa using kept) found
    rw [there] at found₂
    cases found₂
    apply List.filter_congr
    intro e member
    obtain ⟨edge', stored, -⟩ := coherent.edge_of_mem_preds found member
    exact present e (Option.isSome_of_eq_some stored)
  · rw [retired.block, pruned.block, Option.map_map, Option.map_map]
    congr 1
    funext data
    by_cases here : c = b
    · simp [here, Block.retire, Block.release, Block.unlist]
    · simp [here, Block.relink, Block.unlist]
  · rw [retired.block, Option.map_eq_some_iff] at found
    obtain ⟨data, -, rfl⟩ := found
    rw [if_pos (by simpa using member)]
    exact ⟨rfl, rfl⟩

/-- The blocks `gone` have left the layout `xs` in this order. Each is left with its label and its
metadata, and blocks that are neither in the layout nor live have not been touched. -/
structure Parted (xs gone : List BlockId) (g g' : Graph) : Prop where
  shed : ∀ c ∈ gone, g'.block? c = (g.block? c).map Block.retire
  aside : ∀ c data, c ∉ xs → data.status ≠ .live → g.block? c = some data → g'.block? c = some data
  listed : g'.retired = g.retired ++ gone.toArray

theorem Parted.refl (xs : List BlockId) (g : Graph) : Parted xs [] g g :=
  ⟨by simp, fun _ _ _ _ found => found, by simp⟩

theorem Pruned.parted {g g₁ g₂ : Graph} {xs gone : List _} {p b n : BlockId}
    (coherent : g.Coherent xs) (member : b ∈ xs) (notEntry : b ≠ .entry) (notExit : b ≠ .exit)
    (pruned : Pruned gone g g₁) (retired : Retired p b n g₁ g₂) : Parted xs [b] g g₂ := by
  refine ⟨fun c here => ?shed, fun c data outside idle found => ?aside, ?listed⟩
  case shed =>
    rw [List.mem_singleton.1 here, retired.block, pruned.block, Option.map_map]
    congr 1
    funext data
    rw [Function.comp_apply, if_pos rfl]
    rfl
  case aside =>
    -- the neighbours of the block are in the layout, and a block that lists edges is live
    obtain ⟨l, p', n', r, split⟩ := coherent.laid.exists_around member notEntry notExit
    have laid₁ := (coherent.pruned pruned).laid
    have front : g₁.prev? b = some p' := (laid₁.linked split).2
    have back : g₁.next? b = some n' := (laid₁.linked (l := l ++ [p']) (r := r) (by simp [split])).1
    rw [retired.front.2, Option.some.injEq] at front
    rw [retired.back.1, Option.some.injEq] at back
    have apart : c ≠ b ∧ c ≠ p ∧ c ≠ n := by
      subst front back
      simp only [split, List.mem_append, List.mem_cons, not_or] at outside
      exact ⟨outside.2.2.1, outside.2.1, outside.2.2.2.1⟩
    obtain ⟨noSuccs, noPreds⟩ := coherent.unlisted_of_idle found idle
    rw [retired.block, pruned.block, found, Option.map_some, Option.map_some, if_neg apart.1,
      if_neg apart.2.2, if_neg apart.2.1]
    obtain ⟨⟩ := data
    cases noSuccs
    cases noPreds
    rfl
  case listed =>
    rw [retired.retired, pruned.globals.retired]
    simp

theorem Parted.cons {g g₁ g' : Graph} {xs gone : List BlockId} {b : BlockId}
    (first : Parted xs [b] g g₁) (dropped : Dropped [b] g g₁) (distinct : xs.Nodup) {data : Block}
    (found : g.block? b = some data) (second : Parted (xs.erase b) gone g₁ g') :
    Parted xs (b :: gone) g g' := by
  have here : g₁.block? b = some data.retire := by
    rw [first.shed b (List.mem_singleton_self b), found, Option.map_some]
  refine ⟨fun c member => ?shed, fun c data outside idle found => ?aside, ?listed⟩
  case shed =>
    by_cases later : c ∈ gone
    · rw [second.shed c later]
      by_cases same : c = b
      · rw [same, here, found]
        rfl
      · -- what becomes of a block does not depend on its place or its edges
        have stem := congrArg (Option.map Block.retire) (dropped.stem c (by simpa using same))
        rw [Option.map_map, Option.map_map] at stem
        exact stem
    · obtain rfl : c = b := (List.mem_cons.1 member).resolve_right later
      rw [found, Option.map_some]
      exact second.aside c _ (distinct.not_mem_erase) (by simp [Block.retire]) here
  case aside =>
    exact second.aside c data (fun member => outside (List.mem_of_mem_erase member)) idle
      (first.aside c data outside idle found)
  case listed =>
    rw [second.listed, first.listed]
    simp

theorem drop_yields {allowed : Fault → Prop} {g : Graph} {xs : List BlockId}
    (coherent : g.Coherent xs) {b : BlockId} (member : b ∈ xs) (notEntry : b ≠ .entry)
    (notExit : b ≠ .exit) {data : Block} (found : g.block? b = some data)
    (live : data.status = .live ∨ allowed (.cannotDetach b b)) :
    Yields allowed (g.drop b) fun g' =>
      Dropped [b] g g' ∧ g'.Coherent (xs.erase b) ∧ Parted xs [b] g g' ∧ data.status = .live := by
  rw [drop, block_bind found]
  refine (dropSide_yields (·.succs) (fun _ _ => rfl) (fun coherent found =>
    ⟨(coherent.succs found).1, fun e inArray =>
      (coherent.edge_of_mem_succs found inArray).imp fun _ => And.left⟩)
    data.succs.length g xs b data coherent found le_rfl).bind fun g₁ result => ?_
  obtain ⟨gone₁, pruned₁, iff₁⟩ := result
  have coherent₁ := coherent.pruned pruned₁
  have found₁ : g₁.block? b = some (data.unlist gone₁) := by rw [pruned₁.block, found]; rfl
  rw [block_bind found₁]
  refine (dropSide_yields (·.preds) (fun _ _ => rfl) (fun coherent found =>
    ⟨(coherent.preds found).1, fun e inArray =>
      (coherent.edge_of_mem_preds found inArray).imp fun _ => And.left⟩)
    _ g₁ xs b _ coherent₁ found₁ le_rfl).bind fun g₂ result => ?_
  obtain ⟨gone₂, pruned₂, iff₂⟩ := result
  have pruned := pruned₁.trans pruned₂
  have coherent₂ := coherent.pruned pruned
  have found₂ : g₂.block? b = some (data.unlist (gone₁ ++ gone₂)) := by
    rw [pruned.block, found]
    rfl
  have noSuccs : (data.unlist (gone₁ ++ gone₂)).succs = [] := by
    apply List.eq_nil_iff_forall_not_mem.2
    intro e inArray
    simp only [Block.mem_succs_unlist, List.mem_append, not_or, iff₁] at inArray
    exact inArray.2.1 inArray.1
  have noPreds : (data.unlist (gone₁ ++ gone₂)).preds = [] := by
    apply List.eq_nil_iff_forall_not_mem.2
    intro e inArray
    simp only [Block.mem_preds_unlist, List.mem_append, not_or, iff₂] at inArray
    exact inArray.2.2 ⟨inArray.1, inArray.2.1⟩
  -- the first pass takes the edges out of the block, the second what is left of those into it
  have all : ∀ e edge, g.edges.get? e = some edge →
      (e ∈ gone₁ ++ gone₂ ↔ edge.src = b ∨ edge.dst = b) := by
    intro e edge stored
    have src : e ∈ data.succs ↔ edge.src = b := by simp [(coherent.succs found).2 e, stored]
    have dst : e ∈ data.preds ↔ edge.dst = b := by simp [(coherent.preds found).2 e, stored]
    rw [List.mem_append, iff₂, Block.mem_preds_unlist, iff₁, src, dst]
    tauto
  have stays (g' : Graph) (ran : g₂.retire b = .ok g') : data.status = .live := by
    obtain ⟨data₂, _, there, -, -, detached, -⟩ := (retire_yields_relaid g₂ b).of_eq_ok ran
    rw [found₂] at there
    cases there
    exact (live_of_detach detached found₂).2.2
  apply ((retire_yields coherent₂ member notEntry notExit found₂ noSuccs noPreds
    live).and_of_eq_ok stays).mono
  intro g' result
  obtain ⟨⟨⟨p, n, retired⟩, coherent'⟩, wasLive⟩ := result
  exact ⟨pruned.dropped coherent all retired, coherent',
    pruned.parted coherent member notEntry notExit retired, wasLive⟩

/-! ## Sweeping -/

def Unmarked (g : Graph) (b : BlockId) : Prop := ∃ data, g.block? b = some data ∧ data.marked = false

theorem Dropped.unmarked_iff {gone : List BlockId} {g g' : Graph} (dropped : Dropped gone g g')
    {c : BlockId} (kept : c ∉ gone) : g'.Unmarked c ↔ g.Unmarked c := by
  have same := congrArg (Option.map Block.marked) (dropped.stem c kept)
  simp only [Option.map_map] at same
  have marks (h : Graph) : h.Unmarked c ↔ (h.block? c).map (Block.marked ∘ Block.stem) = some false := by
    rw [Option.map_eq_some_iff]
    rfl
  rw [marks, marks, same]

theorem Dropped.refl {g : Graph} {xs : List BlockId} (coherent : g.Coherent xs) : Dropped [] g g := by
  have thinned {side : Block → List EdgeId} (stored : ∀ c data, g.block? c = some data →
      ∀ e ∈ side data, (g.edges.get? e).isSome) : Thinned side [] g g := by
    intro c _ data data' found found'
    rw [found] at found'
    cases found'
    exact (List.filter_eq_self.2 (stored c data found)).symm
  refine ⟨fun _ _ => rfl, thinned fun c data found e member => ?_,
    thinned fun c data found e member => ?_, fun e => ?_, .refl _ g, by simp, rfl, rfl⟩
  · obtain ⟨edge, stored, -⟩ := coherent.edge_of_mem_succs found member
    exact Option.isSome_of_eq_some stored
  · obtain ⟨edge, stored, -⟩ := coherent.edge_of_mem_preds found member
    exact Option.isSome_of_eq_some stored
  · cases g.edges.get? e <;> simp [Option.filter]

/-- What a sweep from `b` on has done, where `t` lies behind `b`. -/
structure Swept (g : Graph) (xs : List BlockId) (t : List BlockId) (gone : List BlockId)
    (g' : Graph) : Prop where
  dropped : Dropped gone g g'
  coherent : g'.Coherent (xs.filter (· ∉ gone))
  mem_iff : ∀ c, c ∈ gone ↔ c ∈ t ∧ c ≠ .exit ∧ g.Unmarked c
  still : gone = [] → g' = g
  parted : Parted xs gone g g'
  sublist : gone.Sublist t
  live : ∀ c ∈ gone, ∃ data, g.block? c = some data ∧ data.status = .live

section

variable {g g₁ g' : Graph} {xs t gone : List BlockId} {b : BlockId}

theorem Swept.pass (swept : Swept g xs t gone g') (absent : b ∉ t) (marked : ¬g.Unmarked b) :
    Swept g xs (b :: t) gone g' := by
  refine ⟨swept.dropped, swept.coherent, fun d => ?_, swept.still, swept.parted,
    swept.sublist.cons b, swept.live⟩
  rw [swept.mem_iff]
  by_cases here : d = b
  · subst d
    simp [absent, marked]
  · simp [here]

theorem Swept.drop (swept : Swept g₁ (xs.erase b) t gone g') (dropped : Dropped [b] g g₁)
    (parted : Parted xs [b] g g₁) (distinct : xs.Nodup) (inner : b ≠ .exit) {data : Block}
    (found : g.block? b = some data) (clear : data.marked = false) (live : data.status = .live) :
    Swept g xs (b :: t) (b :: gone) g' := by
  have unmarked : g.Unmarked b := ⟨data, found, clear⟩
  refine ⟨dropped.trans swept.dropped, ?_, fun d => ?_, nofun,
    parted.cons dropped distinct found swept.parted, swept.sublist.cons_cons b, fun d member => ?_⟩
  · have filtered : xs.filter (· ∉ b :: gone) = (xs.erase b).filter (· ∉ gone) := by
      rw [distinct.erase_eq_filter, List.filter_filter]
      apply List.filter_congr
      intro d _
      by_cases here : d = b <;> simp [here]
    rw [filtered]
    exact swept.coherent
  · by_cases here : d = b
    · subst d
      simp [inner, unmarked]
    · rw [List.mem_cons, swept.mem_iff, dropped.unmarked_iff (by simpa using here)]
      simp [here]
  · by_cases here : d = b
    · exact ⟨data, here ▸ found, live⟩
    · obtain ⟨data₁, found₁, live₁⟩ := swept.live d ((List.mem_cons.1 member).resolve_left here)
      obtain ⟨data₀, found₀, same⟩ := dropped.exists_stem (by simpa using here) found₁
      exact ⟨data₀, found₀, (congrArg Block.status same).trans live₁⟩

end

theorem sweep_yields {allowed : Fault → Prop} (t : List BlockId) :
    ∀ (l : List BlockId) (b : BlockId) (g : Graph) (n : Nat) (dropped : List BlockId),
      g.Coherent (l ++ b :: t) → .entry ∈ l → t.length < n →
      (∀ c ∈ b :: t, ∀ data, g.block? c = some data →
        data.status = .live ∨ allowed (.cannotDetach c c)) →
      Yields allowed (g.sweep n (some b) dropped) fun (dropped', g') =>
        ∃ gone, dropped' = gone.reverse ++ dropped ∧ Swept g (l ++ b :: t) (b :: t) gone g' := by
  -- along the layout: the blocks of `l` have been passed over, those of `t` are still to come
  induction t with
  | nil =>
    intro l b g n dropped coherent _ enough _
    obtain ⟨n, rfl⟩ := Nat.exists_eq_add_one_of_ne_zero (Nat.ne_zero_of_lt enough)
    have atExit : b = .exit := by simpa using coherent.laid.last
    subst b
    rw [sweep, if_pos rfl]
    refine yields_pure ⟨[], rfl, .refl coherent, by simpa using coherent, fun c => ?_, fun _ => rfl,
      .refl _ g, List.nil_sublist _, nofun⟩
    simp only [List.not_mem_nil, List.mem_singleton, false_iff]
    exact fun here => here.2.1 here.1
  | cons c t ih =>
    intro l b g n dropped coherent entered enough live
    obtain ⟨n, rfl⟩ := Nat.exists_eq_add_one_of_ne_zero (Nat.ne_zero_of_lt enough)
    have distinct := coherent.laid.nodup
    have link := (coherent.laid.linked rfl).1
    obtain ⟨data, found, next⟩ := exists_of_next? link
    have notExit : b ≠ .exit := coherent.laid.ne_exit link
    have absent : b ∉ l ∧ b ∉ c :: t := by
      simp only [List.nodup_append, List.nodup_cons] at distinct
      exact ⟨fun member => distinct.2.2 b member b (List.mem_cons_self ..) rfl, distinct.2.1.1⟩
    have notEntry : b ≠ .entry := fun same => absent.1 (same ▸ entered)
    rw [sweep, if_neg notExit, block_bind found, next]
    split
    · rename_i marked
      have notUnmarked : ¬g.Unmarked b := by
        intro ⟨data', found', unmarked⟩
        rw [found] at found'
        cases found'
        rw [marked] at unmarked
        cases unmarked
      have rest := ih (l ++ [b]) c g n dropped (by simpa using coherent) (by simp [entered])
        (by simpa using enough) fun d member => live d (List.mem_cons_of_mem _ member)
      apply rest.mono
      intro _ ⟨gone, same, swept⟩
      rw [List.append_assoc, List.singleton_append] at swept
      exact ⟨gone, same, swept.pass absent.2 notUnmarked⟩
    · rename_i unmarked
      have struck : (l ++ b :: c :: t).erase b = l ++ c :: t := by
        rw [List.erase_append_right _ absent.1, List.erase_cons_head]
      apply (drop_yields coherent (by simp) notEntry notExit found
        (live b (List.mem_cons_self ..) data found)).bind
      intro g₁ ⟨dropped₁, coherent₁, parted₁, wasLive⟩
      rw [struck] at coherent₁
      have live₁ : ∀ d ∈ c :: t, ∀ data, g₁.block? d = some data →
          data.status = .live ∨ allowed (.cannotDetach d d) := by
        intro d member data₁ found₁
        have apart : d ∉ [b] := by
          intro inside
          exact absent.2 (List.mem_singleton.1 inside ▸ member)
        obtain ⟨data₀, found₀, same⟩ := dropped₁.exists_stem apart found₁
        have status : data₀.status = data₁.status := by
          simpa [Block.stem] using congrArg Block.status same
        rw [← status]
        exact live d (List.mem_cons_of_mem _ member) data₀ found₀
      apply (ih l c g₁ n (b :: dropped) coherent₁ entered (by simpa using enough) live₁).mono
      intro _ ⟨gone, same, swept⟩
      rw [← struck] at swept
      exact ⟨b :: gone, by simp [same],
        swept.drop dropped₁ parted₁ distinct notExit found (by simpa using unmarked) wasLive⟩

/-! ## Marks -/

/-- Nothing has changed but marks. -/
structure Remarked (g g' : Graph) : Prop where
  block : SameBlocks Block.unmark g g'
  edges : g'.edges = g.edges
  globals : SameGlobals g g'

theorem block?_setMarks (bs : List BlockId) (marked : Bool) (g : Graph) (c : BlockId) :
    (g.setMarks bs marked).block? c =
      (g.block? c).map fun data => if c ∈ bs then { data with marked := marked } else data :=
  block?_modifyAll bs (f := ({ · with marked := marked })) (fun _ => rfl) g c

theorem remarked_setMarks (bs : List BlockId) (marked : Bool) (g : Graph) :
    Remarked g (g.setMarks bs marked) := by
  have block := block?_setMarks bs marked g
  rw [setMarks, modifyAll_eq] at block ⊢
  refine ⟨.of_map block fun c data => ?_, rfl, rfl, rfl, rfl, rfl⟩
  split <;> rfl

theorem clearMarks_eq (bs : List BlockId) : ∀ g : Graph, (∀ b ∈ bs, (g.block? b).isSome) →
    g.clearMarks bs = .ok (g.setMarks bs false) := by
  induction bs with
  | nil => exact fun _ _ => rfl
  | cons b bs ih =>
    intro g inside
    rw [clearMarks, List.foldlM_cons, update_bind (inside b (List.mem_cons_self ..))]
    apply ih _
    intro c member
    rw [isSome_block?_modify]
    exact inside c (List.mem_cons_of_mem _ member)

theorem Coherent.remarked {g g' : Graph} {xs : List BlockId} (coherent : g.Coherent xs)
    (remarked : Remarked g g') : g'.Coherent xs :=
  coherent.congr (remarked.block.weaken Block.frame) (fun e => by rw [remarked.edges])
    remarked.globals.liveCount

theorem markReached_yields {allowed : Fault → Prop} {g : Graph} {xs : List BlockId}
    (coherent : g.Coherent xs) : Yields allowed g.markReached fun (order, g') =>
      g.Explored order ∧ Remarked g g' ∧ ∀ c, g'.block? c = (g.block? c).map fun data =>
        if c ∈ order then { data with marked := true } else data := by
  have entered := Option.isSome_iff_exists.2 (coherent.laid.exists_block coherent.laid.entry_mem)
  apply (reached_yields coherent.matched entered).bind
  intro order explored
  obtain ⟨block, edges, globals⟩ := remarked_setMarks order true g
  exact yields_pure ⟨explored, ⟨block, edges, ⟨globals.1, globals.2, globals.3, globals.4⟩⟩,
    block?_setMarks order true g⟩

/-! ## What dropping leaves behind -/

section

variable {g g' : Graph} {xs gone : List BlockId} {c : BlockId}

/-- No edge leads from a block that stays to one that goes. -/
def ClosedOff (g : Graph) (gone : List BlockId) : Prop :=
  ∀ e edge, g.edges.get? e = some edge → edge.src ∉ gone → edge.dst ∉ gone

theorem Dropped.edge_of_closedOff (dropped : Dropped gone g g') (closed : g.ClosedOff gone)
    (e : EdgeId) : g'.edges.get? e = (g.edges.get? e).filter fun edge => edge.src ∉ gone := by
  rw [dropped.edge]
  cases stored : g.edges.get? e with
  | none => rfl
  | some edge =>
    simp only [Option.filter_some]
    by_cases kept : edge.src ∈ gone
    · simp [kept]
    · simp [kept, closed e edge stored kept]

theorem Dropped.core_of_closedOff (dropped : Dropped gone g g') (coherent : g.Coherent xs)
    (closed : g.ClosedOff gone) (kept : c ∉ gone) :
    (g'.block? c).map Block.core = (g.block? c).map Block.core := by
  have same := dropped.stem c kept
  cases found : g.block? c with
  | none =>
    rw [found, Option.map_none, Option.map_eq_none_iff] at same
    simp [same]
  | some data =>
    rw [found, Option.map_some] at same
    obtain ⟨data', found', same⟩ := Option.map_eq_some_iff.1 same
    -- none of the edges that leave the block has been deleted
    have succs : data'.succs = data.succs := by
      refine (dropped.succs c kept data data' found found').trans ?_
      apply List.filter_eq_self.2
      intro e member
      obtain ⟨edge, stored, rfl⟩ := coherent.edge_of_mem_succs found member
      rw [dropped.edge_of_closedOff closed, stored]
      simp [kept]
    simp only [Block.stem, Block.mk.injEq] at same
    simp [found', Block.core, same, succs]

theorem Dropped.exists_marked (dropped : Dropped gone g g') {data' : Block}
    (found' : g'.block? c = some data') (marked : data'.marked = true) :
    ∃ data, g.block? c = some data ∧ data.marked = true := by
  have kept : c ∉ gone := by
    intro member
    rw [(dropped.retired c member data' found').1] at marked
    cases marked
  obtain ⟨data, found, same⟩ := dropped.exists_stem kept found'
  have mark : data.marked = data'.marked := by simpa [Block.stem] using congrArg Block.marked same
  exact ⟨data, found, mark.trans marked⟩

end

/-! ## Elimination -/

/-- The blocks `gone` of the layout have been dropped. No edge led to them from elsewhere. -/
structure Eliminated (xs gone : List BlockId) (g g' : Graph) : Prop where
  coherent : g'.Coherent (xs.filter (· ∉ gone))
  inner : ∀ c ∈ gone, c ∈ xs ∧ c ≠ .entry ∧ c ≠ .exit
  closed : g.ClosedOff gone
  core : ∀ c, c ∉ gone → (g'.block? c).map Block.core = (g.block? c).map Block.core
  edge : ∀ e, g'.edges.get? e = (g.edges.get? e).filter fun edge => edge.src ∉ gone
  label : SameBlocks (·.label) g g'
  retired : ∀ c ∈ gone, ∀ data, g'.block? c = some data →
    data.status = .retired ∧ data.marked = false
  marked : ∀ c data', g'.block? c = some data' → data'.marked = true →
    ∃ data, g.block? c = some data ∧ data.marked = true
  labels : g'.labels = g.labels
  catcher : g'.catcher = g.catcher

section

variable {allowed : Fault → Prop} {g g₁ g₂ : Graph} {xs order gone : List BlockId}

theorem Explored.closedOff (explored : g.Explored order) (coherent : g.Coherent xs)
    (unmarked : ∀ b ∈ xs, g.Unmarked b)
    (gone_iff : ∀ c, c ∈ gone ↔ c ∈ xs ∧ c ≠ .exit ∧ c ∉ order) : g.ClosedOff gone := by
  intro e edge stored kept member
  obtain ⟨inside, inner, -⟩ := coherent.source stored
  -- what stays was found, and so was every destination of its edges
  have found : edge.src ∈ order := by
    rw [gone_iff, not_and, not_and, not_not] at kept
    exact kept inside inner
  obtain ⟨inside', -, missed⟩ := (gone_iff _).1 member
  obtain reached | ⟨data, there, marked⟩ := explored.closed e edge stored found
  · exact missed reached
  · obtain ⟨data', there', clear⟩ := unmarked edge.dst inside'
    rw [there] at there'
    cases there'
    rw [marked] at clear
    cases clear

theorem Dropped.eliminated (dropped : Dropped gone g₁ g₂) (coherent : g.Coherent xs)
    (coherent₂ : g₂.Coherent (xs.filter (· ∉ gone))) (remarked : Remarked g g₁)
    (marks : ∀ c, g₁.block? c = (g.block? c).map fun data =>
      if c ∈ order then { data with marked := true } else data)
    (inner : ∀ c ∈ gone, c ∈ xs ∧ c ≠ .entry ∧ c ≠ .exit) (closed : g.ClosedOff gone) :
    Eliminated xs gone g (g₂.setMarks order false) := by
  have cleared := remarked_setMarks order false g₂
  have closed₁ : g₁.ClosedOff gone := by
    intro e edge stored
    rw [remarked.edges] at stored
    exact closed e edge stored
  have core₁ : SameBlocks Block.core g g₁ := remarked.block.weaken Block.core
  have core₂ : SameBlocks Block.core g₂ (g₂.setMarks order false) := cleared.block.weaken Block.core
  have label₁ : SameBlocks (·.label) g g₁ := remarked.block.weaken Block.label
  have label₂ : SameBlocks (·.label) g₂ (g₂.setMarks order false) := cleared.block.weaken Block.label
  refine ⟨coherent₂.remarked cleared, inner, closed, fun c kept => ?_, fun e => ?_,
    (label₁.trans dropped.label).trans label₂, fun c member data found => ?_,
    fun c data found marked => ?_, ?_, ?_⟩
  · rw [core₂ c, dropped.core_of_closedOff (coherent.remarked remarked) closed₁ kept, core₁ c]
  · rw [cleared.edges, dropped.edge_of_closedOff closed₁, remarked.edges]
  · rw [block?_setMarks, Option.map_eq_some_iff] at found
    obtain ⟨data₂, found₂, rfl⟩ := found
    obtain ⟨clear, status⟩ := dropped.retired c member data₂ found₂
    split
    · exact ⟨status, rfl⟩
    · exact ⟨status, clear⟩
  · rw [block?_setMarks, Option.map_eq_some_iff] at found
    obtain ⟨data₂, found₂, rfl⟩ := found
    split at marked
    · cases marked
    · -- a mark that is left was not set by the search
      rename_i missed
      obtain ⟨data₁, found₁, marked₁⟩ := dropped.exists_marked found₂ marked
      rw [marks, Option.map_eq_some_iff] at found₁
      obtain ⟨data, found, rfl⟩ := found₁
      rw [if_neg missed] at marked₁
      exact ⟨data, found, marked₁⟩
  · rw [cleared.globals.labels, dropped.labels, remarked.globals.labels]
  · rw [cleared.globals.catcher, dropped.catcher, remarked.globals.catcher]

/-- What the sweep of an elimination does, before the marks are cleared. -/
theorem eliminate_swept (coherent : g.Coherent xs) (unmarked : ∀ b ∈ xs, g.Unmarked b)
    (explored : g.Explored order) (remarked : Remarked g g₁)
    (marks : ∀ c, g₁.block? c = (g.block? c).map fun data =>
      if c ∈ order then { data with marked := true } else data)
    (live : ∀ c ∈ xs, ∀ data, g.block? c = some data →
      data.status = .live ∨ allowed (.cannotDetach c c)) :
    Yields allowed (g₁.eliminate order) fun (dropped, g') =>
      (∃ t g₂, xs = .entry :: t ∧ Swept g₁ xs t dropped g₂ ∧ g' = g₂.setMarks order false) ∧
      ∀ c, c ∈ dropped ↔ c ∈ xs ∧ c ≠ .exit ∧ c ∉ order := by
  have coherent₁ := coherent.remarked remarked
  obtain ⟨c, t, rfl⟩ : ∃ c t, xs = .entry :: c :: t := by
    obtain ⟨t, split, -⟩ := coherent.laid.eq_entry_cons
    cases t with
    | nil =>
      have last := coherent.laid.last
      simp [split, BlockId.entry, BlockId.exit] at last
    | cons c t => exact ⟨c, t, split⟩
  have enough : t.length < g₁.sweepBound := by
    have bound := coherent₁.laid.length_le
    have square := Nat.le_mul_self (g₁.blockCount + 1)
    simp only [List.length_cons] at bound
    unfold sweepBound
    omega
  have live₁ : ∀ d ∈ c :: t, ∀ data, g₁.block? d = some data →
      data.status = .live ∨ allowed (.cannotDetach d d) := by
    intro d member data found
    rw [marks, Option.map_eq_some_iff] at found
    obtain ⟨data, found, rfl⟩ := found
    have here := live d (List.mem_cons_of_mem _ member) data found
    split <;> exact here
  have unmarked_iff {d : BlockId} (member : d ∈ .entry :: c :: t) : g₁.Unmarked d ↔ d ∉ order := by
    obtain ⟨data, found, clear⟩ := unmarked d member
    simp only [Unmarked, marks, found, Option.map_some, Option.some.injEq, exists_eq_left']
    by_cases inOrder : d ∈ order <;> simp [inOrder, clear]
  obtain ⟨entry, foundEntry, next⟩ := exists_of_next? (coherent₁.laid.linked (l := []) rfl).1
  rw [eliminate, block_bind foundEntry, next]
  apply (sweep_yields t [.entry] c g₁ _ [] coherent₁ (by simp) enough live₁).bind
  intro result swept
  obtain ⟨_, g₂⟩ := result
  obtain ⟨gone, rfl, swept⟩ := swept
  have inside : ∀ b ∈ order, (g₂.block? b).isSome := by
    intro b member
    rw [swept.dropped.label.isSome_eq, remarked.block.isSome_eq]
    exact explored.inside b member
  -- entry was found by the search, so that it makes no difference that the sweep starts behind it
  have gone_iff (d : BlockId) : d ∈ gone ↔ d ∈ .entry :: c :: t ∧ d ≠ .exit ∧ d ∉ order := by
    rw [swept.mem_iff]
    constructor
    · intro ⟨member, inner, clear⟩
      have member := List.mem_cons_of_mem .entry member
      exact ⟨member, inner, (unmarked_iff member).1 clear⟩
    · intro ⟨member, inner, missed⟩
      refine ⟨(List.mem_cons.1 member).resolve_left ?_, inner, (unmarked_iff member).2 missed⟩
      rintro rfl
      exact missed explored.entry
  simp only [clearMarks_eq order g₂ inside, ok_bind, List.append_nil, List.reverse_reverse]
  exact yields_pure ⟨⟨c :: t, g₂, rfl, swept, rfl⟩, gone_iff⟩

theorem eliminate_yields (coherent : g.Coherent xs) (unmarked : ∀ b ∈ xs, g.Unmarked b)
    (explored : g.Explored order) (remarked : Remarked g g₁)
    (marks : ∀ c, g₁.block? c = (g.block? c).map fun data =>
      if c ∈ order then { data with marked := true } else data)
    (live : ∀ c ∈ xs, ∀ data, g.block? c = some data →
      data.status = .live ∨ allowed (.cannotDetach c c)) :
    Yields allowed (g₁.eliminate order) fun (dropped, g') => Eliminated xs dropped g g' ∧
      (∀ c, c ∈ dropped ↔ c ∈ xs ∧ c ≠ .exit ∧ c ∉ order) ∧
      (dropped = [] → g' = g₁.setMarks order false) := by
  apply (eliminate_swept coherent unmarked explored remarked marks live).mono
  intro result ran
  obtain ⟨gone, g'⟩ := result
  obtain ⟨⟨t, g₂, -, swept, rfl⟩, gone_iff⟩ := ran
  refine ⟨swept.dropped.eliminated coherent swept.coherent remarked marks (fun d member => ?_)
    (explored.closedOff coherent unmarked gone_iff), gone_iff,
    fun nothing => by rw [swept.still nothing]⟩
  obtain ⟨member, notExit, missed⟩ := (gone_iff d).1 member
  exact ⟨member, fun atEntry => missed (atEntry ▸ explored.entry), notExit⟩

end

end Graph

end FlowGraph
