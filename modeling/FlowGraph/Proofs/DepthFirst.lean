import FlowGraph.Proofs.Change
import Mathlib.Logic.Relation

/-! # The search as a recursion

A depth-first search visits a block by visiting, one after the other, what its edges lead to, and
lists the block when it is through with the last one. Said that way it is a recursion, as deep as a
path may be long. The search that keeps its own stack gives the same list, or the same fault: a
frame holds what the recursion has still to do for one block, so taking the edges of a frame one by
one comes to the same as going through all of them in turn.

No path of blocks seen for the first time is longer than the arena, so a recursion that may go that
deep never has to stop early. -/

namespace FlowGraph.Graph

/-! ## Ways along edges -/

/-- An edge that `b` lists leads to `c`. -/
def Steps (g : Graph) (b c : BlockId) : Prop :=
  ∃ data e edge, g.block? b = some data ∧ e ∈ data.succs ∧ g.edges.get? e = some edge ∧ edge.dst = c

/-- A path of listed edges leads from the one block to the other. From every block an empty one
leads back to it. -/
abbrev Way (g : Graph) : BlockId → BlockId → Prop := Relation.ReflTransGen g.Steps

/-- Every edge that a block lists is in the pool. -/
def SuccsStored (g : Graph) : Prop :=
  ∀ b data, g.block? b = some data → ∀ e ∈ data.succs, (g.edges.get? e).isSome

instance (g : Graph) : Decidable g.SuccsStored :=
  inferInstanceAs (Decidable (∀ b data, g.block? b = some data →
    ∀ e ∈ data.succs, (g.edges.get? e).isSome))

/-- No path from entry leads out of the arena. -/
def Enclosed (g : Graph) : Prop := ∀ c, g.Way .entry c → (g.block? c).isSome

theorem InRange.enclosed {g : Graph} (inRange : g.InRange) : g.Enclosed := by
  intro c way
  cases way with
  | refl => exact inRange.entry
  | tail _ step =>
    obtain ⟨data, e, edge, -, -, stored, rfl⟩ := step
    exact inRange.target e edge stored

/-! ## The recursion -/

/-- The blocks a search has seen so far, and those it is through with, the first one first. -/
structure Tour where
  seen : List BlockId
  done : List BlockId

/-- Visits what an edge leads to, unless that has been seen. -/
def follow (g : Graph) (visit : BlockId → Tour → Except Fault Tour) (t : Tour) (e : EdgeId) :
    Except Fault Tour := do
  let dst := (← g.edge e).dst
  if dst ∈ t.seen then return t else visit dst t

/-- Visits `b`: sees it, follows its edges in their order, and lists it. The number bounds how deep
visits may be nested. -/
def explore (g : Graph) : Nat → BlockId → Tour → Except Fault Tour
  | 0, _, _ => .error .endless
  | n + 1, b, t => do
    let data ← g.block b
    let t ← data.succs.foldlM (g.follow (g.explore n)) { t with seen := b :: t.seen }
    return { t with done := t.done ++ [b] }

/-- What has been seen are blocks of the arena, none twice, and together with `n` more they are more
than it has. -/
structure Tour.Fits (g : Graph) (n : Nat) (t : Tour) : Prop where
  distinct : t.seen.Nodup
  inside : ∀ c ∈ t.seen, (g.block? c).isSome
  room : g.blockCount < n + t.seen.length

section

variable {g : Graph} {n : Nat} {b c : BlockId} {t t₁ t₂ : Tour} {out out₁ out₂ : List BlockId}

theorem Tour.Fits.pos (fits : t.Fits g n) : 0 < n := by
  have bound := length_le_blockCount fits.distinct fits.inside
  have room := fits.room
  omega

theorem Tour.Fits.see (fits : t.Fits g (n + 1)) (fresh : b ∉ t.seen) (inside : (g.block? b).isSome) :
    Tour.Fits g n { t with seen := b :: t.seen } := by
  refine ⟨List.nodup_cons.2 ⟨fresh, fits.distinct⟩, List.forall_mem_cons.2 ⟨inside, fits.inside⟩, ?_⟩
  have room := fits.room
  simp only [List.length_cons]
  omega

/-! ## What a visit adds -/

/-- An element of two lists in a row stands in the first or in the second one. -/
theorem split_append {α : Type} {xs ys l r : List α} {u : α} (split : xs ++ ys = l ++ u :: r) :
    (∃ r', xs = l ++ u :: r') ∨ ∃ l', l = xs ++ l' ∧ ys = l' ++ u :: r := by
  obtain ⟨mid, same, rest⟩ | ⟨mid, same, rest⟩ := List.append_eq_append_iff.1 split
  · exact .inr ⟨mid, same, rest⟩
  · cases mid with
    | nil => exact .inr ⟨[], by simpa using same.symm, by simpa using rest.symm⟩
    | cons a mid =>
      cases rest
      exact .inl ⟨mid, same⟩

/-- From `t` on, `out` has been listed, all of it found from `b`. Whatever an edge of a listed block
leads to has been seen; it had been seen before, or is listed earlier, or a path leads back from
it. -/
structure Extends (g : Graph) (b : BlockId) (t t' : Tour) (out : List BlockId) : Prop where
  done : t'.done = t.done ++ out
  seen : t'.seen.Perm (out ++ t.seen)
  found : ∀ u ∈ out, g.Way b u
  closed : ∀ u ∈ out, ∀ v, g.Steps u v → v ∈ t'.seen
  order : ∀ l u r, out = l ++ u :: r → ∀ v, g.Steps u v → v ∈ t.seen ∨ v ∈ l ∨ g.Way v u

namespace Extends

theorem refl (b : BlockId) (t : Tour) : Extends g b t t [] := by
  refine ⟨by simp, .refl _, by simp, by simp, fun l u r split => ?_⟩
  simp at split

theorem mem_seen (extends' : Extends g b t t₁ out) : c ∈ t₁.seen ↔ c ∈ out ∨ c ∈ t.seen := by
  rw [extends'.seen.mem_iff, List.mem_append]

theorem trans (first : Extends g b t t₁ out₁) (second : Extends g b t₁ t₂ out₂) :
    Extends g b t t₂ (out₁ ++ out₂) := by
  refine ⟨?done, ?seen, ?found, ?closed, ?order⟩
  case done => rw [second.done, first.done, List.append_assoc]
  case seen =>
    have step : (out₂ ++ t₁.seen).Perm (out₂ ++ (out₁ ++ t.seen)) := first.seen.append_left out₂
    have swap : (out₂ ++ (out₁ ++ t.seen)).Perm (out₁ ++ out₂ ++ t.seen) := by
      rw [← List.append_assoc]
      exact List.perm_append_comm.append_right t.seen
    exact second.seen.trans (step.trans swap)
  case found =>
    intro u member
    obtain member | member := List.mem_append.1 member
    · exact first.found u member
    · exact second.found u member
  case closed =>
    intro u member v step
    obtain member | member := List.mem_append.1 member
    · exact second.mem_seen.2 (.inr (first.closed u member v step))
    · exact second.closed u member v step
  case order =>
    intro l u r split v step
    obtain ⟨r', split₁⟩ | ⟨l', rfl, split₂⟩ := split_append split
    · exact first.order l u r' split₁ v step
    · -- what the first part lists comes earlier
      obtain before | earlier | back := second.order l' u r split₂ v step
      · obtain listed | before := first.mem_seen.1 before
        · exact .inr (.inl (List.mem_append_left _ listed))
        · exact .inl before
      · exact .inr (.inl (List.mem_append_right _ earlier))
      · exact .inr (.inr back)

theorem of_way (extends' : Extends g c t t₁ out) (way : g.Way b c) : Extends g b t t₁ out :=
  ⟨extends'.done, extends'.seen, fun u member => way.trans (extends'.found u member),
    extends'.closed, extends'.order⟩

/-- A block is listed behind all that its edges have led to. -/
theorem finish (inner : Extends g b { t with seen := b :: t.seen } t₁ out)
    (own : ∀ v, g.Steps b v → v ∈ t₁.seen) :
    Extends g b t { t₁ with done := t₁.done ++ [b] } (out ++ [b]) := by
  refine ⟨by simp [inner.done], by simpa using inner.seen, ?found, ?closed, ?order⟩
  case found =>
    intro u member
    obtain member | member := List.mem_append.1 member
    · exact inner.found u member
    · rw [List.mem_singleton.1 member]
  case closed =>
    intro u member v step
    obtain member | member := List.mem_append.1 member
    · exact inner.closed u member v step
    · rw [List.mem_singleton.1 member] at step
      exact own v step
  case order =>
    intro l u r split v step
    obtain ⟨r', split₁⟩ | ⟨l', rfl, split₂⟩ := split_append split
    · obtain before | earlier | back := inner.order l u r' split₁ v step
      · -- the edge may lead to `b`, from which `u` was found
        obtain rfl | before := List.mem_cons.1 before
        · exact .inr (.inr (inner.found u (by simp [split₁])))
        · exact .inl before
      · exact .inr (.inl earlier)
      · exact .inr (.inr back)
    · obtain ⟨rfl, rfl, rfl⟩ : l' = [] ∧ b = u ∧ [] = r := by
        cases l' <;> simp_all
      obtain listed | before := inner.mem_seen.1 (own v step)
      · exact .inr (.inl (List.mem_append_left _ listed))
      · obtain rfl | before := List.mem_cons.1 before
        · exact .inr (.inr .refl)
        · exact .inl before

end Extends

/-! ## Following the edges of one block -/

/-- From `t` on, the edges `taken` of `b` have been followed. -/
structure Followed (g : Graph) (n : Nat) (b : BlockId) (t : Tour) (taken : List EdgeId) (t' : Tour) :
    Prop where
  fits : t'.Fits g n
  found : ∃ out, Extends g b t t' out
  known : ∀ e ∈ taken, ∀ edge, g.edges.get? e = some edge → edge.dst ∈ t'.seen

theorem Followed.more {taken : List EdgeId} {e : EdgeId} {edge : Edge}
    (followed : Followed g n b t taken t₁) (stored : g.edges.get? e = some edge)
    (fits : t₂.Fits g n) (further : Extends g b t₁ t₂ out) (here : edge.dst ∈ t₂.seen) :
    Followed g n b t (taken ++ [e]) t₂ := by
  obtain ⟨out₁, found⟩ := followed.found
  refine ⟨fits, ⟨_, found.trans further⟩, fun e' member edge' stored' => ?_⟩
  obtain member | member := List.mem_append.1 member
  · exact further.mem_seen.2 (.inr (followed.known e' member edge' stored'))
  · rw [List.mem_singleton.1 member, stored] at stored'
    cases stored'
    exact here

theorem Followed.explored {data : Block} (here : g.block? b = some data)
    (followed : Followed g n b { t with seen := b :: t.seen } data.succs t₁) :
    Tour.Fits g (n + 1) { t₁ with done := t₁.done ++ [b] } ∧
      ∃ out, Extends g b t { t₁ with done := t₁.done ++ [b] } (out ++ [b]) := by
  obtain ⟨fits, ⟨out, found⟩, known⟩ := followed
  have own : ∀ v, g.Steps b v → v ∈ t₁.seen := by
    rintro v ⟨data', e, edge, here', listed, stored, rfl⟩
    rw [here] at here'
    cases here'
    exact known e listed edge stored
  exact ⟨⟨fits.distinct, fits.inside, Nat.lt_of_lt_of_le fits.room (by simp)⟩, out, found.finish own⟩

/-! ## A visit from any state of a search -/

section

variable {allowed : Fault → Prop} {root : BlockId}
  (missing : ∀ c, g.Way root c → g.block? c = none → allowed (.outOfRange c))
  (dangling : ∀ c data e, g.Way root c → g.block? c = some data → e ∈ data.succs →
    g.edges.get? e = none → allowed (.danglingEdge e))

include dangling in
theorem follow_yields {visit : BlockId → Tour → Except Fault Tour}
    (visits : ∀ c t, t.Fits g n → c ∉ t.seen → g.Way root c → Yields allowed (visit c t) fun t' =>
      t'.Fits g n ∧ ∃ out, Extends g c t t' (out ++ [c]))
    {data : Block} {taken : List EdgeId} {e : EdgeId} (way : g.Way root b)
    (here : g.block? b = some data) (listed : e ∈ data.succs)
    (followed : Followed g n b t taken t₁) :
    Yields allowed (g.follow visit t₁ e) (Followed g n b t (taken ++ [e])) := by
  cases stored : g.edges.get? e with
  | none =>
    rw [follow, edge, stored]
    exact dangling b data e way here listed stored
  | some edge =>
    have step : g.Steps b edge.dst := ⟨data, e, edge, here, listed, stored, rfl⟩
    rw [follow, edge_bind stored]
    by_cases seen : edge.dst ∈ t₁.seen
    · rw [if_pos seen]
      exact yields_pure (followed.more stored followed.fits (.refl b t₁) seen)
    · rw [if_neg seen]
      apply (visits edge.dst t₁ followed.fits seen (way.tail step)).mono
      rintro t₂ ⟨fits, out, near⟩
      exact followed.more stored fits (near.of_way (.single step)) (near.mem_seen.2 (by simp))

include missing dangling in
/-- A visit of a block that has not been seen lists that block last. It can fail for nothing but a
path that leads out of the arena, or an edge on the way that is not in the pool. -/
theorem explore_yields (n : Nat) : ∀ (b : BlockId) (t : Tour), t.Fits g n → b ∉ t.seen →
    g.Way root b → Yields allowed (g.explore n b t) fun t' =>
      t'.Fits g n ∧ ∃ out, Extends g b t t' (out ++ [b]) := by
  -- on the depth that is left
  induction n with
  | zero =>
    intro b t fits
    exact absurd fits.pos (Nat.lt_irrefl 0)
  | succ n ih =>
    intro b t fits fresh way
    cases here : g.block? b with
    | none =>
      rw [explore, block, here]
      exact missing b way here
    | some data =>
      have start : Followed g n b { t with seen := b :: t.seen } [] { t with seen := b :: t.seen } :=
        ⟨fits.see fresh (Option.isSome_of_eq_some here), ⟨[], .refl b _⟩, by simp⟩
      rw [explore, block_bind here]
      refine (Yields.foldlM (Followed g n b _) start fun taken e rest t₁ split followed => ?_).bind
        fun t₁ followed => yields_pure (followed.explored here)
      exact follow_yields dangling ih way here (by simp [split]) followed

end

theorem explore_of_eq_ok (fits : t.Fits g n) (fresh : b ∉ t.seen) (ran : g.explore n b t = .ok t₁) :
    t₁.Fits g n ∧ ∃ out, Extends g b t t₁ (out ++ [b]) := by
  have explored : Yields (fun _ => True) (g.explore n b t) _ :=
    explore_yields (fun _ _ _ => trivial) (fun _ _ _ _ _ _ _ => trivial) n b t fits fresh .refl
  exact explored.of_eq_ok ran

theorem fits_start (deep : g.blockCount < n) : Tour.Fits g n ⟨[], []⟩ := ⟨.nil, by simp, deep⟩

/-! ## The search with a stack does the same -/

/-- Marks on the blocks of a list. -/
def marks (g : Graph) (bs : List BlockId) : Array Bool :=
  bs.foldr (fun b seen => seen.setIfInBounds b.index true) (Array.replicate g.blockCount false)

theorem marks_cons (b : BlockId) (bs : List BlockId) :
    g.marks (b :: bs) = (g.marks bs).setIfInBounds b.index true := rfl

theorem size_marks (bs : List BlockId) : (g.marks bs).size = g.blockCount := by
  induction bs with
  | nil => simp [marks]
  | cons b bs ih => simp [marks_cons, ih]

theorem seen_marks_iff {bs : List BlockId} (inside : ∀ c ∈ bs, (g.block? c).isSome) :
    Seen (g.marks bs) c ↔ c ∈ bs := by
  induction bs with
  | nil => simp [marks, Seen, Array.getElem?_replicate]
  | cons b bs ih =>
    obtain ⟨here, inside⟩ := List.forall_mem_cons.1 inside
    obtain ⟨data, found⟩ := Option.isSome_iff_exists.1 here
    have within : b.index < (g.marks bs).size := by
      rw [size_marks]
      exact (Array.getElem?_eq_some_iff.1 found).1
    rw [marks_cons, seen_set_iff within, ih inside, List.mem_cons]

/-- With a frame for `b` and its edges on top, a search comes as far as the visit of `b` does, and
goes on with the frames below. -/
def SearchVisits (g : Graph) (n : Nat) : Prop :=
  ∀ (b : BlockId) (data : Block) (t : Tour), t.Fits g n → b ∉ t.seen → g.block? b = some data →
    ∃ k, ∀ m stack,
      g.search (m + k) ((b, data.succs) :: stack) (g.marks (b :: t.seen)) t.done.reverse =
        g.explore n b t >>= fun t' => g.search m stack (g.marks t'.seen) t'.done.reverse

/-- If it does so for deeper blocks, then it takes the edges of a frame as they are followed. -/
theorem SearchVisits.search_eq_follow (visits : g.SearchVisits n) (es : List EdgeId) :
    ∀ t : Tour, t.Fits g n → ∃ k, ∀ m b stack,
      g.search (m + k) ((b, es) :: stack) (g.marks t.seen) t.done.reverse =
        es.foldlM (g.follow (g.explore n)) t >>= fun t' =>
          g.search m ((b, []) :: stack) (g.marks t'.seen) t'.done.reverse := by
  induction es with
  | nil => exact fun t _ => ⟨0, fun m b stack => rfl⟩
  | cons e es ih =>
    intro t fits
    simp only [List.foldlM_cons, bind_assoc]
    cases stored : g.edges.get? e with
    | none =>
      refine ⟨1, fun m b stack => ?_⟩
      rw [search_of_dangling stored, follow, edge, stored]
      rfl
    | some edge =>
      have followed : g.follow (g.explore n) t e =
          if edge.dst ∈ t.seen then .ok t else g.explore n edge.dst t := by
        rw [follow, edge_bind stored]
        rfl
      rw [followed]
      by_cases seen : edge.dst ∈ t.seen
      · obtain ⟨data, here⟩ := Option.isSome_iff_exists.1 (fits.inside _ seen)
        obtain ⟨k, rest⟩ := ih t fits
        refine ⟨k + 1, fun m b stack => ?_⟩
        rw [← Nat.add_assoc, search_of_seen stored here ((seen_marks_iff fits.inside).2 seen), rest,
          if_pos seen, ok_bind]
      · rw [if_neg seen]
        cases here : g.block? edge.dst with
        | none =>
          obtain ⟨n, rfl⟩ := Nat.exists_eq_add_one_of_ne_zero fits.pos.ne'
          refine ⟨1, fun m b stack => ?_⟩
          rw [search_of_outside stored here, explore, block, here]
          rfl
        | some data =>
          have fresh : ¬Seen (g.marks t.seen) edge.dst := by
            rwa [seen_marks_iff fits.inside]
          obtain ⟨k₁, visit⟩ := visits edge.dst data t fits seen here
          cases explored : g.explore n edge.dst t with
          | error f =>
            refine ⟨k₁ + 1, fun m b stack => ?_⟩
            rw [← Nat.add_assoc, search_of_fresh stored here fresh, ← marks_cons, visit, explored]
            rfl
          | ok t₁ =>
            obtain ⟨k₂, rest⟩ := ih t₁ (explore_of_eq_ok fits seen explored).1
            refine ⟨k₂ + k₁ + 1, fun m b stack => ?_⟩
            rw [← Nat.add_assoc, ← Nat.add_assoc, search_of_fresh stored here fresh, ← marks_cons,
              visit, explored, ok_bind, ok_bind, rest]

theorem searchVisits (n : Nat) : g.SearchVisits n := by
  induction n with
  | zero =>
    intro b data t fits
    exact absurd fits.pos (Nat.lt_irrefl 0)
  | succ n ih =>
    intro b data t fits fresh here
    have fits₀ := fits.see fresh (Option.isSome_of_eq_some here)
    obtain ⟨k, eq⟩ := ih.search_eq_follow data.succs _ fits₀
    refine ⟨1 + k, fun m stack => ?_⟩
    rw [← Nat.add_assoc, eq, explore, block_bind here, bind_assoc]
    -- one more step lists the block
    congr 1
    funext t'
    rw [search, pure_bind_fault, List.reverse_append]
    rfl

/-! ## The postorder -/

theorem startMarks_eq_marks (clear : g.Clear) : g.startMarks = g.marks [.entry] := by
  have unmarked : g.blocks.map (·.marked) = Array.replicate g.blockCount false := by
    apply Array.ext_getElem?
    intro i
    rw [Array.getElem?_map, Array.getElem?_replicate]
    cases found : g.blocks[i]? with
    | none => exact (if_neg (Nat.not_lt.2 (Array.getElem?_eq_none_iff.1 found))).symm
    | some data =>
      rw [Option.map_some, clear ⟨i⟩ data found]
      exact (if_pos (Array.getElem?_eq_some_iff.1 found).1).symm
  rw [startMarks, unmarked]
  rfl

/-- Where nothing is marked, a search from entry lists what a visit of entry lists. -/
theorem reached_eq_explore (clear : g.Clear) (deep : g.blockCount < n) :
    g.reached = (g.explore n .entry ⟨[], []⟩).map Tour.done := by
  have fits := fits_start deep
  cases found : g.block? .entry with
  | none =>
    obtain ⟨n, rfl⟩ := Nat.exists_eq_add_one_of_ne_zero fits.pos.ne'
    rw [reached, explore, block, found]
    rfl
  | some data =>
    obtain ⟨k, eq⟩ := searchVisits n .entry data ⟨[], []⟩ fits (by simp) found
    have ran := eq g.searchBound []
    rw [← startMarks_eq_marks clear, List.reverse_nil,
      search_more _ _ _ k (search_ne_endless found), ← reached_eq found] at ran
    rw [ran]
    cases g.explore n .entry ⟨[], []⟩ with
    | error f => rfl
    | ok t => rw [ok_bind, search, List.reverse_reverse]; rfl

theorem postorder_eq (clear : g.Clear) :
    g.postorder = g.reached.map fun order => (order, { g with order := some order }) := by
  rw [postorder, markReached]
  cases g.reached with
  | error f => rfl
  | ok order =>
    simp only [ok_bind, pure_bind_fault, setMarks_setMarks clear order none]
    rfl

/-- Where nothing is marked, the search from entry always ends, and gives what the recursion gives:
the same list, or the same fault. It changes nothing but the order that is kept. Both return if the
edges are in the pool and no path from entry leads out of the arena. -/
theorem postorder_eq_explore (clear : g.Clear) :
    (∀ n, g.blockCount < n → g.postorder = (g.explore n .entry ⟨[], []⟩).map fun t =>
      (t.done, { g with order := some t.done })) ∧
    g.postorder ≠ .error .endless ∧
    (g.SuccsStored → g.Enclosed → ∀ n, g.blockCount < n → ∃ t,
      g.explore n .entry ⟨[], []⟩ = .ok t ∧
        g.postorder = .ok (t.done, { g with order := some t.done })) := by
  have eq (n : Nat) (deep : g.blockCount < n) : g.postorder = (g.explore n .entry ⟨[], []⟩).map
      fun t => (t.done, { g with order := some t.done }) := by
    rw [postorder_eq clear, reached_eq_explore clear deep]
    cases g.explore n .entry ⟨[], []⟩ <;> rfl
  refine ⟨eq, ?ends, fun stored enclosed n deep => ?returns⟩
  case ends =>
    have deep := Nat.lt_succ_self g.blockCount
    rw [eq _ deep]
    have explored : Yields (· ≠ .endless) (g.explore _ .entry ⟨[], []⟩) _ :=
      explore_yields (fun _ _ _ => Fault.noConfusion) (fun _ _ _ _ _ _ _ => Fault.noConfusion) _
        .entry ⟨[], []⟩ (fits_start deep) (by simp) .refl
    cases ran : g.explore (g.blockCount + 1) .entry ⟨[], []⟩ with
    | error f => exact fun failed => explored.of_eq_error ran (Except.error.inj failed)
    | ok t => simp [Except.map]
  case returns =>
    have missing (c : BlockId) (way : g.Way .entry c) (outside : g.block? c = none) : False := by
      simpa [outside] using enclosed c way
    have dangling (c : BlockId) (data : Block) (e : EdgeId) (_ : g.Way .entry c)
        (found : g.block? c = some data) (listed : e ∈ data.succs) (freed : g.edges.get? e = none) :
        False := by
      simpa [freed] using stored c data found e listed
    have explored : Yields (fun _ => False) (g.explore n .entry ⟨[], []⟩) _ :=
      explore_yields missing dangling n .entry ⟨[], []⟩ (fits_start deep) (by simp) .refl
    obtain ⟨t, ran, -⟩ := explored.exists_ok
    refine ⟨t, ran, ?_⟩
    rw [eq n deep, ran]
    rfl

/-- Block 2 leads to block 3 by two edges and to itself by a third one, and block 3 leads back to
it, to exit, and to block 4, which is in no layout. -/
def knot : Graph :=
  { blocks := #[
      { Block.fresh with status := .live, next := some ⟨2⟩, succs := [⟨0⟩] },
      { Block.fresh with status := .live, prev := some ⟨3⟩, preds := [⟨6⟩] },
      { Block.fresh with
        status := .live, prev := some .entry, next := some ⟨3⟩
        succs := [⟨1⟩, ⟨2⟩, ⟨3⟩], preds := [⟨0⟩, ⟨3⟩, ⟨4⟩] },
      { Block.fresh with
        status := .live, prev := some ⟨2⟩, next := some .exit
        succs := [⟨4⟩, ⟨5⟩, ⟨6⟩], preds := [⟨1⟩, ⟨2⟩] },
      { Block.fresh with preds := [⟨5⟩] }]
    liveCount := 4, retired := #[]
    edges := ⟨#[some ⟨.entry, ⟨2⟩, .fallthru⟩, some ⟨⟨2⟩, ⟨3⟩, .branch⟩, some ⟨⟨2⟩, ⟨3⟩, .fallthru⟩,
      some ⟨⟨2⟩, ⟨2⟩, .branch⟩, some ⟨⟨3⟩, ⟨2⟩, .branch⟩, some ⟨⟨3⟩, ⟨4⟩, .branch⟩,
      some ⟨⟨3⟩, .exit, .fallthru⟩], []⟩
    labels := .empty, order := none, catcher := none }

theorem postorder_eq_explore_knot : knot.Clear ∧ knot.SuccsStored ∧ knot.Enclosed ∧
    (∀ n, 5 < n → knot.postorder = (knot.explore n .entry ⟨[], []⟩).map fun t =>
      (t.done, { knot with order := some t.done })) ∧
    knot.postorder ≠ .error .endless ∧
    (∀ n, 5 < n → ∃ t, knot.explore n .entry ⟨[], []⟩ = .ok t ∧
      knot.postorder = .ok (t.done, { knot with order := some t.done })) := by
  have clear : knot.Clear := by decide
  have stored : knot.SuccsStored := by decide
  have inRange : knot.InRange := by decide
  obtain ⟨eq, ends, returns⟩ := postorder_eq_explore clear
  exact ⟨clear, stored, inRange.enclosed, eq, ends, returns stored inRange.enclosed⟩

example : (knot.explore 6 .entry ⟨[], []⟩).map Tour.done =
    .ok [⟨4⟩, .exit, ⟨3⟩, ⟨2⟩, .entry] := by
  decide +kernel

end

end FlowGraph.Graph
