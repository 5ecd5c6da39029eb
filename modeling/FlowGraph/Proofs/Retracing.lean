import FlowGraph.Proofs.Change

/-! # Searching again

A search reads little of a graph: which blocks carry a mark, which edges leave the blocks it lists,
and where these lead. As a relation it is deterministic, so two graphs without marks that agree on
the edges of the blocks found in one of them have the same postorder, whatever else has come or gone
in between. -/

namespace FlowGraph.Graph

/-! ## Searches as a relation -/

/-- A search goes on from its stack, marks and finished blocks to list `order`. -/
inductive Visits (g : Graph) :
    List (BlockId × List EdgeId) → Array Bool → List BlockId → List BlockId → Prop where
  | stop (seen : Array Bool) (done : List BlockId) : Visits g [] seen done done.reverse
  | finish {b stack seen done order} (rest : Visits g stack seen (b :: done) order) :
      Visits g ((b, []) :: stack) seen done order
  | skip {b e es stack seen done order edge} (stored : g.edges.get? e = some edge)
      (known : Seen seen edge.dst) (rest : Visits g ((b, es) :: stack) seen done order) :
      Visits g ((b, e :: es) :: stack) seen done order
  | descend {b e es stack seen done order edge data} (stored : g.edges.get? e = some edge)
      (found : g.block? edge.dst = some data) (fresh : ¬Seen seen edge.dst)
      (rest : Visits g ((edge.dst, data.succs) :: (b, es) :: stack)
        (seen.setIfInBounds edge.dst.index true) done order) :
      Visits g ((b, e :: es) :: stack) seen done order

section

variable {g g' : Graph} {order : List BlockId}

theorem visits_of_search (n : Nat) :
    ∀ (stack : List (BlockId × List EdgeId)) (seen : Array Bool) (done : List BlockId),
      g.search n stack seen done = .ok order → g.Visits stack seen done order := by
  induction n with
  | zero =>
    intro stack seen done ran
    cases stack with
    | nil =>
      cases ran
      exact .stop seen done
    | cons frame stack => cases ran
  | succ n ih =>
    intro stack seen done ran
    match stack with
    | [] =>
      cases ran
      exact .stop seen done
    | (b, []) :: stack => exact .finish (ih stack seen (b :: done) ran)
    | (b, e :: es) :: stack =>
      rw [search] at ran
      simp only [bind_eq_ok, edge_eq_ok, block_eq_ok] at ran
      obtain ⟨edge, stored, data, found, ran⟩ := ran
      split at ran
      · exact .skip stored ‹_› (ih _ _ _ ran)
      · exact .descend stored found ‹_› (ih _ _ _ ran)

theorem visits_of_reached (ran : g.reached = .ok order) : ∃ data, g.block? .entry = some data ∧
    g.Visits [(.entry, data.succs)] g.startMarks [] order := by
  have steps := ran
  rw [reached, bind_eq_ok] at steps
  obtain ⟨data, found, -⟩ := steps
  rw [block_eq_ok] at found
  rw [reached_eq found] at ran
  exact ⟨data, found, visits_of_search _ _ _ _ ran⟩

namespace Visits

variable {stack : List (BlockId × List EdgeId)} {seen : Array Bool} {done : List BlockId}

theorem mem (visits : g.Visits stack seen done order) :
    (∀ b ∈ done, b ∈ order) ∧ ∀ frame ∈ stack, frame.1 ∈ order := by
  induction visits with
  | stop => simp
  | finish rest ih =>
    obtain ⟨finished, frames⟩ := ih
    obtain ⟨here, finished⟩ := List.forall_mem_cons.1 finished
    exact ⟨finished, List.forall_mem_cons.2 ⟨here, frames⟩⟩
  | skip stored known rest ih => exact ⟨ih.1, by simpa using ih.2⟩
  | descend stored found fresh rest ih =>
    exact ⟨ih.1, by simpa using (List.forall_mem_cons.1 ih.2).2⟩

/-- What passes along the edges of listed blocks has come to every listed block, if it has come to
those that have a frame or are finished. -/
theorem passes {p : BlockId → Prop} (matched : g.Matched) (visits : g.Visits stack seen done order)
    (step : ∀ e edge, g.edges.get? e = some edge → edge.src ∈ order → p edge.src → p edge.dst) :
    (∀ b ∈ done, p b) → (∀ frame ∈ stack, p frame.1) →
      (∀ frame ∈ stack, ∀ e ∈ frame.2, ∀ edge, g.edges.get? e = some edge → edge.src = frame.1) →
      ∀ b ∈ order, p b := by
  induction visits with
  | stop =>
    intro finished _ _ b member
    exact finished b (List.mem_reverse.1 member)
  | finish rest ih =>
    intro finished frames starts
    obtain ⟨here, frames⟩ := List.forall_mem_cons.1 frames
    exact ih step (List.forall_mem_cons.2 ⟨here, finished⟩) frames (List.forall_mem_cons.1 starts).2
  | skip stored known rest ih =>
    intro finished frames starts
    obtain ⟨own, starts⟩ := List.forall_mem_cons.1 starts
    exact ih step finished (by simpa using frames)
      (List.forall_mem_cons.2 ⟨(List.forall_mem_cons.1 own).2, starts⟩)
  | @descend b e es stack seen done order edge data stored found fresh rest ih =>
    intro finished frames starts
    obtain ⟨own, others⟩ := List.forall_mem_cons.1 starts
    obtain ⟨first, later⟩ := List.forall_mem_cons.1 own
    obtain rfl : edge.src = b := first edge stored
    obtain ⟨here, before⟩ := List.forall_mem_cons.1 frames
    have listed : edge.src ∈ order := rest.mem.2 (edge.src, es) (by simp)
    refine ih step finished (List.forall_mem_cons.2 ⟨step e edge stored listed here, ?_⟩)
      (List.forall_mem_cons.2 ⟨fun e' inArray edge' stored' => ?_, ?_⟩)
    · exact List.forall_mem_cons.2 ⟨here, before⟩
    · obtain ⟨edge₀, stored₀, src⟩ := ((matched.succs.array found).2 e').1 inArray
      rw [stored'] at stored₀
      cases stored₀
      exact src
    · exact List.forall_mem_cons.2 ⟨later, others⟩

end Visits

/-- What has come to entry and passes along the edges of the blocks that a search lists has come to
all of them. -/
theorem forall_of_reached {p : BlockId → Prop} (matched : g.Matched) (ran : g.reached = .ok order)
    (entry : p .entry)
    (step : ∀ e edge, g.edges.get? e = some edge → edge.src ∈ order → p edge.src → p edge.dst) :
    ∀ b ∈ order, p b := by
  obtain ⟨data, found, visits⟩ := visits_of_reached ran
  refine visits.passes matched step (by simp) (by simpa using entry) ?_
  intro frame member e inArray edge stored
  obtain rfl := List.mem_singleton.1 member
  obtain ⟨edge', stored', src⟩ := ((matched.succs.array found).2 e).1 inArray
  rw [stored] at stored'
  cases stored'
  exact src

/-! ## Searches of different graphs -/

/-- The edge leads to the same block in both graphs. -/
def SameEnd (g g' : Graph) (e : EdgeId) : Prop :=
  (g'.edges.get? e).map Edge.dst = (g.edges.get? e).map Edge.dst

/-- The same edges leave the blocks of `bs` in both graphs, and lead to the same blocks. -/
def SameWays (bs : List BlockId) (g g' : Graph) : Prop :=
  ∀ b ∈ bs, ∀ data, g.block? b = some data → ∃ data', g'.block? b = some data' ∧
    data'.succs = data.succs ∧ ∀ e ∈ data.succs, SameEnd g g' e

theorem SameWays.of_same {bs : List BlockId} (succs : SameBlocks Block.succs g g')
    (edges : g'.edges = g.edges) : SameWays bs g g' := by
  intro b _ data found
  obtain ⟨data', found', same⟩ := succs.exists_block found
  exact ⟨data', found', same, fun e _ => by rw [SameEnd, edges]⟩

theorem SameWays.trans {bs : List BlockId} (first : SameWays bs g g') (second : SameWays bs g' g'') :
    SameWays bs g g'' := by
  intro b member data found
  obtain ⟨data', found', succs, ends⟩ := first b member data found
  obtain ⟨data'', found'', succs', ends'⟩ := second b member data' found'
  refine ⟨data'', found'', succs'.trans succs, fun e inArray => ?_⟩
  exact (ends' e (succs ▸ inArray)).trans (ends e inArray)

theorem SameEnd.dst_eq {e : EdgeId} (same : SameEnd g g' e) {edge edge' : Edge}
    (stored : g.edges.get? e = some edge) (stored' : g'.edges.get? e = some edge') :
    edge'.dst = edge.dst := by
  unfold SameEnd at same
  rw [stored, stored'] at same
  exact Option.some.inj same

/-- What one search lists the other one lists too, step by step. -/
theorem Visits.unique {stack : List (BlockId × List EdgeId)} {seen : Array Bool}
    {done : List BlockId} (visits : g.Visits stack seen done order) :
    ∀ {seen' : Array Bool} {order' : List BlockId}, seen.size = g.blockCount →
      seen'.size = g'.blockCount → (∀ c, Seen seen' c ↔ Seen seen c) →
      (∀ frame ∈ stack, ∀ e ∈ frame.2, SameEnd g g' e) → SameWays order g g' →
      g'.Visits stack seen' done order' → order' = order := by
  induction visits with
  | stop =>
    intro seen' order' _ _ _ _ _ visits'
    cases visits'
    rfl
  | finish rest ih =>
    intro seen' order' size size' seenIff ends ways visits'
    cases visits' with
    | finish rest' =>
      exact ih size size' seenIff (List.forall_mem_cons.1 ends).2 ways rest'
  | skip stored known rest ih =>
    intro seen' order' size size' seenIff ends ways visits'
    obtain ⟨here, others⟩ := List.forall_mem_cons.1 ends
    obtain ⟨same, later⟩ := List.forall_mem_cons.1 here
    cases visits' with
    | skip stored' known' rest' =>
      exact ih size size' seenIff (List.forall_mem_cons.2 ⟨later, others⟩) ways rest'
    | descend stored' found' fresh' rest' =>
      rw [same.dst_eq stored stored', seenIff] at fresh'
      exact absurd known fresh'
  | @descend b e es stack seen done order edge data stored found fresh rest ih =>
    intro seen' order' size size' seenIff ends ways visits'
    obtain ⟨here, others⟩ := List.forall_mem_cons.1 ends
    obtain ⟨same, later⟩ := List.forall_mem_cons.1 here
    cases visits' with
    | skip stored' known' rest' =>
      rw [same.dst_eq stored stored', seenIff] at known'
      exact absurd known' fresh
    | @descend _ _ _ _ _ _ _ edge' data' stored' found' fresh' rest' =>
      have sameDst := same.dst_eq stored stored'
      rw [sameDst] at found' rest'
      -- the block is listed in the end, so its edges are the same
      obtain ⟨data₀, found₀, succs, sameEnds⟩ :=
        ways edge.dst (rest.mem.2 _ (List.mem_cons_self ..)) data found
      rw [found'] at found₀
      cases found₀
      rw [succs] at rest'
      have inside : edge.dst.index < seen.size := by
        rw [size]
        exact (Array.getElem?_eq_some_iff.1 found).1
      have inside' : edge.dst.index < seen'.size := by
        rw [size']
        exact (Array.getElem?_eq_some_iff.1 found').1
      refine ih (by simpa using size) (by simpa using size') (fun c => ?_) ?_ ways rest'
      · rw [seen_set_iff inside, seen_set_iff inside', seenIff]
      · exact List.forall_mem_cons.2 ⟨sameEnds, List.forall_mem_cons.2 ⟨later, others⟩⟩

/-- Between two graphs without marks, a postorder stays what it is as long as the edges of its blocks
stay. -/
theorem reached_of_sameWays (matched' : g'.Matched) (clear : g.Clear) (clear' : g'.Clear)
    (ran : g.reached = .ok order) (ways : SameWays order g g') : g'.reached = .ok order := by
  obtain ⟨data, found, visits⟩ := visits_of_reached ran
  obtain ⟨data', found', succs, ends⟩ :=
    ways .entry (visits.mem.2 _ (List.mem_cons_self ..)) data found
  have entered : (g.block? .entry).isSome := Option.isSome_of_eq_some found
  have entered' : (g'.block? .entry).isSome := Option.isSome_of_eq_some found'
  have result : Yields (fun _ => False) g'.reached _ := reached_yields matched' entered'
  obtain ⟨order', ran', -⟩ := result.exists_ok
  obtain ⟨data₀, found₀, visits'⟩ := visits_of_reached ran'
  rw [found'] at found₀
  cases found₀
  rw [succs] at visits'
  -- nothing is marked, so only entry is seen when either search begins
  have seenIff (c : BlockId) : Seen g'.startMarks c ↔ Seen g.startMarks c := by
    have unmarked {h : Graph} (clear : h.Clear) :
        ¬∃ data, h.block? c = some data ∧ data.marked = true := by
      rintro ⟨data, found, marked⟩
      rw [clear c data found] at marked
      cases marked
    rw [seen_startMarks_iff entered, seen_startMarks_iff entered', or_iff_left (unmarked clear),
      or_iff_left (unmarked clear')]
  have same := visits.unique g.size_startMarks g'.size_startMarks seenIff (by simpa using ends) ways
    visits'
  rw [ran', same]

/-- A search does not look at the order that is kept. -/
theorem reached_reorder (matched : g.Matched) (clear : g.Clear) (ran : g.reached = .ok order)
    (kept : Option (List BlockId)) : ({ g with order := kept } : Graph).reached = .ok order := by
  have same : SameWays order g { g with order := kept } := .of_same (.refl _ g) rfl
  have clear' : ({ g with order := kept } : Graph).Clear := clear
  exact reached_of_sameWays (matched.congr (.refl _ g) fun _ => rfl) clear clear' ran same

end

end FlowGraph.Graph
