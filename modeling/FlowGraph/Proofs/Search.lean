import FlowGraph.Graph.Postorder
import FlowGraph.Proofs.Consistency
import Mathlib.Algebra.Order.BigOperators.Group.List
import Mathlib.Algebra.Order.Group.Nat
import Mathlib.Algebra.Ring.Nat

/-! # What a search lists

A search lists entry and, with each block, every destination of its edges that carried no mark when
the search began. The invariant speaks of the stack: whatever is seen was marked at the start, is
finished or has a frame, and the edges already taken from a frame lead to blocks that are seen.

The search ends because a step either takes an edge from a frame or finishes one, and a new frame is
paid for by the block that has just been seen for the first time. -/

namespace FlowGraph

theorem sum_map_add_le {α : Type} {l : List α} {f f' : α → Nat} {x : α} {k : Nat} (member : x ∈ l)
    (all : ∀ y ∈ l, f' y ≤ f y) (here : f' x + k ≤ f x) : (l.map f').sum + k ≤ (l.map f).sum := by
  obtain ⟨s, t, rfl⟩ := List.append_of_mem member
  have front : (s.map f').sum ≤ (s.map f).sum :=
    List.sum_le_sum fun y inside => all y (by simp [inside])
  have back : (t.map f').sum ≤ (t.map f).sum :=
    List.sum_le_sum fun y inside => all y (by simp [inside])
  simp only [List.map_append, List.map_cons, List.sum_append, List.sum_cons]
  omega

namespace Graph

def Seen (seen : Array Bool) (b : BlockId) : Prop := seen[b.index]? = some true

instance (seen : Array Bool) (b : BlockId) : Decidable (Seen seen b) :=
  inferInstanceAs (Decidable (_ = _))

theorem seen_set_iff {seen : Array Bool} {b c : BlockId} (inside : b.index < seen.size) :
    Seen (seen.setIfInBounds b.index true) c ↔ c = b ∨ Seen seen c := by
  obtain ⟨i⟩ := b
  obtain ⟨j⟩ := c
  simp only [Seen, Array.getElem?_setIfInBounds, BlockId.mk.injEq]
  by_cases same : i = j
  · subst j
    simp at inside
    simp [inside]
  · simp [same, eq_comm]

/-- Wherever the edge `e` leads, it leads to a block that is known. -/
def LeadsToSeen (g : Graph) (seen : Array Bool) (e : EdgeId) : Prop :=
  ∀ edge, g.edges.get? e = some edge → Seen seen edge.dst

/-! ## Steps -/

section

variable {g : Graph} {n : Nat} {b : BlockId} {e : EdgeId} {es : List EdgeId}
  {stack : List (BlockId × List EdgeId)} {seen : Array Bool} {done : List BlockId} {edge : Edge}
  {data : Block}

theorem search_of_dangling (freed : g.edges.get? e = none) :
    g.search (n + 1) ((b, e :: es) :: stack) seen done = .error (.danglingEdge e) := by
  rw [search, edge, freed]
  rfl

theorem search_of_outside (stored : g.edges.get? e = some edge) (outside : g.block? edge.dst = none) :
    g.search (n + 1) ((b, e :: es) :: stack) seen done = .error (.outOfRange edge.dst) := by
  have missing : g.block edge.dst = .error (.outOfRange edge.dst) := by
    rw [block, outside]
  rw [search, edge_bind stored]
  simp only [missing]
  rfl

theorem search_of_seen (stored : g.edges.get? e = some edge) (found : g.block? edge.dst = some data)
    (known : Seen seen edge.dst) : g.search (n + 1) ((b, e :: es) :: stack) seen done =
      g.search n ((b, es) :: stack) seen done := by
  rw [search, edge_bind stored, block_bind found]
  exact if_pos known

theorem search_of_fresh (stored : g.edges.get? e = some edge) (found : g.block? edge.dst = some data)
    (fresh : ¬Seen seen edge.dst) : g.search (n + 1) ((b, e :: es) :: stack) seen done =
      g.search n ((edge.dst, data.succs) :: (b, es) :: stack)
        (seen.setIfInBounds edge.dst.index true) done := by
  rw [search, edge_bind stored, block_bind found]
  exact if_neg fresh

end

/-! ## Cost -/

/-- Steps that a search may have to spend on a block when it sees it for the first time. -/
def openCost (seen : Array Bool) (member : BlockId × Block) : Nat :=
  if Seen seen member.1 then 0 else member.2.succs.length + 1

/-- Steps that the blocks not yet seen can call for. -/
def pending (g : Graph) (seen : Array Bool) : Nat := (g.members.map (openCost seen)).sum

theorem pending_add_le {g : Graph} {seen : Array Bool} {b : BlockId} {data : Block}
    (found : g.block? b = some data) (isSeen : Seen seen b) :
    g.pending seen + (data.succs.length + 1) ≤ g.searchBound := by
  have bound : g.searchBound = (g.members.map fun member => member.2.succs.length + 1).sum := by
    have blocks : g.members.map Prod.snd = g.blocks.toList := by
      simp [members, Function.comp_def]
    have count : g.blockCount = g.members.length := by
      simp [members, blockCount]
    rw [searchBound, ← blocks, count, List.length_flatMap, List.map_map, List.sum_map_add]
    simp only [List.map_const', List.sum_replicate, Nat.nsmul_eq_mul, Nat.mul_one]
    exact Nat.add_comm ..
  -- all blocks together call for no more than the search may take
  rw [bound]
  refine sum_map_add_le (mem_members.2 found) (fun member _ => ?_) ?_
  · unfold openCost
    split <;> omega
  · simp [openCost, isSeen]

theorem pending_set {g : Graph} {seen : Array Bool} {b : BlockId} {data : Block}
    (found : g.block? b = some data) (inside : b.index < seen.size) (fresh : ¬Seen seen b) :
    g.pending (seen.setIfInBounds b.index true) + (data.succs.length + 1) ≤ g.pending seen := by
  refine sum_map_add_le (mem_members.2 found) (fun member _ => ?_) ?_
  · unfold openCost
    simp only [seen_set_iff inside]
    split <;> split <;> simp_all
  · simp [openCost, seen_set_iff inside, fresh]

/-! ## The invariant -/

structure Searching (g : Graph) (start : Array Bool) (n : Nat)
    (stack : List (BlockId × List EdgeId)) (seen : Array Bool) (done : List BlockId) : Prop where
  size : seen.size = g.blockCount
  cost : g.pending seen + (stack.map (·.2.length + 1)).sum ≤ n
  frames : ∀ b es, (b, es) ∈ stack → ∃ data taken, g.block? b = some data ∧
    data.succs = taken ++ es ∧ ∀ e ∈ taken, g.LeadsToSeen seen e
  finished : ∀ b ∈ done, ∃ data, g.block? b = some data ∧ ∀ e ∈ data.succs, g.LeadsToSeen seen e
  origin : ∀ c, Seen seen c → Seen start c ∨ c ∈ done ∨ ∃ es, (c, es) ∈ stack
  entry : .entry ∈ done ∨ ∃ es, (.entry, es) ∈ stack

namespace Searching

variable {g : Graph} {start seen : Array Bool} {n : Nat} {b : BlockId} {e : EdgeId}
  {es : List EdgeId} {stack : List (BlockId × List EdgeId)} {done : List BlockId}

theorem finish (searching : Searching g start (n + 1) ((b, []) :: stack) seen done) :
    Searching g start n stack seen (b :: done) := by
  obtain ⟨size, cost, frames, finished, origin, entry⟩ := searching
  refine ⟨size, ?cost, ?frames, ?finished, ?origin, ?entry⟩
  case cost =>
    -- the step is paid for by the frame that goes
    simp only [List.map_cons, List.length_nil, List.sum_cons] at cost
    omega
  case frames =>
    intro c es member
    exact frames c es (List.mem_cons_of_mem _ member)
  case finished =>
    intro c member
    cases member with
    | head =>
      obtain ⟨data, taken, found, split, seenAll⟩ := frames b [] (List.mem_cons_self ..)
      rw [List.append_nil] at split
      exact ⟨data, found, split ▸ seenAll⟩
    | tail _ member => exact finished c member
  case origin =>
    intro c isSeen
    have known := origin c isSeen
    simp only [List.mem_cons, Prod.mk.injEq] at known ⊢
    grind
  case entry =>
    simp only [List.mem_cons, Prod.mk.injEq] at entry ⊢
    grind

theorem skip (searching : Searching g start (n + 1) ((b, e :: es) :: stack) seen done)
    (known : g.LeadsToSeen seen e) : Searching g start n ((b, es) :: stack) seen done := by
  obtain ⟨size, cost, frames, finished, origin, entry⟩ := searching
  refine ⟨size, ?cost, ?frames, finished, ?origin, ?entry⟩
  case cost =>
    -- the step is paid for by the edge that is passed by
    simp only [List.map_cons, List.length_cons, List.sum_cons] at cost ⊢
    omega
  case frames =>
    intro c fs member
    cases member with
    | head =>
      obtain ⟨data, taken, found, split, seenAll⟩ := frames b (e :: es) (List.mem_cons_self ..)
      refine ⟨data, taken ++ [e], found, by simp [split], fun e' member => ?_⟩
      simp only [List.mem_append, List.mem_singleton] at member
      obtain member | rfl := member
      · exact seenAll e' member
      · exact known
    | tail _ member => exact frames c fs (List.mem_cons_of_mem _ member)
  case origin =>
    intro c isSeen
    have before := origin c isSeen
    simp only [List.mem_cons, Prod.mk.injEq] at before ⊢
    grind
  case entry =>
    simp only [List.mem_cons, Prod.mk.injEq] at entry ⊢
    grind

theorem descend (searching : Searching g start (n + 1) ((b, e :: es) :: stack) seen done)
    {edge : Edge} (stored : g.edges.get? e = some edge) {data : Block}
    (found : g.block? edge.dst = some data) (fresh : ¬Seen seen edge.dst) :
    Searching g start n ((edge.dst, data.succs) :: (b, es) :: stack)
      (seen.setIfInBounds edge.dst.index true) done := by
  obtain ⟨size, cost, frames, finished, origin, entry⟩ := searching
  have inside : edge.dst.index < seen.size := by
    rw [size]
    exact (Array.getElem?_eq_some_iff.1 found).1
  have more {c : BlockId} (isSeen : Seen seen c) :
      Seen (seen.setIfInBounds edge.dst.index true) c := (seen_set_iff inside).2 (.inr isSeen)
  have leads {e' : EdgeId} (known : g.LeadsToSeen seen e') :
      g.LeadsToSeen (seen.setIfInBounds edge.dst.index true) e' :=
    fun edge' stored' => more (known edge' stored')
  refine ⟨by simpa using size, ?cost, ?frames, ?finished, ?origin, ?entry⟩
  case cost =>
    -- the new frame costs what its block has cost so far
    have paid := pending_set found inside fresh
    simp only [List.map_cons, List.length_cons, List.sum_cons] at cost ⊢
    omega
  case frames =>
    intro c fs member
    simp only [List.mem_cons, Prod.mk.injEq] at member
    obtain ⟨rfl, rfl⟩ | ⟨rfl, rfl⟩ | member := member
    · exact ⟨data, [], found, rfl, by simp⟩
    · obtain ⟨data', taken, found', split, seenAll⟩ := frames c (e :: fs) (List.mem_cons_self ..)
      refine ⟨data', taken ++ [e], found', by simp [split], fun e' member => ?_⟩
      simp only [List.mem_append, List.mem_singleton] at member
      obtain member | rfl := member
      · exact leads (seenAll e' member)
      · intro edge' stored'
        rw [stored] at stored'
        cases stored'
        exact (seen_set_iff inside).2 (.inl rfl)
    · obtain ⟨data', taken, found', split, seenAll⟩ := frames c fs (List.mem_cons_of_mem _ member)
      exact ⟨data', taken, found', split, fun e' member => leads (seenAll e' member)⟩
  case finished =>
    intro c member
    obtain ⟨data', found', seenAll⟩ := finished c member
    exact ⟨data', found', fun e' member => leads (seenAll e' member)⟩
  case origin =>
    intro c isSeen
    obtain rfl | isSeen := (seen_set_iff inside).1 isSeen
    · exact .inr (.inr ⟨_, List.mem_cons_self ..⟩)
    · have before := origin c isSeen
      simp only [List.mem_cons, Prod.mk.injEq] at before ⊢
      grind
  case entry =>
    simp only [List.mem_cons, Prod.mk.injEq] at entry ⊢
    grind

theorem result (searching : Searching g start n [] seen done) :
    .entry ∈ done.reverse ∧ ∀ b ∈ done.reverse, ∃ data, g.block? b = some data ∧
      ∀ e ∈ data.succs, ∀ edge, g.edges.get? e = some edge →
        edge.dst ∈ done.reverse ∨ Seen start edge.dst := by
  refine ⟨by simpa using searching.entry, fun b member => ?_⟩
  obtain ⟨data, found, known⟩ := searching.finished b (List.mem_reverse.1 member)
  refine ⟨data, found, fun e inArray edge stored => ?_⟩
  have origin := searching.origin _ (known e inArray edge stored)
  simp only [List.not_mem_nil, exists_false, or_false] at origin
  exact origin.symm.imp_left List.mem_reverse.2

end Searching

/-! ## The result -/

/-- The list holds entry and is closed under edges, but for blocks marked at the start. -/
structure Explored (g : Graph) (order : List BlockId) : Prop where
  entry : .entry ∈ order
  inside : ∀ b ∈ order, (g.block? b).isSome
  closed : ∀ e edge, g.edges.get? e = some edge → edge.src ∈ order → edge.dst ∈ order ∨
    ∃ data, g.block? edge.dst = some data ∧ data.marked = true

theorem search_yields {allowed : Fault → Prop} {g : Graph} {start : Array Bool}
    (each : ∀ b data, g.block? b = some data → ∀ e ∈ data.succs,
      Yields allowed (g.edge e) fun edge => Yields allowed (g.block edge.dst) fun _ => True) (n : Nat) :
    ∀ (stack : List (BlockId × List EdgeId)) (seen : Array Bool) (done : List BlockId),
      Searching g start n stack seen done → Yields allowed (g.search n stack seen done) fun order =>
        .entry ∈ order ∧ ∀ b ∈ order, ∃ data, g.block? b = some data ∧
          ∀ e ∈ data.succs, ∀ edge, g.edges.get? e = some edge →
            edge.dst ∈ order ∨ Seen start edge.dst := by
  -- the invariant leaves a step for every frame and every edge in it, so none is missing
  induction n with
  | zero =>
    intro stack seen done searching
    cases stack with
    | nil => exact yields_ok searching.result
    | cons frame stack =>
      have cost := searching.cost
      simp at cost
  | succ n ih =>
    intro stack seen done searching
    match stack with
    | [] => exact yields_ok searching.result
    | (b, []) :: stack => exact ih stack seen (b :: done) searching.finish
    | (b, e :: es) :: stack =>
      obtain ⟨data, taken, found, split, -⟩ := searching.frames b (e :: es) (List.mem_cons_self ..)
      have leads := each b data found e (by simp [split])
      rw [search]
      refine (leads.and_of_eq_ok fun edge read => edge_eq_ok.1 read).bind fun edge step => ?_
      obtain ⟨inside, stored⟩ := step
      refine (inside.and_of_eq_ok fun target read => block_eq_ok.1 read).bind fun target step => ?_
      split
      · rename_i known
        refine ih _ seen done (searching.skip fun edge' stored' => ?_)
        rw [stored] at stored'
        cases stored'
        exact known
      · exact ih _ _ done (searching.descend stored step.2 ‹_›)

/-- More steps than a search needs make no difference. -/
theorem search_more {g : Graph} {n : Nat} :
    ∀ (stack : List (BlockId × List EdgeId)) (seen : Array Bool) (done : List BlockId) (k : Nat),
      g.search n stack seen done ≠ .error .endless →
        g.search (n + k) stack seen done = g.search n stack seen done := by
  induction n with
  | zero =>
    intro stack seen done k ends
    cases stack with
    | nil => rw [search, search]
    | cons frame stack => exact absurd rfl ends
  | succ n ih =>
    intro stack seen done k ends
    rw [Nat.add_right_comm]
    match stack with
    | [] => rw [search, search]
    | (b, []) :: stack => exact ih stack seen (b :: done) k ends
    | (b, e :: es) :: stack =>
      cases stored : g.edges.get? e with
      | none => rw [search_of_dangling stored, search_of_dangling stored]
      | some edge =>
        cases found : g.block? edge.dst with
        | none => rw [search_of_outside stored found, search_of_outside stored found]
        | some data =>
          by_cases known : Seen seen edge.dst
          · rw [search_of_seen stored found known] at ends ⊢
            rw [search_of_seen stored found known, ih _ _ _ k ends]
          · rw [search_of_fresh stored found known] at ends ⊢
            rw [search_of_fresh stored found known, ih _ _ _ k ends]

/-- What counts as seen when a search from entry begins. -/
def startMarks (g : Graph) : Array Bool :=
  (g.blocks.map (·.marked)).setIfInBounds BlockId.entry.index true

theorem size_startMarks (g : Graph) : g.startMarks.size = g.blockCount := by
  simp [startMarks, blockCount]

theorem seen_startMarks_iff {g : Graph} (entered : (g.block? .entry).isSome) {c : BlockId} :
    Seen g.startMarks c ↔ c = .entry ∨ ∃ data, g.block? c = some data ∧ data.marked = true := by
  obtain ⟨data, found⟩ := Option.isSome_iff_exists.1 entered
  have inside : BlockId.entry.index < (g.blocks.map (·.marked)).size := by
    rw [Array.size_map]
    exact (Array.getElem?_eq_some_iff.1 found).1
  rw [startMarks, seen_set_iff inside, Seen, Array.getElem?_map, Option.map_eq_some_iff]
  rfl

theorem reached_eq {g : Graph} {data : Block} (found : g.block? .entry = some data) :
    g.reached = g.search g.searchBound [(.entry, data.succs)] g.startMarks [] := by
  rw [reached, block_bind found]
  rfl

theorem searching_startMarks {g : Graph} {data : Block} (found : g.block? .entry = some data) :
    Searching g g.startMarks g.searchBound [(.entry, data.succs)] g.startMarks [] := by
  have entered : (g.block? .entry).isSome := Option.isSome_of_eq_some found
  refine ⟨g.size_startMarks, ?_, ?_, by simp, fun c => .inl, .inr ⟨data.succs, by simp⟩⟩
  · simpa using pending_add_le found ((seen_startMarks_iff entered).2 (.inl rfl))
  · intro b es member
    simp only [List.mem_singleton, Prod.mk.injEq] at member
    obtain ⟨rfl, rfl⟩ := member
    exact ⟨data, [], found, rfl, by simp⟩

/-- A search always ends. -/
theorem search_ne_endless {g : Graph} {data : Block} (found : g.block? .entry = some data) :
    g.search g.searchBound [(.entry, data.succs)] g.startMarks [] ≠ .error .endless := by
  have lookup (b : BlockId) : Yields (· ≠ .endless) (g.block b) fun _ => True := by
    unfold block
    split
    · exact trivial
    · exact Fault.noConfusion
  have each (b : BlockId) (data : Block) (_ : g.block? b = some data) (e : EdgeId)
      (_ : e ∈ data.succs) : Yields (· ≠ .endless) (g.edge e)
        fun edge => Yields (· ≠ .endless) (g.block edge.dst) fun _ => True := by
    unfold edge
    split
    · exact lookup _
    · exact Fault.noConfusion
  intro failed
  exact (search_yields each _ _ _ [] (searching_startMarks found)).of_eq_error failed rfl

theorem reached_yields {allowed : Fault → Prop} {g : Graph} (matched : g.Matched)
    (entered : (g.block? .entry).isSome) : Yields allowed g.reached g.Explored := by
  obtain ⟨data, found⟩ := Option.isSome_iff_exists.1 entered
  have each (b : BlockId) (data : Block) (found : g.block? b = some data) (e : EdgeId)
      (listed : e ∈ data.succs) : Yields allowed (g.edge e)
        fun edge => Yields allowed (g.block edge.dst) fun _ => True := by
    obtain ⟨edge, stored, -⟩ := ((matched.succs.array found).2 e).1 listed
    obtain ⟨target, foundTarget⟩ := Option.isSome_iff_exists.1 (matched.preds.inside stored)
    exact yields_of_eq_ok (edge_eq_ok.2 stored) (yields_of_eq_ok (block_eq_ok.2 foundTarget) trivial)
  rw [reached_eq found]
  apply (search_yields each _ _ _ [] (searching_startMarks found)).mono
  intro order result
  obtain ⟨entry, closed⟩ := result
  refine ⟨entry, fun b member => ?_, fun e edge stored member => ?_⟩
  · obtain ⟨data, found, -⟩ := closed b member
    simp [found]
  · obtain ⟨data, found, closed⟩ := closed edge.src member
    have known := closed e (((matched.succs.array found).2 e).2 ⟨edge, stored, rfl⟩) edge stored
    rw [seen_startMarks_iff entered] at known
    obtain inOrder | atEntry | marked := known
    · exact .inl inOrder
    · exact .inl (atEntry ▸ entry)
    · exact .inr marked

end Graph

end FlowGraph
