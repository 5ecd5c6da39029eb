import FlowGraph.Graph.Consistency
import FlowGraph.Proofs.Coherence

/-! # What the consistency check accepts

The check finds nothing exactly if the links thread a list of unmarked blocks from entry to exit of
the recorded length, every array lists edges of its own block, and every edge is listed once at
either end, both of which are live. A walk that goes round is found out by its length, because links
that lead to an end never meet a block twice. So the check returns wherever links lead, as long as
they and the edges lead to blocks of the arena. -/

namespace FlowGraph

/-! ## Blocks and edges with their handles -/

theorem EdgePool.mem_entries {p : EdgePool} {e : EdgeId} {edge : Edge} :
    (e, edge) ∈ p.entries ↔ p.get? e = some edge := by
  obtain ⟨i⟩ := e
  simp only [EdgePool.entries, List.mem_filterMap, Prod.exists, List.mem_zipIdx_iff_getElem?,
    Array.getElem?_toList, EdgePool.get?]
  constructor
  · rintro ⟨slot, j, stored, same⟩
    cases slot with
    | none => cases same
    | some edge' =>
      cases same
      simp [stored]
  · intro stored
    cases found : p.slots[i]? with
    | none => simp [found] at stored
    | some slot => exact ⟨slot, i, found, by simp_all⟩

namespace Graph

theorem mem_members {g : Graph} {b : BlockId} {data : Block} :
    (b, data) ∈ g.members ↔ g.block? b = some data := by
  obtain ⟨i⟩ := b
  simp only [members, block?, List.mem_map, Prod.exists, List.mem_zipIdx_iff_getElem?,
    Array.getElem?_toList, Prod.mk.injEq, BlockId.mk.injEq]
  constructor
  · rintro ⟨data', j, found, rfl, rfl⟩
    exact found
  · intro found
    exact ⟨data, i, found, rfl, rfl⟩

instance (g : Graph) (p : BlockId → Block → Prop) [∀ b data, Decidable (p b data)] :
    Decidable (∀ b data, g.block? b = some data → p b data) :=
  decidable_of_iff (∀ m ∈ g.members, p m.1 m.2) (by simp only [Prod.forall, mem_members])

/-! ## The survey of the layout -/

theorem chain_unique {g : Graph} (t : List BlockId) :
    ∀ (t' : List BlockId) (b z z' : BlockId), (b :: t).IsChain g.Linked →
      (b :: t').IsChain g.Linked → (b :: t).getLast? = some z → g.next? z = none →
      (b :: t').getLast? = some z' → g.next? z' = none → t = t' := by
  -- where one list ends, the link that the other follows is missing
  induction t with
  | nil =>
    intro t' b z z' _ chain' last stops _ _
    cases t' with
    | nil => rfl
    | cons c t' =>
      have atEnd : b = z := by simpa using last
      have link := (List.isChain_cons_cons.1 chain').1.1
      simp [atEnd, stops] at link
  | cons c t ih =>
    intro t' b z z' chain chain' last stops last' stops'
    rw [List.isChain_cons_cons] at chain
    cases t' with
    | nil =>
      have atEnd : b = z' := by simpa using last'
      have link := chain.1.1
      simp [atEnd, stops'] at link
    | cons c' t' =>
      rw [List.isChain_cons_cons] at chain'
      have same : c = c' := by simpa [chain.1.1] using chain'.1.1
      subst c'
      rw [ih t' c z z' chain.2 chain'.2 (by simpa [List.getLast?_cons_cons] using last) stops
        (by simpa [List.getLast?_cons_cons] using last') stops']

theorem nodup_of_chain {g : Graph} (xs : List BlockId) (chain : xs.IsChain g.Linked)
    {z : BlockId} (last : xs.getLast? = some z) (stops : g.next? z = none) : xs.Nodup := by
  induction xs with
  | nil => exact List.nodup_nil
  | cons b t ih =>
    refine List.nodup_cons.2 ⟨fun member => ?_, ?_⟩
    · -- a block met twice would have two ways to the end, one of them longer
      obtain ⟨l, t', rfl⟩ := List.append_of_mem member
      have again : (b :: t').IsChain g.Linked := by
        have whole : (b :: (l ++ b :: t')) = (b :: l) ++ b :: t' := rfl
        rw [whole] at chain
        exact chain.right_of_append
      have last' : (b :: t').getLast? = some z := by
        have whole : (b :: (l ++ b :: t')) = (b :: l) ++ b :: t' := rfl
        rw [whole, List.getLast?_append_of_ne_nil _ (by simp)] at last
        exact last
      have same := congrArg List.length (chain_unique _ _ b z z chain again last stops last' stops)
      simp at same
      omega
    · cases t with
      | nil => exact List.nodup_nil
      | cons c t =>
        exact ih (List.isChain_cons_cons.1 chain).2 (by simpa [List.getLast?_cons_cons] using last)

/-- A survey that breaks off nowhere ends at exit, or goes on behind a block that points back. -/
theorem survey_inv {g : Graph} {n : Nat} {b : BlockId} {met ys : List BlockId}
    (result : g.survey n b met = .ok (ys, none)) :
    (b = .exit ∧ g.next? b = none ∧ (g.block? b).isSome ∧ ys = (b :: met).reverse) ∨
      ∃ m c, n = m + 1 ∧ g.Linked b c ∧ g.survey m c (b :: met) = .ok (ys, none) := by
  rw [survey, bind_eq_ok] at result
  obtain ⟨data, found, result⟩ := result
  rw [block_eq_ok] at found
  split at result
  · rename_i next
    simp only [pure, Except.pure, Except.ok.injEq, Prod.mk.injEq, ite_eq_left_iff, reduceCtorEq,
      imp_false, not_not] at result
    exact .inl ⟨result.2, by rw [next?_eq found, next], by simp [found], result.1.symm⟩
  · rename_i c next
    rw [bind_eq_ok] at result
    obtain ⟨behind, foundBehind, result⟩ := result
    rw [block_eq_ok] at foundBehind
    split at result
    · rename_i back
      cases n with
      | zero => simp [pure, Except.pure] at result
      | succ m =>
        have link : g.Linked b c :=
          ⟨by rw [next?_eq found, next], by rw [prev?_eq foundBehind, back]⟩
        exact .inr ⟨m, c, rfl, link, result⟩
    · simp [pure, Except.pure] at result

theorem exists_of_survey {g : Graph} (n : Nat) :
    ∀ (b : BlockId) (met ys : List BlockId), g.survey n b met = .ok (ys, none) →
      ∃ t, ys = met.reverse ++ b :: t ∧ (b :: t).IsChain g.Linked ∧
        (b :: t).getLast? = some .exit ∧ g.next? .exit = none ∧ (g.block? .exit).isSome := by
  -- on the steps left; each of them but the last follows a link
  induction n with
  | zero =>
    intro b met ys result
    obtain ⟨rfl, stops, closed, rfl⟩ | ⟨m, c, impossible, -⟩ := survey_inv result
    · exact ⟨[], by simp, .singleton _, rfl, stops, closed⟩
    · omega
  | succ n ih =>
    intro b met ys result
    obtain ⟨rfl, stops, closed, rfl⟩ | ⟨m, c, same, link, rest⟩ := survey_inv result
    · exact ⟨[], by simp, .singleton _, rfl, stops, closed⟩
    · obtain rfl : n = m := by omega
      obtain ⟨t, rfl, chain, last, stops, closed⟩ := ih c (b :: met) ys rest
      refine ⟨c :: t, by simp, .cons_cons link chain, ?_, stops, closed⟩
      simpa [List.getLast?_cons_cons] using last

theorem LaidOut.survey_eq {g : Graph} {xs : List BlockId} (laid : g.LaidOut xs) (t : List BlockId) :
    ∀ (l : List BlockId) (b : BlockId) (n : Nat) (met : List BlockId), xs = l ++ b :: t →
      t.length ≤ n → g.survey n b met = .ok (met.reverse ++ b :: t, none) := by
  induction t with
  | nil =>
    intro l b n met split _
    have atExit : b = .exit := by simpa [split] using laid.last
    subst b
    obtain ⟨data, found⟩ := Option.isSome_iff_exists.1 laid.closed
    have stops : data.next = none := by rw [← next?_eq found, laid.stops]
    rw [survey, block_bind found, stops]
    simp [pure, Except.pure]
  | cons c t ih =>
    intro l b n met split enough
    have link := laid.linked split
    obtain ⟨data, found, next⟩ := exists_of_next? link.1
    obtain ⟨behind, foundBehind, back⟩ := exists_of_prev? link.2
    obtain ⟨m, rfl⟩ := Nat.exists_eq_add_one_of_ne_zero (n := n) (by simp at enough; omega)
    rw [survey, block_bind found, next]
    simp only
    rw [block_bind foundBehind, if_pos back]
    simpa using ih (l ++ [b]) c m (b :: met) (by simp [split]) (by simpa using enough)

/-! ## What the whole check accepts -/

/-- The facts that the check compares, all of which agree. -/
structure Verified (g : Graph) (xs : List BlockId) : Prop where
  laid : g.LaidOut xs
  count : g.liveCount = xs.length
  unmarked {b : BlockId} {data : Block} : b ∈ xs → g.block? b = some data → data.marked = false
  succs {b : BlockId} {data : Block} {e : EdgeId} : g.block? b = some data → e ∈ data.succs →
    ∃ edge, g.edges.get? e = some edge ∧ edge.src = b
  preds {b : BlockId} {data : Block} {e : EdgeId} : g.block? b = some data → e ∈ data.preds →
    ∃ edge, g.edges.get? e = some edge ∧ edge.dst = b
  source {e : EdgeId} {edge : Edge} : g.edges.get? e = some edge → ∃ data,
    g.block? edge.src = some data ∧ data.succs.count e = 1 ∧ data.status = .live
  target {e : EdgeId} {edge : Edge} : g.edges.get? e = some edge → ∃ data,
    g.block? edge.dst = some data ∧ data.preds.count e = 1 ∧ data.status = .live
  entry {data : Block} : g.block? .entry = some data → data.preds = []
  exit {data : Block} : g.block? .exit = some data → data.succs = []

theorem layoutViolations_eq_nil_iff {g : Graph} : g.layoutViolations = .ok [] ↔
    ∃ xs, g.LaidOut xs ∧ g.liveCount = xs.length ∧
      ∀ b ∈ xs, ∀ data, g.block? b = some data → data.marked = false := by
  have nothing (met : List BlockId) (broken : Option BlockId) :
      (pure ((met.filter fun b => (g.block? b).any (·.marked)).map Violation.staleMark ++
        (broken.map Violation.brokenLink).toList ++
        if met.length = g.liveCount then [] else [.liveCount g.liveCount met.length]) :
          Except Fault (List Violation)) = .ok [] ↔
      (∀ b ∈ met, ∀ data, g.block? b = some data → data.marked = false) ∧ broken = none ∧
        g.liveCount = met.length := by
    simp only [pure, Except.pure, Except.ok.injEq, List.append_eq_nil_iff, List.map_eq_nil_iff,
      List.filter_eq_nil_iff, Option.toList_eq_nil_iff, Option.map_eq_none_iff, ite_eq_left_iff,
      imp_false, not_not, Option.any_eq_true, not_exists, not_and, Bool.not_eq_true,
      and_assoc, eq_comm (a := met.length), List.cons_ne_nil]
  unfold layoutViolations
  constructor
  · intro passed
    rw [bind_eq_ok] at passed
    obtain ⟨⟨met, broken⟩, surveyed, passed⟩ := passed
    obtain ⟨unmarked, rfl, counted⟩ := (nothing met broken).1 passed
    obtain ⟨t, rfl, chain, last, stops, closed⟩ := exists_of_survey _ _ _ _ surveyed
    exact ⟨_, ⟨nodup_of_chain _ chain last stops, rfl, last, chain, stops, closed⟩, counted, unmarked⟩
  · intro ⟨xs, laid, counted, unmarked⟩
    obtain ⟨t, rfl, enough⟩ := laid.eq_entry_cons
    rw [laid.survey_eq t [] .entry g.blockCount [] rfl enough.le, ok_bind]
    exact (nothing _ _).2 ⟨unmarked, rfl, counted⟩

theorem arrayViolations_eq_nil_iff {g : Graph} {b : BlockId} {data : Block} :
    g.arrayViolations b data = [] ↔
      (∀ e ∈ data.succs, ∃ edge, g.edges.get? e = some edge ∧ edge.src = b) ∧
      ∀ e ∈ data.preds, ∃ edge, g.edges.get? e = some edge ∧ edge.dst = b := by
  have succ (e : EdgeId) : g.succViolation b e = none ↔
      ∃ edge, g.edges.get? e = some edge ∧ edge.src = b := by
    unfold succViolation
    cases g.edges.get? e <;> simp
  have pred (e : EdgeId) : g.predViolation b e = none ↔
      ∃ edge, g.edges.get? e = some edge ∧ edge.dst = b := by
    unfold predViolation
    cases g.edges.get? e <;> simp
  simp only [arrayViolations, List.append_eq_nil_iff, List.filterMap_eq_nil_iff, succ, pred]

theorem edgeViolations_eq_nil_iff {g : Graph} {e : EdgeId} {edge : Edge} :
    g.edgeViolations e edge = .ok [] ↔
      (∃ data, g.block? edge.src = some data ∧ data.succs.count e = 1 ∧ data.status = .live) ∧
      ∃ data, g.block? edge.dst = some data ∧ data.preds.count e = 1 ∧ data.status = .live := by
  have live (b : BlockId) (data : Block) : endViolation e b data = [] ↔ data.status = .live := by
    simp [endViolation, Block.isLive]
  simp only [edgeViolations, bind_eq_ok, block_eq_ok, pure, Except.pure, Except.ok.injEq,
    List.append_eq_nil_iff, ite_eq_left_iff, List.cons_ne_nil, imp_false, not_not, live]
  constructor
  · intro ⟨src, foundSrc, dst, foundDst, ⟨⟨once, once'⟩, liveSrc⟩, liveDst⟩
    exact ⟨⟨src, foundSrc, once, liveSrc⟩, dst, foundDst, once', liveDst⟩
  · intro ⟨⟨src, foundSrc, once, liveSrc⟩, dst, foundDst, once', liveDst⟩
    exact ⟨src, foundSrc, dst, foundDst, ⟨⟨once, once'⟩, liveSrc⟩, liveDst⟩

theorem mapM_flatten_eq_nil_iff {α β : Type} {f : α → Except Fault (List β)} {xs : List α} :
    (∃ yss, xs.mapM f = .ok yss ∧ yss.flatten = []) ↔ ∀ x ∈ xs, f x = .ok [] := by
  induction xs with
  | nil => simp [pure, Except.pure]
  | cons x xs ih =>
    simp only [List.mapM_cons, bind_eq_ok, pure, Except.pure, Except.ok.injEq, List.mem_cons,
      forall_eq_or_imp, ← ih]
    constructor
    · rintro ⟨_, ⟨ys, first, yss, rest, rfl⟩, empty⟩
      simp only [List.flatten_cons, List.append_eq_nil_iff] at empty
      exact ⟨by rw [first, empty.1], yss, rest, empty.2⟩
    · intro ⟨first, yss, rest, empty⟩
      exact ⟨_, ⟨[], first, yss, rest, rfl⟩, by simpa using empty⟩

theorem violations_eq_nil_iff {g : Graph} : g.violations = .ok [] ↔ ∃ xs, g.Verified xs := by
  -- the check runs over all blocks and all edges, wherever they come in its lists
  have arrays : g.members.flatMap (fun m => g.arrayViolations m.1 m.2) = [] ↔
      ∀ b data, g.block? b = some data → g.arrayViolations b data = [] := by
    simp only [List.flatMap_eq_nil_iff, Prod.forall, mem_members]
  have edges : (∃ yss, g.edges.entries.mapM (fun p => g.edgeViolations p.1 p.2) = .ok yss ∧
      yss.flatten = []) ↔ ∀ e edge, g.edges.get? e = some edge → g.edgeViolations e edge = .ok [] := by
    rw [mapM_flatten_eq_nil_iff]
    simp only [Prod.forall, EdgePool.mem_entries]
  simp only [violations, bind_eq_ok, block_eq_ok, pure, Except.pure, Except.ok.injEq,
    List.append_eq_nil_iff, ite_eq_left_iff, List.cons_ne_nil, imp_false, not_not]
  constructor
  · rintro ⟨_, layout, yss, pool, entry, foundEntry, exit, foundExit, ⟨⟨⟨rfl, listed⟩, empty⟩, noPreds⟩,
      noSuccs⟩
    obtain ⟨xs, laid, counted, unmarked⟩ := layoutViolations_eq_nil_iff.1 layout
    have listed := arrays.1 listed
    have ends := fun e edge stored =>
      edgeViolations_eq_nil_iff.1 (edges.1 ⟨yss, pool, empty⟩ e edge stored)
    refine ⟨xs, laid, counted, fun member => unmarked _ member _,
      ?succs, ?preds, ?source, ?target, ?entry, ?exit⟩
    case succs =>
      exact fun found => (arrayViolations_eq_nil_iff.1 (listed _ _ found)).1 _
    case preds =>
      exact fun found => (arrayViolations_eq_nil_iff.1 (listed _ _ found)).2 _
    case source =>
      exact fun stored => (ends _ _ stored).1
    case target =>
      exact fun stored => (ends _ _ stored).2
    case entry =>
      intro data found
      rw [foundEntry] at found
      cases found
      exact noPreds
    case exit =>
      intro data found
      rw [foundExit] at found
      cases found
      exact noSuccs
  · intro ⟨xs, checked⟩
    obtain ⟨yss, pool, empty⟩ := edges.2 fun e edge stored =>
      edgeViolations_eq_nil_iff.2 ⟨checked.source stored, checked.target stored⟩
    obtain ⟨entry, foundEntry⟩ := checked.laid.exists_block checked.laid.entry_mem
    obtain ⟨exit, foundExit⟩ := checked.laid.exists_block checked.laid.exit_mem
    refine ⟨[], ?_, yss, pool, entry, foundEntry, exit, foundExit, ⟨⟨⟨rfl, ?_⟩, empty⟩, ?_⟩, ?_⟩
    · exact layoutViolations_eq_nil_iff.2
        ⟨xs, checked.laid, checked.count, fun b member data => checked.unmarked member⟩
    · exact arrays.2 fun b data found => arrayViolations_eq_nil_iff.2
        ⟨fun e => checked.succs found, fun e => checked.preds found⟩
    · exact checked.entry foundEntry
    · exact checked.exit foundExit

/-! ## What the check needs to return -/

/-- Every handle that the check may follow names a block of the arena. -/
structure InRange (g : Graph) : Prop where
  entry : (g.block? .entry).isSome
  exit : (g.block? .exit).isSome
  next : ∀ b data, g.block? b = some data → ∀ c, data.next = some c → (g.block? c).isSome
  source : ∀ e edge, g.edges.get? e = some edge → (g.block? edge.src).isSome
  target : ∀ e edge, g.edges.get? e = some edge → (g.block? edge.dst).isSome

section

variable {g : Graph} {allowed : Fault → Prop}

/-- A survey returns however the links lead, in a circle or to an end: no block behind the one it
has come to is looked at once the steps are used up. -/
theorem survey_yields (inRange : g.InRange) (n : Nat) : ∀ (b : BlockId) (met : List BlockId),
    (g.block? b).isSome → Yields allowed (g.survey n b met) fun _ => True := by
  induction n with
  | zero =>
    intro b met inside
    obtain ⟨data, found⟩ := Option.isSome_iff_exists.1 inside
    rw [survey, block_bind found]
    cases next : data.next with
    | none => exact yields_pure trivial
    | some c =>
      obtain ⟨behind, foundBehind⟩ := Option.isSome_iff_exists.1 (inRange.next b data found c next)
      simp only [block_bind foundBehind]
      split <;> exact yields_pure trivial
  | succ n ih =>
    intro b met inside
    obtain ⟨data, found⟩ := Option.isSome_iff_exists.1 inside
    rw [survey, block_bind found]
    cases next : data.next with
    | none => exact yields_pure trivial
    | some c =>
      have insideC := inRange.next b data found c next
      obtain ⟨behind, foundBehind⟩ := Option.isSome_iff_exists.1 insideC
      simp only [block_bind foundBehind]
      split
      · exact ih c (b :: met) insideC
      · exact yields_pure trivial

theorem edgeViolations_yields (inRange : g.InRange) {e : EdgeId} {edge : Edge}
    (stored : g.edges.get? e = some edge) :
    Yields allowed (g.edgeViolations e edge) fun _ => True := by
  obtain ⟨src, foundSrc⟩ := Option.isSome_iff_exists.1 (inRange.source e edge stored)
  obtain ⟨dst, foundDst⟩ := Option.isSome_iff_exists.1 (inRange.target e edge stored)
  rw [edgeViolations, block_bind foundSrc, block_bind foundDst]
  exact yields_pure trivial

theorem violations_yields (inRange : g.InRange) : Yields allowed g.violations fun _ => True := by
  obtain ⟨entry, foundEntry⟩ := Option.isSome_iff_exists.1 inRange.entry
  obtain ⟨exit, foundExit⟩ := Option.isSome_iff_exists.1 inRange.exit
  have layout : Yields allowed g.layoutViolations fun _ => True :=
    (survey_yields inRange g.blockCount .entry [] inRange.entry).bind fun _ _ => yields_pure trivial
  have each : ∀ m ∈ g.edges.entries, Yields allowed (g.edgeViolations m.1 m.2) fun _ => True :=
    fun m member => edgeViolations_yields inRange (EdgePool.mem_entries.1 member)
  refine layout.bind fun _ _ => (Yields.mapM each).bind fun _ _ => ?_
  rw [block_bind foundEntry, block_bind foundExit]
  exact yields_pure trivial

end

/-- The check is exact on every representation whose handles are in range, however it contradicts
itself: it returns, also if the links lead in a circle, and it finds nothing exactly if all the
facts that it compares agree. -/
theorem violations_exact (g : Graph) (inRange : g.InRange) :
    ∃ vs, g.violations = .ok vs ∧ (vs = [] ↔ ∃ xs, g.Verified xs) := by
  have total : Yields (fun _ => False) g.violations fun _ => True := violations_yields inRange
  obtain ⟨vs, returned, -⟩ := total.exists_ok
  refine ⟨vs, returned, ?_⟩
  rw [← violations_eq_nil_iff, returned, Except.ok.injEq]

instance (g : Graph) : Decidable g.InRange :=
  decidable_of_iff
    ((g.block? .entry).isSome ∧ (g.block? .exit).isSome ∧
      (∀ b data, g.block? b = some data → data.next.all fun c => (g.block? c).isSome) ∧
      ∀ m ∈ g.edges.entries, (g.block? m.2.src).isSome ∧ (g.block? m.2.dst).isSome) (by
    simp only [Option.all_eq_true, Prod.forall, EdgePool.mem_entries]
    constructor
    · intro ⟨entry, exit, next, ends⟩
      exact ⟨entry, exit, next, fun e edge stored => (ends e edge stored).1,
        fun e edge stored => (ends e edge stored).2⟩
    · intro ⟨entry, exit, next, source, target⟩
      exact ⟨entry, exit, next, fun e edge stored =>
        ⟨source e edge stored, target e edge stored⟩⟩)

/-- A graph whose links go round between the two blocks that should be its ends, and whose edge is
listed twice at one of them and not at all at the other. -/
def circle : Graph :=
  { blocks := #[
      { Block.fresh with status := .live, prev := some .exit, next := some .exit
                         succs := [⟨0⟩, ⟨0⟩] },
      { Block.fresh with status := .live, prev := some .entry, next := some .entry }]
    liveCount := 2, retired := #[], edges := EdgePool.empty.insert ⟨.entry, .exit, .ret⟩
    labels := .empty, order := none, catcher := none }

theorem violations_exact_circle : circle.InRange ∧
    ∃ vs, circle.violations = .ok vs ∧ (vs = [] ↔ ∃ xs, circle.Verified xs) :=
  have inRange : circle.InRange := by decide
  ⟨inRange, violations_exact circle inRange⟩

example : circle.violations = .ok [.brokenLink .entry, .liveCount 2 3, .asymmetric ⟨0⟩ 2 0] := by
  decide +kernel

/-! ## Coherence -/

theorem nodup_of_count {α : Type} [DecidableEq α] {xs : List α} {p : α → Prop}
    (listed : ∀ x ∈ xs, p x) (once : ∀ x, p x → xs.count x = 1) :
    xs.Nodup ∧ ∀ x, x ∈ xs ↔ p x := by
  refine ⟨List.nodup_iff_count_le_one.2 fun x => ?_, fun x => ⟨listed x, fun holds => ?_⟩⟩
  · by_cases member : x ∈ xs
    · exact (once x (listed x member)).le
    · rw [List.count_eq_zero_of_not_mem member]
      exact Nat.zero_le 1
  · apply List.count_pos_iff.1
    rw [once x holds]
    exact Nat.one_pos

theorem Verified.coherent {g : Graph} {xs : List BlockId} (checked : g.Verified xs)
    (sources : ∀ e edge, g.edges.get? e = some edge → edge.src ∈ xs) : g.Coherent xs := by
  refine ⟨checked.laid, checked.count, ?succs, ?preds, ?source, ?target⟩
  case succs =>
    intro b data found
    apply nodup_of_count (fun e => checked.succs found)
    rintro e ⟨edge, stored, rfl⟩
    obtain ⟨data', found', once, -⟩ := checked.source stored
    rw [found] at found'
    cases found'
    exact once
  case preds =>
    intro b data found
    apply nodup_of_count (fun e => checked.preds found)
    rintro e ⟨edge, stored, rfl⟩
    obtain ⟨data', found', once, -⟩ := checked.target stored
    rw [found] at found'
    cases found'
    exact once
  case source =>
    intro e edge stored
    obtain ⟨data, found, once, live⟩ := checked.source stored
    -- no edge is listed at exit, so none can start there
    refine ⟨sources e edge stored, ?_, data, found, live⟩
    intro atExit
    rw [atExit] at found
    simp [checked.exit found] at once
  case target =>
    intro e edge stored
    obtain ⟨data, found, once, live⟩ := checked.target stored
    refine ⟨?_, data, found, live⟩
    intro atEntry
    rw [atEntry] at found
    simp [checked.entry found] at once

theorem Coherent.verified {g : Graph} {xs : List BlockId} (coherent : g.Coherent xs)
    (unmarked : ∀ b ∈ xs, ∀ data, g.block? b = some data → data.marked = false) :
    g.Verified xs := by
  refine ⟨coherent.laid, coherent.count, fun member => unmarked _ member _,
    ?succs, ?preds, ?source, ?target, ?entry, ?exit⟩
  case succs =>
    exact fun found member => coherent.edge_of_mem_succs found member
  case preds =>
    exact fun found member => coherent.edge_of_mem_preds found member
  case source =>
    intro e edge stored
    obtain ⟨-, -, data, found, live⟩ := coherent.source stored
    have once := List.count_eq_one_of_mem (coherent.succs found).1 (coherent.mem_succs stored found)
    exact ⟨data, found, once, live⟩
  case target =>
    intro e edge stored
    obtain ⟨-, data, found, live⟩ := coherent.target stored
    have once := List.count_eq_one_of_mem (coherent.preds found).1 (coherent.mem_preds stored found)
    exact ⟨data, found, once, live⟩
  case entry =>
    intro data found
    apply List.eq_nil_iff_forall_not_mem.2
    intro e member
    obtain ⟨edge, stored, here⟩ := coherent.edge_of_mem_preds found member
    exact (coherent.target stored).1 here
  case exit =>
    intro data found
    apply List.eq_nil_iff_forall_not_mem.2
    intro e member
    exact (coherent.of_mem_succs found member).2.1 rfl

end Graph

end FlowGraph
