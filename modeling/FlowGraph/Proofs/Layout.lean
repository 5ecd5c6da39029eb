import FlowGraph.Graph.Layout
import Mathlib.Data.List.Chain
import Mathlib.Data.List.Nodup
import Mathlib.Data.List.Perm.Subperm
import Mathlib.Data.List.TakeWhile

/-! # The layout as a list

The links of a graph are laid out as a list of blocks if following `next` from entry meets exactly
these blocks, exit last, and every `prev` leads back. All that the operations do to the layout can
then be said of lists: a walk meets a suffix of the list, unlinking a block erases it, and linking a
run in inserts it. -/

namespace FlowGraph.Graph

/-! ## Blocks that differ in some respects only -/

/-- What `φ` reads of a block is the same in both graphs, for every block. -/
def SameBlocks {α : Type} (φ : Block → α) (g g' : Graph) : Prop :=
  ∀ c, (g'.block? c).map φ = (g.block? c).map φ

namespace SameBlocks

variable {α : Type} {φ : Block → α} {g g' g'' : Graph}

theorem refl (φ : Block → α) (g : Graph) : SameBlocks φ g g := fun _ => rfl

theorem symm (same : SameBlocks φ g g') : SameBlocks φ g' g := fun c => (same c).symm

theorem trans (first : SameBlocks φ g g') (second : SameBlocks φ g' g'') : SameBlocks φ g g'' :=
  fun c => (second c).trans (first c)

theorem weaken {β : Type} (χ : α → β) (same : SameBlocks φ g g') : SameBlocks (χ ∘ φ) g g' := by
  intro c
  rw [← Option.map_map, same c, Option.map_map]

theorem exists_block (same : SameBlocks φ g g') {c : BlockId} {data : Block}
    (found : g.block? c = some data) : ∃ data', g'.block? c = some data' ∧ φ data' = φ data := by
  have here := same c
  rw [found, Option.map_some, Option.map_eq_some_iff] at here
  exact here

theorem agree (same : SameBlocks φ g g') {c : BlockId} {data data' : Block}
    (found : g.block? c = some data) (found' : g'.block? c = some data') : φ data' = φ data := by
  have here := same c
  rwa [found, found', Option.map_some, Option.map_some, Option.some.injEq] at here

theorem of_map {f : BlockId → Block → Block}
    (block : ∀ c, g'.block? c = (g.block? c).map (f c)) (unseen : ∀ c data, φ (f c data) = φ data) :
    SameBlocks φ g g' := by
  intro c
  rw [block, Option.map_map]
  congr 1
  funext data
  exact unseen c data

theorem isSome_eq (same : SameBlocks φ g g') (c : BlockId) :
    (g'.block? c).isSome = (g.block? c).isSome := by
  simpa using congrArg Option.isSome (same c)

end SameBlocks

/-! ## Links -/

def next? (g : Graph) (b : BlockId) : Option BlockId := (g.block? b).bind (·.next)

def prev? (g : Graph) (b : BlockId) : Option BlockId := (g.block? b).bind (·.prev)

/-- `c` stands behind `b`, and both say so. -/
def Linked (g : Graph) (b c : BlockId) : Prop := g.next? b = some c ∧ g.prev? c = some b

/-- The links thread exactly the blocks of `xs`, from entry to exit. -/
structure LaidOut (g : Graph) (xs : List BlockId) : Prop where
  nodup : xs.Nodup
  first : xs.head? = some .entry
  last : xs.getLast? = some .exit
  links : xs.IsChain g.Linked
  stops : g.next? .exit = none
  closed : (g.block? .exit).isSome

theorem exists_of_next? {g : Graph} {b c : BlockId} (link : g.next? b = some c) :
    ∃ data, g.block? b = some data ∧ data.next = some c :=
  Option.bind_eq_some_iff.1 link

theorem exists_of_prev? {g : Graph} {b c : BlockId} (link : g.prev? b = some c) :
    ∃ data, g.block? b = some data ∧ data.prev = some c :=
  Option.bind_eq_some_iff.1 link

theorem next?_eq {g : Graph} {b : BlockId} {data : Block} (found : g.block? b = some data) :
    g.next? b = data.next := by
  simp [next?, found]

theorem prev?_eq {g : Graph} {b : BlockId} {data : Block} (found : g.block? b = some data) :
    g.prev? b = data.prev := by
  simp [prev?, found]

theorem next?_congr {g g' : Graph} (same : SameBlocks Block.next g g') (b : BlockId) :
    g'.next? b = g.next? b := by
  have read := congrArg (Option.bind · id) (same b)
  simpa [next?, Option.bind_map, Function.comp_def] using read

theorem prev?_congr {g g' : Graph} (same : SameBlocks Block.prev g g') (b : BlockId) :
    g'.prev? b = g.prev? b := by
  have read := congrArg (Option.bind · id) (same b)
  simpa [prev?, Option.bind_map, Function.comp_def] using read

/-- A run keeps its inner links if the changed ones lead into it or out of it. -/
theorem isChain_relink {g g' : Graph} {ys : List BlockId} (chain : ys.IsChain g.Linked)
    (distinct : ys.Nodup) (next : ∀ c ∈ ys, ys.getLast? ≠ some c → g'.next? c = g.next? c)
    (prev : ∀ c ∈ ys, ys.head? ≠ some c → g'.prev? c = g.prev? c) : ys.IsChain g'.Linked := by
  induction ys with
  | nil => exact .nil
  | cons b ys ih =>
    cases ys with
    | nil => exact .singleton b
    | cons c ys =>
      rw [List.isChain_cons_cons] at chain
      obtain ⟨fresh, distinct⟩ := List.nodup_cons.1 distinct
      have notLast : (b :: c :: ys).getLast? ≠ some b := by
        rw [List.getLast?_cons_cons]
        exact fun last => fresh (List.mem_of_getLast? last)
      have notFirst {d : BlockId} (member : d ∈ c :: ys) : (b :: c :: ys).head? ≠ some d := by
        intro first
        cases first
        exact fresh member
      have link : g'.Linked b c :=
        ⟨by rw [next b (by simp) notLast, chain.1.1],
          by rw [prev c (by simp) (notFirst (by simp)), chain.1.2]⟩
      refine .cons_cons link (ih chain.2 distinct (fun d member inner => ?_) fun d member _ => ?_)
      · exact next d (List.mem_cons_of_mem b member) (by rwa [List.getLast?_cons_cons])
      · exact prev d (List.mem_cons_of_mem b member) (notFirst member)

/-- Different blocks of the arena have different positions in it. -/
theorem length_le_blockCount {g : Graph} {bs : List BlockId} (distinct : bs.Nodup)
    (inside : ∀ b ∈ bs, (g.block? b).isSome) : bs.length ≤ g.blockCount := by
  have apart : (bs.map BlockId.index).Nodup :=
    distinct.map fun b c same => by cases b; cases c; exact congrArg _ same
  have bounded : bs.map BlockId.index ⊆ List.range g.blockCount := by
    intro i member
    obtain ⟨b, isIn, rfl⟩ := List.mem_map.1 member
    obtain ⟨data, found⟩ := Option.isSome_iff_exists.1 (inside b isIn)
    exact List.mem_range.2 (Array.getElem?_eq_some_iff.1 found).1
  simpa using (List.subperm_of_subset apart bounded).length_le

namespace LaidOut

variable {g : Graph} {xs : List BlockId}

/-! ## Members -/

theorem entry_mem (laid : g.LaidOut xs) : .entry ∈ xs := List.mem_of_mem_head? laid.first

theorem exit_mem (laid : g.LaidOut xs) : .exit ∈ xs := List.mem_of_getLast? laid.last

theorem exists_behind (laid : g.LaidOut xs) {b : BlockId} (member : b ∈ xs) (inner : b ≠ .exit) :
    ∃ l c r, xs = l ++ b :: c :: r := by
  obtain ⟨l, t, rfl⟩ := List.append_of_mem member
  -- with nothing behind it, `b` would be the last block, which is exit
  cases t with
  | nil =>
    have last := laid.last
    simp at last
    exact absurd last inner
  | cons c r => exact ⟨l, c, r, rfl⟩

theorem exists_around (laid : g.LaidOut xs) {b : BlockId} (member : b ∈ xs) (notEntry : b ≠ .entry)
    (notExit : b ≠ .exit) : ∃ l p n r, xs = l ++ p :: b :: n :: r := by
  obtain ⟨s, n, r, rfl⟩ := laid.exists_behind member notExit
  -- with nothing in front of it, `b` would be the first block, which is entry
  cases s using List.reverseRecOn with
  | nil =>
    have first := laid.first
    simp at first
    exact absurd first notEntry
  | append_singleton l p => exact ⟨l, p, n, r, by simp⟩

theorem linked (laid : g.LaidOut xs) {l r : List BlockId} {b c : BlockId}
    (split : xs = l ++ b :: c :: r) : g.Linked b c :=
  List.isChain_iff_forall_rel_of_append_cons_cons.1 laid.links split

theorem exists_block (laid : g.LaidOut xs) {b : BlockId} (member : b ∈ xs) :
    ∃ data, g.block? b = some data := by
  by_cases atExit : b = .exit
  · subst b
    exact Option.isSome_iff_exists.1 laid.closed
  · obtain ⟨l, c, r, split⟩ := laid.exists_behind member atExit
    obtain ⟨data, found, _⟩ := exists_of_next? (laid.linked split).1
    exact ⟨data, found⟩

theorem length_le (laid : g.LaidOut xs) : xs.length ≤ g.blockCount :=
  length_le_blockCount laid.nodup fun _ member =>
    Option.isSome_iff_exists.2 (laid.exists_block member)

/-! ## Neighbours -/

theorem ne_exit (laid : g.LaidOut xs) {b c : BlockId} (link : g.next? b = some c) : b ≠ .exit := by
  rintro rfl
  simp [laid.stops] at link

theorem exists_split (laid : g.LaidOut xs) {b c : BlockId} (member : b ∈ xs)
    (link : g.next? b = some c) : ∃ l r, xs = l ++ b :: c :: r := by
  obtain ⟨l, c', r, split⟩ := laid.exists_behind member (laid.ne_exit link)
  have same : c' = c := by simpa [(laid.linked split).1] using link
  exact ⟨l, r, same ▸ split⟩

theorem next?_mem (laid : g.LaidOut xs) {b c : BlockId} (member : b ∈ xs)
    (link : g.next? b = some c) : c ∈ xs ∧ g.prev? c = some b := by
  obtain ⟨l, r, split⟩ := laid.exists_split member link
  exact ⟨by simp [split], (laid.linked split).2⟩

theorem next?_ne_entry (laid : g.LaidOut xs) {b c : BlockId} (member : b ∈ xs)
    (link : g.next? b = some c) : c ≠ .entry := by
  obtain ⟨l, r, rfl⟩ := laid.exists_split member link
  -- entry is in front of the others, and `c` is behind `b`
  have first := laid.first
  have distinct := laid.nodup
  cases l with
  | nil =>
    cases first
    simp only [List.nil_append, List.nodup_cons, List.mem_cons, not_or] at distinct
    exact Ne.symm distinct.1.1
  | cons a l =>
    cases first
    simp only [List.cons_append, List.nodup_cons, List.mem_append, List.mem_cons, not_or] at distinct
    exact Ne.symm distinct.1.2.2.1

theorem exists_next? (laid : g.LaidOut xs) {b : BlockId} (member : b ∈ xs) (inner : b ≠ .exit) :
    ∃ c, g.next? b = some c := by
  obtain ⟨l, c, r, split⟩ := laid.exists_behind member inner
  exact ⟨c, (laid.linked split).1⟩

theorem next?_inj (laid : g.LaidOut xs) {b b' c : BlockId} (member : b ∈ xs) (member' : b' ∈ xs)
    (link : g.next? b = some c) (link' : g.next? b' = some c) : b = b' := by
  have back := (laid.next?_mem member link).2
  have back' := (laid.next?_mem member' link').2
  simpa [back] using back'

/-! ## Walks -/

/-- A walk meets the blocks of the layout in their order, up to the first one that stops it. -/
theorem walk_eq (laid : g.LaidOut xs) (stop : BlockId → Bool) (t : List BlockId) :
    ∀ (l : List BlockId) (b : BlockId) (n : Nat) (met : List BlockId), xs = l ++ b :: t →
      t.length < n →
      g.walk stop n (some b) met = ⟨met.reverse ++ (b :: t).takeWhile (!stop ·), none⟩ := by
  -- along the rest of the layout, which is always shorter than the steps left
  induction t with
  | nil =>
    intro l b n met split enough
    obtain ⟨n, rfl⟩ := Nat.exists_eq_add_one_of_ne_zero (Nat.ne_zero_of_lt enough)
    have atExit : b = .exit := by simpa [split] using laid.last
    subst b
    obtain ⟨data, found⟩ := Option.isSome_iff_exists.1 laid.closed
    have stops : data.next = none := by rw [← next?_eq found, laid.stops]
    cases stopped : stop .exit <;> simp [walk, stopped, found, stops]
  | cons c t ih =>
    intro l b n met split enough
    obtain ⟨n, rfl⟩ := Nat.exists_eq_add_one_of_ne_zero (Nat.ne_zero_of_lt enough)
    obtain ⟨data, found, link⟩ := exists_of_next? (laid.linked split).1
    cases stopped : stop b with
    | true => simp [walk, stopped]
    | false =>
      have rest := ih (l ++ [b]) c n (b :: met) (by simp [split]) (by simpa using enough)
      simp [walk, stopped, found, link, rest]

theorem eq_entry_cons (laid : g.LaidOut xs) : ∃ t, xs = .entry :: t ∧ t.length < g.blockCount := by
  have first := laid.first
  have bound := laid.length_le
  cases xs with
  | nil => simp at first
  | cons b t => exact ⟨t, by simpa using first, bound⟩

theorem walk_entry (laid : g.LaidOut xs) (stop : BlockId → Bool) :
    g.walk stop (g.blockCount + 1) (some .entry) [] = ⟨xs.takeWhile (!stop ·), none⟩ := by
  obtain ⟨t, rfl, enough⟩ := laid.eq_entry_cons
  simpa using laid.walk_eq stop t [] .entry (g.blockCount + 1) [] rfl (Nat.lt_succ_of_lt enough)

theorem layout_eq (laid : g.LaidOut xs) : g.layout = .ok xs := by
  rw [layout, trail, laid.walk_entry, Trail.finish]
  exact congrArg _ (List.takeWhile_eq_self_iff.2 (by simp))

theorem eq_dropLast_append (laid : g.LaidOut xs) : xs = xs.dropLast ++ [.exit] :=
  (List.dropLast_append_getLast? _ laid.last).symm

theorem mem_dropLast (laid : g.LaidOut xs) {b : BlockId} :
    b ∈ xs.dropLast ↔ b ∈ xs ∧ b ≠ .exit := by
  have distinct := laid.nodup
  rw [laid.eq_dropLast_append, List.nodup_append] at distinct
  constructor
  · intro member
    exact ⟨List.dropLast_subset _ member, distinct.2.2 b member .exit (by simp)⟩
  · intro ⟨member, inner⟩
    rw [laid.eq_dropLast_append] at member
    simpa [inner] using member

/-- To split what stands in front of exit is to split the layout before exit. -/
theorem dropLast_eq_append_cons (laid : g.LaidOut xs) {l : List BlockId} {b : BlockId} :
    (∃ r, xs.dropLast = l ++ b :: r) ↔ b ≠ .exit ∧ ∃ r, xs = l ++ b :: r := by
  constructor
  · rintro ⟨r, split⟩
    have inBody : b ∈ xs.dropLast := by simp [split]
    refine ⟨(laid.mem_dropLast.1 inBody).2, r ++ [.exit], ?_⟩
    rw [laid.eq_dropLast_append, split]
    simp
  · rintro ⟨inner, r, split⟩
    have occupied : r ≠ [] := by
      rintro rfl
      exact inner (by simpa [split] using laid.last)
    refine ⟨r.dropLast, ?_⟩
    rw [split, List.dropLast_append_of_ne_nil (by simp), List.dropLast_cons_of_ne_nil occupied]

theorem body_eq (laid : g.LaidOut xs) : g.body = ⟨xs.dropLast, none⟩ := by
  rw [body, laid.walk_entry]
  congr 1
  conv_lhs => rw [laid.eq_dropLast_append]
  -- exit comes last, so nothing in front of it stops the walk
  rw [List.takeWhile_append_of_pos]
  · simp
  · intro b member
    simpa using (laid.mem_dropLast.1 member).2

/-! ## Changes -/

theorem of_links (laid : g.LaidOut xs) {g' : Graph} (next : ∀ b, g'.next? b = g.next? b)
    (prev : ∀ b, g'.prev? b = g.prev? b) (closed : (g'.block? .exit).isSome) : g'.LaidOut xs := by
  refine ⟨laid.nodup, laid.first, laid.last, ?links, ?stops, closed⟩
  case links =>
    exact laid.links.imp fun b c link => ⟨by rw [next, link.1], by rw [prev, link.2]⟩
  case stops =>
    rw [next, laid.stops]

theorem congr (laid : g.LaidOut xs) {g' : Graph}
    (same : SameBlocks (fun d => (d.prev, d.next)) g g') : g'.LaidOut xs :=
  laid.of_links (next?_congr (same.weaken Prod.snd)) (prev?_congr (same.weaken Prod.fst))
    ((same.isSome_eq .exit).trans laid.closed)

/-- Other blocks may come between two neighbours or blocks between them go, if the links outside stay
as they are. -/
theorem relay {l r mid ms : List BlockId} {p n : BlockId}
    (laid : g.LaidOut (l ++ p :: (mid ++ n :: r))) (distinct : (l ++ p :: (ms ++ n :: r)).Nodup)
    {g' : Graph} (links : (p :: (ms ++ [n])).IsChain g'.Linked)
    (next : ∀ c ∈ l ++ n :: r, g'.next? c = g.next? c)
    (prev : ∀ c ∈ l ++ p :: r, g'.prev? c = g.prev? c)
    (closed : (g'.block? .exit).isSome) : g'.LaidOut (l ++ p :: (ms ++ n :: r)) := by
  obtain ⟨before, rest⟩ := List.isChain_split.1 laid.links
  rw [← List.cons_append] at rest
  have behind := (List.isChain_split.1 rest).2
  have distinctFront : (l ++ [p]).Nodup :=
    distinct.sublist (.append_left (List.singleton_sublist.2 (List.mem_cons_self ..)) l)
  have distinctBack : (n :: r).Nodup := by
    have split : l ++ p :: (ms ++ n :: r) = (l ++ p :: ms) ++ n :: r := by simp
    rw [split] at distinct
    exact distinct.of_append_right
  refine ⟨distinct, ?first, ?last, ?links, ?stops, closed⟩
  case first =>
    have first := laid.first
    cases l <;> simpa using first
  case last =>
    have last := laid.last
    simpa [List.getLast?_append, List.getLast?_cons] using last
  case links =>
    have front : (l ++ [p]).IsChain g'.Linked := by
      refine isChain_relink before distinctFront (fun c member inner => next c ?_)
        fun c member _ => prev c ?_
      · have notP : c ≠ p := by
          rintro rfl
          simp at inner
        simp only [List.mem_append, List.mem_singleton, notP, or_false] at member
        exact List.mem_append_left _ member
      · rw [List.mem_append, List.mem_singleton] at member
        rw [List.mem_append, List.mem_cons]
        exact member.imp_right .inl
    have back : (n :: r).IsChain g'.Linked := by
      refine isChain_relink behind distinctBack
        (fun c member _ => next c (List.mem_append_right l member)) fun c member inner => prev c ?_
      have notN : c ≠ n := by
        rintro rfl
        simp at inner
      exact List.mem_append_right l (List.mem_cons_of_mem p (List.mem_of_ne_of_mem notN member))
    refine List.isChain_split.2 ⟨front, ?_⟩
    rw [← List.cons_append] at links ⊢
    exact List.isChain_split.2 ⟨links, back⟩
  case stops =>
    -- exit comes last
    have split : l ++ p :: (mid ++ n :: r) = (l ++ p :: mid) ++ n :: r := by simp
    have last := laid.last
    rw [split, List.getLast?_append_of_ne_nil _ (by simp)] at last
    have exitBack : BlockId.exit ∈ n :: r := List.mem_of_getLast? last
    rw [next _ (List.mem_append_right l exitBack), laid.stops]

/-- Linking the neighbours of a run with each other takes its blocks out. -/
theorem bypass {l r ms : List BlockId} {p n : BlockId} (laid : g.LaidOut (l ++ p :: (ms ++ n :: r)))
    {g' : Graph} (next : ∀ c, c ∉ ms → g'.next? c = if c = p then some n else g.next? c)
    (prev : ∀ c, c ∉ ms → g'.prev? c = if c = n then some p else g.prev? c)
    (closed : (g'.block? .exit).isSome) : g'.LaidOut (l ++ p :: n :: r) := by
  have distinct := laid.nodup
  have apart : p ∉ ms ∧ n ∉ ms ∧ (∀ c ∈ l ++ n :: r, c ∉ ms ∧ c ≠ p) ∧
      ∀ c ∈ l ++ p :: r, c ∉ ms ∧ c ≠ n := by
    simp only [List.nodup_append, List.nodup_cons, List.mem_append, List.mem_cons, not_or] at distinct
    grind
  obtain ⟨notP, notN, apartNext, apartPrev⟩ := apart
  have link : g'.Linked p n := ⟨by rw [next p notP, if_pos rfl], by rw [prev n notN, if_pos rfl]⟩
  have without : (l ++ p :: ([] ++ n :: r)).Nodup := by
    refine distinct.sublist (.append_left (.cons_cons p ?_) l)
    exact List.sublist_append_right ms (n :: r)
  refine laid.relay without (.cons_cons link (.singleton n)) (fun c member => ?_)
    (fun c member => ?_) closed
  · rw [next c (apartNext c member).1, if_neg (apartNext c member).2]
  · rw [prev c (apartPrev c member).1, if_neg (apartPrev c member).2]

/-- Linking a run in between two neighbours puts its blocks there. -/
theorem splice {l r ms : List BlockId} {p n first last : BlockId}
    (laid : g.LaidOut (l ++ p :: n :: r)) (run : ms.IsChain g.Linked)
    (head : ms.head? = some first) (tail : ms.getLast? = some last)
    (distinct : (l ++ p :: (ms ++ n :: r)).Nodup) {g' : Graph}
    (next : ∀ c, g'.next? c = if c = p then some first else if c = last then some n else g.next? c)
    (prev : ∀ c, g'.prev? c = if c = n then some last else if c = first then some p else g.prev? c)
    (closed : (g'.block? .exit).isSome) : g'.LaidOut (l ++ p :: (ms ++ n :: r)) := by
  have firstIn : first ∈ ms := List.mem_of_mem_head? head
  have lastIn : last ∈ ms := List.mem_of_getLast? tail
  have apart : ms.Nodup ∧ (∀ c ∈ ms, c ≠ p ∧ c ≠ n) ∧ (∀ c ∈ l ++ n :: r, c ≠ p ∧ c ∉ ms) ∧
      ∀ c ∈ l ++ p :: r, c ≠ n ∧ c ∉ ms := by
    simp only [List.nodup_append, List.nodup_cons, List.mem_append, List.mem_cons, not_or] at distinct
    grind
  obtain ⟨distinctRun, apartRun, apartNext, apartPrev⟩ := apart
  have inner : ms.IsChain g'.Linked := by
    refine isChain_relink run distinctRun (fun c member inner => ?_) fun c member inner => ?_
    · rw [next, if_neg (apartRun c member).1, if_neg (by rintro rfl; exact inner tail)]
    · rw [prev, if_neg (apartRun c member).2, if_neg (by rintro rfl; exact inner head)]
  have links : (p :: (ms ++ [n])).IsChain g'.Linked := by
    refine List.isChain_cons.2 ⟨fun c start => ?_, List.isChain_append.2
      ⟨inner, .singleton n, fun c stop d start => ?_⟩⟩
    · rw [List.head?_append, head] at start
      cases start
      exact ⟨by rw [next, if_pos rfl],
        by rw [prev, if_neg (apartRun first firstIn).2, if_pos rfl]⟩
    · rw [tail] at stop
      cases stop
      cases start
      exact ⟨by rw [next, if_neg (apartRun last lastIn).1, if_pos rfl], by rw [prev, if_pos rfl]⟩
  have before : g.LaidOut (l ++ p :: ([] ++ n :: r)) := laid
  refine before.relay distinct links (fun c member => ?_) (fun c member => ?_) closed
  · obtain ⟨notP, outside⟩ := apartNext c member
    rw [next, if_neg notP, if_neg (ne_of_mem_of_not_mem lastIn outside).symm]
  · obtain ⟨notN, outside⟩ := apartPrev c member
    rw [prev, if_neg notN, if_neg (ne_of_mem_of_not_mem firstIn outside).symm]

end LaidOut

end FlowGraph.Graph
