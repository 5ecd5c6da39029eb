import FlowGraph.Proofs.Growth
import FlowGraph.Proofs.Operation

/-! # The layout as a sequence

What a client sees of the layout is a sequence of blocks from entry to exit. It meets them one by one
forwards and backwards, the live blocks are those of the sequence, and the count of live blocks is
its length. Each operation that moves blocks does to the sequence what one would expect, for runs of
any length and wherever they stand, and no matter what code, labels and edges the graph has. -/

namespace FlowGraph.Graph

/-! ## Sequences of blocks -/

/-- A client that looks at the layout finds the blocks of `xs`. -/
structure Arranged (g : Graph) (xs : List BlockId) : Prop where
  laid : g.LaidOut xs
  starts : g.prev? .entry = none
  enrolled : ∀ b data, g.block? b = some data → (data.status = .live ↔ b ∈ xs)
  count : g.liveCount = xs.length

/-- Asked for the block next to `o`, and then for the one next to each, `step` gives the blocks of
the list and no more. -/
def Enumerates (step : Option BlockId → Except Fault (Option BlockId)) :
    Option BlockId → List BlockId → Prop
  | o, [] => step o = .ok none
  | o, b :: bs => step o = .ok (some b) ∧ Enumerates step (some b) bs

section

variable {g g' : Graph} {xs : List BlockId}

theorem after_eq {b : BlockId} (inside : (g.block? b).isSome) :
    g.after (some b) = .ok (g.next? b) := by
  obtain ⟨data, found⟩ := Option.isSome_iff_exists.1 inside
  rw [after, block_eq_ok.2 found, next?_eq found]
  rfl

theorem before_eq {b : BlockId} (inside : (g.block? b).isSome) :
    g.before (some b) = .ok (g.prev? b) := by
  obtain ⟨data, found⟩ := Option.isSome_iff_exists.1 inside
  rw [before, block_eq_ok.2 found, prev?_eq found]
  rfl

namespace Arranged

theorem isSome_block? (arranged : g.Arranged xs) {b : BlockId} (member : b ∈ xs) :
    (g.block? b).isSome :=
  Option.isSome_iff_exists.2 (arranged.laid.exists_block member)

theorem live_of_mem (arranged : g.Arranged xs) {b : BlockId} {data : Block}
    (found : g.block? b = some data) (member : b ∈ xs) : data.status = .live :=
  (arranged.enrolled b data found).2 member

/-! ## Looking at the blocks one by one -/

theorem enumerates_after (arranged : g.Arranged xs) : Enumerates g.after none xs := by
  have onward (t : List BlockId) : ∀ l b, xs = l ++ b :: t → Enumerates g.after (some b) t := by
    induction t with
    | nil =>
      intro l b split
      have atExit : b = .exit := by simpa [split] using arranged.laid.last
      subst b
      exact (after_eq arranged.laid.closed).trans (congrArg _ arranged.laid.stops)
    | cons c t ih =>
      intro l b split
      refine ⟨?_, ih (l ++ [b]) c (by simp [split])⟩
      rw [after_eq (arranged.isSome_block? (by simp [split])), (arranged.laid.linked split).1]
  obtain ⟨t, rfl, -⟩ := arranged.laid.eq_entry_cons
  exact ⟨rfl, onward t [] .entry rfl⟩

theorem enumerates_before (arranged : g.Arranged xs) : Enumerates g.before none xs.reverse := by
  -- along what is in front of a block, from its end
  have onward (l : List BlockId) : ∀ b r, xs = l ++ b :: r →
      Enumerates g.before (some b) l.reverse := by
    induction l using List.reverseRecOn with
    | nil =>
      intro b r split
      have atEntry : b = .entry := by simpa [split] using arranged.laid.first
      subst b
      exact (before_eq (arranged.isSome_block? (by simp [split]))).trans
        (congrArg _ arranged.starts)
    | append_singleton l a ih =>
      intro b r split
      rw [List.append_assoc] at split
      rw [List.reverse_append]
      refine ⟨?_, ih a (b :: r) split⟩
      rw [before_eq (arranged.isSome_block? (by simp [split])), (arranged.laid.linked split).2]
  have split := arranged.laid.eq_dropLast_append
  rw [split, List.reverse_append]
  exact ⟨rfl, onward xs.dropLast .exit [] split⟩

/-! ## Changes that move no block -/

theorem of_same (arranged : g.Arranged xs) (same : SameBlocks Block.standing g g')
    (count : g'.liveCount = g.liveCount) : g'.Arranged xs := by
  refine ⟨arranged.laid.congr (same.weaken Prod.snd), ?_, fun b data' found' => ?_,
    count.trans arranged.count⟩
  · rw [prev?_congr ((same.weaken Prod.snd).weaken Prod.fst), arranged.starts]
  · obtain ⟨data, found, standing⟩ := same.symm.exists_block found'
    rw [← arranged.enrolled b data found]
    exact iff_of_eq (congrArg (·.1 = .live) standing.symm)

theorem setMarks (arranged : g.Arranged xs) (bs : List BlockId) (marked : Bool) :
    (g.setMarks bs marked).Arranged xs :=
  have remarked := remarked_setMarks bs marked g
  arranged.of_same (remarked.block.weaken Block.standing) remarked.globals.liveCount

theorem postorder_yields (arranged : g.Arranged xs) :
    Yields (fun _ => True) g.postorder fun (_, g') => g'.Arranged xs := by
  have reached : Yields (fun _ => True) g.markReached fun (_, g₁) => g₁.Arranged xs :=
    (yields_of_forall fun _ => id).bind fun order _ =>
      yields_pure ((arranged.setMarks order true).of_same (.refl _ _) rfl)
  exact reached.bind fun (order, g₁) arranged₁ =>
    yields_pure ((arranged₁.setMarks order false).of_same (.refl _ _) rfl)

theorem build_yields (arranged : g.Arranged xs) :
    Yields (fun _ => True) g.build fun g' => g'.Arranged xs := by
  apply (Graph.build_yields g).mono
  intro g' ⟨_, _, connected⟩
  exact arranged.of_same (.of_map connected.block fun _ _ => rfl) connected.globals.liveCount

theorem create (arranged : g.Arranged xs) : g.create.2.Arranged xs := by
  have created := g.block?_create
  have absent := g.block?_create_self
  have next (b : BlockId) : g.create.2.next? b = g.next? b := by
    rw [next?, next?, created]
    split
    · subst b
      rw [absent]
      rfl
    · rfl
  have prev (b : BlockId) : g.create.2.prev? b = g.prev? b := by
    rw [prev?, prev?, created]
    split
    · subst b
      rw [absent]
      rfl
    · rfl
  have outside : g.create.1 ∉ xs := by
    intro member
    have inside := arranged.isSome_block? member
    rw [absent] at inside
    cases inside
  refine ⟨arranged.laid.of_links next prev ?_, (prev .entry).trans arranged.starts,
    fun b data found => ?_, arranged.count⟩
  · rw [created]
    split
    · rfl
    · exact arranged.laid.closed
  · rw [created] at found
    split at found
    · subst b
      cases found
      simp [outside, Block.fresh]
    · exact arranged.enrolled b data found

end Arranged

/-! ## Linking in -/

/-- The blocks of `ms` are detached, and linked with each other from `first` to `last`. -/
structure Loose (g : Graph) (first last : BlockId) (ms : List BlockId) : Prop
    extends g.Threaded first last ms where
  detached : ∀ b ∈ ms, ∀ data, g.block? b = some data → data.status = .detached

/-- The blocks of `ms` are linked with each other from `first` to `last`, and none of them is live.
All that linking them in asks for beside this is that `first` is detached. -/
structure Idle (g : Graph) (first last : BlockId) (ms : List BlockId) : Prop
    extends g.Threaded first last ms where
  idle : ∀ b ∈ ms, ¬∃ data, g.block? b = some data ∧ data.status = .live

section

variable {allowed : Fault → Prop} {first last : BlockId} {ms l r : List BlockId}

/-- A new block is a run by itself. -/
theorem loose_create (g : Graph) : g.create.2.Loose g.create.1 g.create.1 [g.create.1] := by
  have found : g.create.2.block? g.create.1 = some .fresh := by rw [g.block?_create, if_pos rfl]
  refine ⟨.self (Option.isSome_of_eq_some found), fun b member data found' => ?_⟩
  rw [List.mem_singleton.1 member, found] at found'
  cases found'
  rfl

theorem Loose.idle (loose : g.Loose first last ms) : g.Idle first last ms := by
  refine ⟨loose.toThreaded, fun b member => ?_⟩
  rintro ⟨data, found, live⟩
  rw [loose.detached b member data found] at live
  cases live

namespace Arranged

theorem disjoint (arranged : g.Arranged xs) (idle : g.Idle first last ms) :
    ∀ b ∈ ms, b ∉ xs := by
  intro b member inLayout
  obtain ⟨data, found⟩ := arranged.laid.exists_block inLayout
  exact idle.idle b member ⟨data, found, arranged.live_of_mem found inLayout⟩

theorem nodup_insert {p n : BlockId} (arranged : g.Arranged (l ++ p :: n :: r))
    (idle : g.Idle first last ms) : (l ++ p :: (ms ++ n :: r)).Nodup := by
  have distinct := arranged.laid.nodup
  have distinctRun := idle.nodup
  have apart := arranged.disjoint idle
  simp only [List.nodup_append, List.nodup_cons, List.mem_append, List.mem_cons, not_or]
    at distinct apart ⊢
  grind

/-- The count of live blocks stays below that of all blocks, whatever is linked in. -/
theorem length_lt_countLimit {p n : BlockId} (arranged : g.Arranged (l ++ p :: n :: r))
    (idle : g.Idle first last ms) : g.liveCount + ms.length < g.countLimit := by
  have fits : (l ++ p :: (ms ++ n :: r)).length ≤ g.blockCount := by
    refine length_le_blockCount (arranged.nodup_insert idle) fun b member => ?_
    by_cases inRun : b ∈ ms
    · exact idle.inside b inRun
    · refine arranged.isSome_block? ?_
      simp only [List.mem_append, List.mem_cons, inRun, false_or] at member ⊢
      exact member
  have count := arranged.count
  simp only [List.length_append, List.length_cons] at fits count
  refine lt_of_lt_of_le ?_ (le_max_right _ _)
  omega

theorem inserted {p n : BlockId} (arranged : g.Arranged (l ++ p :: n :: r))
    (idle : g.Idle first last ms) (inserted : Inserted p n first last ms g g') :
    g'.Arranged (l ++ p :: (ms ++ n :: r)) := by
  have distinct := arranged.nodup_insert idle
  have laid := arranged.laid.inserted idle.toThreaded distinct inserted
  refine ⟨laid, ?starts, fun b data' found' => ?enrolled, ?count⟩
  case starts =>
    -- entry comes first, so it is not what follows `p`, and it is not in the run
    have notN : BlockId.entry ≠ n :=
      (arranged.laid.next?_ne_entry (by simp) (arranged.laid.linked rfl).1).symm
    have notFirst : BlockId.entry ≠ first := by
      rintro rfl
      exact arranged.disjoint idle _ idle.first_mem arranged.laid.entry_mem
    rw [inserted.prev?_eq (arranged.isSome_block? (by simp)) (idle.inside _ idle.first_mem),
      if_neg notN, if_neg notFirst, arranged.starts]
  case enrolled =>
    rw [inserted.block, Option.map_eq_some_iff] at found'
    obtain ⟨data, found, rfl⟩ := found'
    have before := arranged.enrolled b data found
    simp only [List.mem_append, List.mem_cons] at before ⊢
    split <;> simp_all
  case count =>
    rw [inserted.liveCount, arranged.count]
    simp
    omega

theorem attachAfter_between {p n : BlockId} (arranged : g.Arranged (l ++ p :: n :: r))
    (idle : g.Idle first last ms) {head : Block} (foundFirst : g.block? first = some head)
    (detached : head.status = .detached) :
    Yields allowed (g.attachAfter p first last) fun g' =>
      Inserted p n first last ms g g' ∧ g'.Arranged (l ++ p :: (ms ++ n :: r)) := by
  have link := arranged.laid.linked rfl
  have apart := arranged.disjoint idle
  have member : p ∈ l ++ p :: n :: r := by simp
  obtain ⟨data, foundP⟩ := arranged.laid.exists_block member
  apply (idle.attachAfter_yields link
    ⟨fun inRun => apart p inRun member, fun inRun => apart n inRun (by simp)⟩ foundP foundFirst
    (.inl ⟨arranged.laid.ne_exit link.1, arranged.live_of_mem foundP member, detached⟩)
    (.inl (arranged.length_lt_countLimit idle))).mono
  intro g' inserted
  exact ⟨inserted, arranged.inserted idle inserted⟩

theorem attachBefore_between {p n : BlockId} (arranged : g.Arranged (l ++ p :: n :: r))
    (idle : g.Idle first last ms) {head : Block} (foundFirst : g.block? first = some head)
    (detached : head.status = .detached) :
    Yields allowed (g.attachBefore n first last) fun g' =>
      Inserted p n first last ms g g' ∧ g'.Arranged (l ++ p :: (ms ++ n :: r)) := by
  have link := arranged.laid.linked rfl
  have apart := arranged.disjoint idle
  have member : n ∈ l ++ p :: n :: r := by simp
  obtain ⟨data, foundN⟩ := arranged.laid.exists_block member
  have place : n ≠ .entry := arranged.laid.next?_ne_entry (by simp) link.1
  apply (idle.attachBefore_yields link
    ⟨fun inRun => apart p inRun (by simp), fun inRun => apart n inRun member⟩ foundN foundFirst
    (.inl ⟨place, arranged.live_of_mem foundN member, detached⟩)
    (.inl (arranged.length_lt_countLimit idle))).mono
  intro g' inserted
  exact ⟨inserted, arranged.inserted idle inserted⟩

/-- The run comes between a block of the layout and the one behind it. -/
theorem attachAfter_inserted {p : BlockId} (arranged : g.Arranged (l ++ p :: r))
    (place : p ≠ .exit) (idle : g.Idle first last ms) {head : Block}
    (foundFirst : g.block? first = some head) (detached : head.status = .detached) :
    Yields allowed (g.attachAfter p first last) fun g' => ∃ n ∈ r,
      Inserted p n first last ms g g' ∧ g'.Arranged (l ++ p :: (ms ++ r)) := by
  obtain ⟨n, r, rfl⟩ : ∃ n r', r = n :: r' := by
    cases r with
    | nil => exact absurd (by simpa using arranged.laid.last) place
    | cons n r => exact ⟨n, r, rfl⟩
  apply (arranged.attachAfter_between idle foundFirst detached).mono
  intro g' ⟨inserted, arranged'⟩
  exact ⟨n, List.mem_cons_self, inserted, arranged'⟩

/-- The run comes between a block of the layout and the one in front of it. -/
theorem attachBefore_inserted {n : BlockId} (arranged : g.Arranged (l ++ n :: r))
    (place : n ≠ .entry) (idle : g.Idle first last ms) {head : Block}
    (foundFirst : g.block? first = some head) (detached : head.status = .detached) :
    Yields allowed (g.attachBefore n first last) fun g' => ∃ p ∈ l,
      Inserted p n first last ms g g' ∧ g'.Arranged (l ++ ms ++ n :: r) := by
  obtain ⟨l, p, rfl⟩ : ∃ l' p, l = l' ++ [p] := by
    obtain rfl | split := l.eq_nil_or_concat'
    · exact absurd (by simpa using arranged.laid.first) place
    · exact split
  rw [List.append_assoc] at arranged
  apply (arranged.attachBefore_between idle foundFirst detached).mono
  intro g' ⟨inserted, arranged'⟩
  exact ⟨p, by simp, inserted, by simpa using arranged'⟩

theorem attachAfter_yields {p : BlockId} (arranged : g.Arranged (l ++ p :: r))
    (place : p ≠ .exit) (loose : g.Loose first last ms) :
    Yields allowed (g.attachAfter p first last) fun g' => g'.Arranged (l ++ p :: (ms ++ r)) := by
  obtain ⟨head, found⟩ := Option.isSome_iff_exists.1 (loose.inside first loose.first_mem)
  have detached := loose.detached first loose.first_mem head found
  exact (arranged.attachAfter_inserted place loose.idle found detached).mono
    fun g' ⟨_, _, _, arranged'⟩ => arranged'

theorem attachBefore_yields {n : BlockId} (arranged : g.Arranged (l ++ n :: r))
    (place : n ≠ .entry) (loose : g.Loose first last ms) :
    Yields allowed (g.attachBefore n first last) fun g' => g'.Arranged (l ++ ms ++ n :: r) := by
  obtain ⟨head, found⟩ := Option.isSome_iff_exists.1 (loose.inside first loose.first_mem)
  have detached := loose.detached first loose.first_mem head found
  exact (arranged.attachBefore_inserted place loose.idle found detached).mono
    fun g' ⟨_, _, _, arranged'⟩ => arranged'

theorem append_yields (arranged : g.Arranged (l ++ [.exit])) :
    Yields allowed g.append fun (b, g') =>
      b = ⟨g.blockCount⟩ ∧ g'.Arranged (l ++ [b, .exit]) := by
  have notEntry : BlockId.exit ≠ .entry := by decide
  refine (arranged.create.attachBefore_yields notEntry (loose_create g)).bind fun g' arranged' => ?_
  rw [List.append_assoc] at arranged'
  exact yields_pure ⟨rfl, arranged'⟩

/-! ## Linking out -/

theorem removed {p n : BlockId} (arranged : g.Arranged (l ++ p :: (ms ++ n :: r)))
    (threaded : g.Threaded first last ms) (inner : .entry ∉ ms)
    (removed : Removed p n first last ms g g') : g'.Arranged (l ++ p :: n :: r) := by
  have laid := arranged.laid.removed threaded removed
  have distinct := arranged.laid.nodup
  refine ⟨laid, ?starts, fun b data' found' => ?enrolled, ?count⟩
  case starts =>
    have notN : BlockId.entry ≠ n := (laid.next?_ne_entry (by simp) (laid.linked rfl).1).symm
    rw [prev?_relinked (removed.relinked threaded inner) (arranged.isSome_block? (by simp)),
      if_neg notN, arranged.starts]
  case enrolled =>
    rw [removed.block, Option.map_eq_some_iff] at found'
    obtain ⟨data, found, rfl⟩ := found'
    have before := arranged.enrolled b data found
    simp only [List.nodup_append, List.nodup_cons, List.mem_append, List.mem_cons] at distinct before ⊢
    split <;> grind
  case count =>
    rw [removed.liveCount, arranged.count]
    simp
    omega

theorem threaded (arranged : g.Arranged (l ++ ms ++ r)) (head : ms.head? = some first)
    (tail : ms.getLast? = some last) : g.Threaded first last ms := by
  have laid := arranged.laid
  refine ⟨?_, fun b member => arranged.isSome_block? (by simp [member]), head, tail, ?_⟩
  · exact laid.nodup.of_append_left.of_append_right
  · exact (List.isChain_append.1 (List.isChain_append.1 laid.links).1).2.1

/-- Something is in front of a run without sentinels, because entry is, and something behind it,
because exit is. -/
theorem exists_neighbours (arranged : g.Arranged (l ++ ms ++ r)) (head : ms.head? = some first)
    (tail : ms.getLast? = some last) (notEntry : .entry ∉ ms) (notExit : .exit ∉ ms) :
    (∃ l' p, l = l' ++ [p]) ∧ ∃ n r', r = n :: r' := by
  have laid := arranged.laid
  constructor
  · obtain rfl | split := l.eq_nil_or_concat'
    · have atFirst := laid.first
      rw [List.nil_append, List.head?_append, head] at atFirst
      cases atFirst
      exact absurd (List.mem_of_mem_head? head) notEntry
    · exact split
  · cases r with
    | nil =>
      have atLast := laid.last
      rw [List.append_nil, List.getLast?_append, tail] at atLast
      cases atLast
      exact absurd (List.mem_of_getLast? tail) notExit
    | cons n r => exact ⟨n, r, rfl⟩

theorem linked_neighbours {p n : BlockId} (arranged : g.Arranged (l ++ p :: (ms ++ n :: r)))
    (head : ms.head? = some first) (tail : ms.getLast? = some last) :
    g.Linked p first ∧ g.Linked last n := by
  have links := (List.isChain_split.1 arranged.laid.links).2
  constructor
  · refine (List.isChain_cons.1 links).1 first ?_
    rw [List.head?_append, head]
    rfl
  · exact (List.isChain_append.1 (List.isChain_cons.1 links).2).2.2 last tail n rfl

/-- A run in the layout is threaded, its neighbours are not in it, and its blocks are counted. -/
theorem threaded_between {p n : BlockId} (arranged : g.Arranged (l ++ p :: (ms ++ n :: r)))
    (head : ms.head? = some first) (tail : ms.getLast? = some last) :
    g.Threaded first last ms ∧ (p ∉ ms ∧ n ∉ ms) ∧ ms.length ≤ g.liveCount := by
  have distinct := arranged.laid.nodup
  have count := arranged.count
  have shape : l ++ p :: (ms ++ n :: r) = l ++ [p] ++ ms ++ n :: r := by simp
  refine ⟨(shape ▸ arranged).threaded head tail, ?apart, ?counted⟩
  case apart =>
    simp only [List.nodup_append, List.nodup_cons, List.mem_append, List.mem_cons] at distinct
    grind
  case counted =>
    simp only [List.length_append, List.length_cons] at count
    omega

theorem detach_between {p n : BlockId} (arranged : g.Arranged (l ++ p :: (ms ++ n :: r)))
    (head : ms.head? = some first) (tail : ms.getLast? = some last) (notEntry : .entry ∉ ms) :
    Yields allowed (g.detach first last) fun g' =>
      Removed p n first last ms g g' ∧ g'.Arranged (l ++ p :: n :: r) := by
  obtain ⟨threaded, apart, counted⟩ := arranged.threaded_between head tail
  obtain ⟨front, back⟩ := arranged.linked_neighbours head tail
  have notExit : last ≠ .exit := arranged.laid.ne_exit back.1
  obtain ⟨data, foundFirst⟩ := Option.isSome_iff_exists.1 (threaded.inside _ threaded.first_mem)
  apply (threaded.detach_yields front back apart
    ⟨ne_of_mem_of_not_mem threaded.first_mem notEntry, notExit⟩ foundFirst counted
    (.inl (arranged.live_of_mem foundFirst (by simp [threaded.first_mem])))).mono
  intro g' removed
  exact ⟨removed, arranged.removed threaded notEntry removed⟩

/-- The run leaves from between two blocks of the layout. -/
theorem detach_removed (arranged : g.Arranged (l ++ ms ++ r)) (head : ms.head? = some first)
    (tail : ms.getLast? = some last) (notEntry : .entry ∉ ms) (notExit : .exit ∉ ms) :
    Yields allowed (g.detach first last) fun g' => ∃ p ∈ l, ∃ n ∈ r,
      Removed p n first last ms g g' ∧ g'.Arranged (l ++ r) := by
  obtain ⟨⟨l, p, rfl⟩, n, r, rfl⟩ := arranged.exists_neighbours head tail notEntry notExit
  have shape : l ++ [p] ++ ms ++ n :: r = l ++ p :: (ms ++ n :: r) := by simp
  rw [shape] at arranged
  apply (arranged.detach_between head tail notEntry).mono
  intro g' ⟨removed, arranged'⟩
  exact ⟨p, by simp, n, by simp, removed, by simpa using arranged'⟩

theorem detach_yields (arranged : g.Arranged (l ++ ms ++ r)) (head : ms.head? = some first)
    (tail : ms.getLast? = some last) (notEntry : .entry ∉ ms) (notExit : .exit ∉ ms) :
    Yields allowed (g.detach first last) fun g' => g'.Arranged (l ++ r) :=
  (arranged.detach_removed head tail notEntry notExit).mono
    fun _ ⟨_, _, _, _, _, arranged'⟩ => arranged'

/-- A block outside the layout may take any status but that of a live one. -/
theorem outside_modify (arranged : g.Arranged xs) {b : BlockId} (outside : b ∉ xs)
    {f : Block → Block} (links : ∀ data, ((f data).prev, (f data).next) = (data.prev, data.next))
    (notLive : ∀ data, (f data).status ≠ .live) : (g.modify b f).Arranged xs := by
  have same : SameBlocks (fun d => (d.prev, d.next)) g (g.modify b f) := .modify g b links
  refine ⟨arranged.laid.congr same, ?_, fun c data' found' => ?_, arranged.count⟩
  · rw [prev?_congr (same.weaken Prod.fst), arranged.starts]
  · rw [block?_modify] at found'
    split at found'
    · subst c
      obtain ⟨data, -, rfl⟩ := Option.map_eq_some_iff.1 found'
      exact iff_of_false (notLive data) outside
    · exact arranged.enrolled c data' found'

theorem destroy_yields (arranged : g.Arranged xs) {b : BlockId} (inside : (g.block? b).isSome)
    (notEntry : b ≠ .entry) (notExit : b ≠ .exit) :
    Yields allowed (g.destroy b) fun g' => g'.Arranged (xs.erase b) := by
  obtain ⟨data, found⟩ := Option.isSome_iff_exists.1 inside
  have distinct := arranged.laid.nodup
  have given {g₁ : Graph} (arranged₁ : g₁.Arranged (xs.erase b)) (inside₁ : (g₁.block? b).isSome) :
      Yields allowed (g₁.update b ({ ·.release with metadata := .empty, status := .destroyed }))
        fun g' => g'.Arranged (xs.erase b) :=
    yields_of_eq_ok (update_eq_ok.2 ⟨inside₁, rfl⟩)
      (arranged₁.outside_modify distinct.not_mem_erase (fun _ => rfl) fun _ => nofun)
  unfold destroy
  rw [require_bind ⟨notEntry, notExit⟩, block_bind found]
  by_cases member : b ∈ xs
  · have live : data.isLive = true := by
      simpa [Block.isLive] using arranged.live_of_mem found member
    obtain ⟨l, r, rfl⟩ := List.append_of_mem member
    have absent : b ∉ l := by
      simp only [List.nodup_append, List.mem_cons] at distinct
      exact fun inFront => distinct.2.2 b inFront b (.inl rfl) rfl
    have shape : l ++ b :: r = l ++ [b] ++ r := by simp
    rw [List.erase_append_right _ absent, List.erase_cons_head] at given ⊢
    rw [shape] at arranged
    rw [if_pos live]
    refine ((arranged.detach_yields rfl rfl (by simpa using notEntry.symm)
      (by simpa using notExit.symm)).and_of_eq_ok fun g₁ ran =>
        ((Relaid.detach_yields g b b).of_eq_ok ran).block.isSome_eq b).bind fun g₁ detached => ?_
    exact given detached.1 (detached.2.trans inside)
  · have notLive : data.isLive = false := by
      simpa [Block.isLive] using mt (arranged.enrolled b data found).1 member
    rw [List.erase_of_not_mem member] at given ⊢
    rw [notLive]
    exact given arranged inside

end Arranged

/-! ## Operations -/

/-- What an operation makes of the sequence of blocks. -/
inductive Edit (g : Graph) : List BlockId → Operation → List BlockId → Prop where
  | create (xs : List BlockId) : Edit g xs .create xs
  | append (l : List BlockId) :
      Edit g (l ++ [.exit]) .append (l ++ [⟨g.blockCount⟩, .exit])
  | detach (l ms r : List BlockId) {first last : BlockId} (head : ms.head? = some first)
      (tail : ms.getLast? = some last) (notEntry : .entry ∉ ms) (notExit : .exit ∉ ms) :
      Edit g (l ++ ms ++ r) (.detach first last) (l ++ r)
  | attachAfter (l r : List BlockId) {ms : List BlockId} {p first last : BlockId}
      (place : p ≠ .exit) (loose : g.Loose first last ms) :
      Edit g (l ++ p :: r) (.attachAfter p first last) (l ++ p :: (ms ++ r))
  | attachBefore (l r : List BlockId) {ms : List BlockId} {n first last : BlockId}
      (place : n ≠ .entry) (loose : g.Loose first last ms) :
      Edit g (l ++ n :: r) (.attachBefore n first last) (l ++ ms ++ n :: r)
  /-- A block that is not in the sequence leaves it as it is. -/
  | destroy (xs : List BlockId) {b : BlockId} (inside : (g.block? b).isSome)
      (notEntry : b ≠ .entry) (notExit : b ≠ .exit) : Edit g xs (.destroy b) (xs.erase b)
  | build (xs : List BlockId) : Edit g xs .build xs
  | postorder (xs : List BlockId) : Edit g xs .postorder xs

/-- A sequence of operations, each of which has its meaning where it is carried out. -/
inductive Edits : Graph → List BlockId → List Operation → List BlockId → Prop where
  | nil (g : Graph) (xs : List BlockId) : Edits g xs [] xs
  | cons {g : Graph} {xs ys zs : List BlockId} {op : Operation} {ops : List Operation}
      (edit : g.Edit xs op ys) (rest : Edits (g.perform op) ys ops zs) : Edits g xs (op :: ops) zs

variable {xs' : List BlockId} {op : Operation}

theorem Arranged.edit_yields (arranged : g.Arranged xs) (edit : g.Edit xs op xs') :
    Yields (fun _ => op = .build ∨ op = .postorder) (op.apply g) fun g' => g'.Arranged xs' := by
  cases edit with
  | create => exact yields_ok arranged.create
  | append l =>
    refine arranged.append_yields.map fun result added => ?_
    rw [← added.1]
    exact added.2
  | detach l ms r head tail notEntry notExit => exact arranged.detach_yields head tail notEntry notExit
  | attachAfter l r place loose => exact arranged.attachAfter_yields place loose
  | attachBefore l r place loose => exact arranged.attachBefore_yields place loose
  | destroy xs inside notEntry notExit => exact arranged.destroy_yields inside notEntry notExit
  | build => exact arranged.build_yields.allow fun _ _ => .inl rfl
  | postorder =>
    exact (arranged.postorder_yields.allow fun _ _ => .inr rfl).map fun _ => id

theorem Arranged.perform (arranged : g.Arranged xs) (edit : g.Edit xs op xs') :
    (op.apply g = .ok (g.perform op) ∨ op = .build ∨ op = .postorder) ∧
      (g.perform op).Arranged xs' := by
  have result := arranged.edit_yields edit
  unfold Graph.perform
  cases ran : op.apply g with
  | ok g' => exact ⟨.inl rfl, result.of_eq_ok ran⟩
  | error f =>
    -- the sequence stays, and so does the graph
    obtain rfl | rfl := result.of_eq_error ran
    · cases edit
      exact ⟨.inr (.inl rfl), arranged⟩
    · cases edit
      exact ⟨.inr (.inr rfl), arranged⟩

theorem Arranged.performAll {ops : List Operation} (edits : Edits g xs ops xs') :
    g.Arranged xs → (g.performAll ops).Arranged xs' := by
  induction edits with
  | nil => exact id
  | cons edit _ ih => exact fun arranged => ih (arranged.perform edit).2

theorem arranged_initial : initial.Arranged [.entry, .exit] := by
  have laid : initial.LaidOut [.entry, .exit] :=
    ⟨by decide, rfl, rfl, .cons_cons ⟨rfl, rfl⟩ (.singleton _), rfl, rfl⟩
  exact ⟨laid, rfl, by decide, rfl⟩

/-- Every operation on the layout does to the sequence of blocks what it says, and a client finds
the new sequence whether it asks for the layout or goes through it forwards or backwards. Only a
build or a search can fail, and then everything stays as it was. -/
theorem perform_arranged (arranged : g.Arranged xs) (edit : g.Edit xs op xs') :
    (op.apply g = .ok (g.perform op) ∨ op = .build ∨ op = .postorder) ∧
      (g.perform op).Arranged xs' ∧ (g.perform op).layout = .ok xs' ∧
      Enumerates (g.perform op).after none xs' ∧
      Enumerates (g.perform op).before none xs'.reverse := by
  obtain ⟨ran, arranged'⟩ := arranged.perform edit
  exact ⟨ran, arranged', arranged'.laid.layout_eq, arranged'.enumerates_after,
    arranged'.enumerates_before⟩

end

/-- Three blocks come, and the first two of them leave the layout again. -/
def shuffled : Graph := initial.performAll [.append, .append, .append, .detach ⟨2⟩ ⟨3⟩]

theorem perform_shuffled_arranged :
    shuffled.Arranged [.entry, ⟨4⟩, .exit] ∧
      shuffled.Edit [.entry, ⟨4⟩, .exit] (.attachAfter ⟨4⟩ ⟨2⟩ ⟨3⟩) [.entry, ⟨4⟩, ⟨2⟩, ⟨3⟩, .exit] ∧
      (shuffled.perform (.attachAfter ⟨4⟩ ⟨2⟩ ⟨3⟩)).layout = .ok [.entry, ⟨4⟩, ⟨2⟩, ⟨3⟩, .exit] ∧
      Enumerates (shuffled.perform (.attachAfter ⟨4⟩ ⟨2⟩ ⟨3⟩)).before none
        [.exit, ⟨3⟩, ⟨2⟩, ⟨4⟩, .entry] := by
  have edits : Edits initial [.entry, .exit] [.append, .append, .append, .detach ⟨2⟩ ⟨3⟩]
      [.entry, ⟨4⟩, .exit] := by
    refine .cons (.append [.entry]) (.cons (.append [.entry, ⟨2⟩])
      (.cons (.append [.entry, ⟨2⟩, ⟨3⟩]) (.cons ?_ (.nil _ _))))
    exact .detach [.entry] [⟨2⟩, ⟨3⟩] [⟨4⟩, .exit] rfl rfl (by decide) (by decide)
  have arranged : shuffled.Arranged [.entry, ⟨4⟩, .exit] := .performAll edits arranged_initial
  have threaded : shuffled.Threaded ⟨2⟩ ⟨3⟩ [⟨2⟩, ⟨3⟩] :=
    ⟨by decide, by decide +kernel, rfl, rfl,
      .cons_cons ⟨by decide +kernel, by decide +kernel⟩ (.singleton _)⟩
  have loose : shuffled.Loose ⟨2⟩ ⟨3⟩ [⟨2⟩, ⟨3⟩] := ⟨threaded, by decide +kernel⟩
  have edit : shuffled.Edit [.entry, ⟨4⟩, .exit] (.attachAfter ⟨4⟩ ⟨2⟩ ⟨3⟩)
      [.entry, ⟨4⟩, ⟨2⟩, ⟨3⟩, .exit] := .attachAfter [.entry] [.exit] (by decide) loose
  obtain ⟨-, -, layout, -, backwards⟩ := perform_arranged arranged edit
  exact ⟨arranged, edit, layout, backwards⟩

end

end FlowGraph.Graph
