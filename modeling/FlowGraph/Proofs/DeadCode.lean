import FlowGraph.Proofs.Lifecycle

/-! # Code that can never run

Whether a block may be entered is answered by a walk backwards: through blocks without labels, as
long as the block in front is no dead end, to the entry block or to a labelled one. The insertion
point is the end of the last block before exit, and a second walk decides whether it is dead: that
one passes over blocks that hold nothing, to the block that decides, and looks at its dead end and at
whether it may be entered. It does not look at the dead ends of the blocks it passes over, so it may
call the insertion point alive although a block appended there could not be entered. This happens
exactly if one of the blocks passed over is a dead end and nothing else keeps control away. -/

namespace FlowGraph.Graph

section

variable {g g' : Graph} {xs l r skipped : List BlockId} {b c p n : BlockId}

/-! ## What the walks look at -/

def Labelled (g : Graph) (b : BlockId) : Prop :=
  ∃ data, g.block? b = some data ∧ data.label.isSome

def DeadEnd (g : Graph) (b : BlockId) : Prop :=
  ∃ data, g.block? b = some data ∧ data.deadEnd = true

/-- A block that holds no instruction and has no label. -/
def Blank (g : Graph) (b : BlockId) : Prop :=
  ∃ data, g.block? b = some data ∧ data.instrs = [] ∧ data.label = none

/-- Control may fall into the block from entry or from a labelled block, or it is one of these. -/
inductive Entered (g : Graph) : BlockId → Prop where
  | entry : g.Entered .entry
  | labelled {b : BlockId} (labelled : g.Labelled b) : g.Entered b
  | behind {p b : BlockId} (link : g.prev? b = some p) (falls : ¬g.DeadEnd p)
      (before : g.Entered p) : g.Entered b

theorem labelled_iff {data : Block} (found : g.block? b = some data) :
    g.Labelled b ↔ data.label.isSome := by
  simp [Labelled, found]

theorem deadEnd_iff {data : Block} (found : g.block? b = some data) :
    g.DeadEnd b ↔ data.deadEnd = true := by
  simp [DeadEnd, found]

theorem blank_iff {data : Block} (found : g.block? b = some data) :
    g.Blank b ↔ data.instrs = [] ∧ data.label = none := by
  simp [Blank, found]

theorem Blank.not_labelled (blank : g.Blank b) : ¬g.Labelled b := by
  obtain ⟨data, found, -, unlabelled⟩ := blank
  simp [labelled_iff found, unlabelled]

/-! ## Falling in along the layout -/

theorem LaidOut.ne_entry (laid : g.LaidOut (l ++ p :: b :: r)) : b ≠ .entry :=
  laid.next?_ne_entry (by simp) (laid.linked rfl).1

/-- A block with another in front of it is entered through its label, or from that block. -/
theorem LaidOut.entered_iff (laid : g.LaidOut (l ++ p :: b :: r)) :
    g.Entered b ↔ g.Labelled b ∨ ¬g.DeadEnd p ∧ g.Entered p := by
  have link : g.prev? b = some p := (laid.linked rfl).2
  constructor
  · intro entered
    cases entered with
    | entry => exact absurd rfl laid.ne_entry
    | labelled labelled => exact .inl labelled
    | behind link' falls before =>
      rw [link] at link'
      cases link'
      exact .inr ⟨falls, before⟩
  · intro way
    obtain labelled | ⟨falls, before⟩ := way
    · exact .labelled labelled
    · exact .behind link falls before

/-- The walk comes to its end within as many steps as there are blocks in front. -/
theorem LaidOut.entered_eq (laid : g.LaidOut xs) (l : List BlockId) : ∀ (b : BlockId)
    (r : List BlockId) (n : Nat), xs = l ++ b :: r → l.length < n →
    ∃ answer, g.entered n b = .ok answer ∧ (answer = true ↔ g.Entered b) := by
  induction l using List.reverseRecOn with
  | nil =>
    intro b r n split enough
    obtain ⟨n, rfl⟩ := Nat.exists_eq_add_one_of_ne_zero (Nat.ne_of_gt enough)
    obtain rfl : b = .entry := by simpa [split] using laid.first
    refine ⟨true, ?_, by simp [Entered.entry]⟩
    rw [entered, if_pos rfl]
    rfl
  | append_singleton l p ih =>
    intro b r n split enough
    obtain ⟨n, rfl⟩ := Nat.exists_eq_add_one_of_ne_zero (Nat.ne_of_gt (Nat.zero_lt_of_lt enough))
    rw [List.append_assoc] at split
    subst split
    obtain ⟨data, found⟩ := laid.exists_block (b := b) (by simp)
    obtain ⟨front, foundP⟩ := laid.exists_block (b := p) (by simp)
    have link : data.prev = some p := by
      rw [← prev?_eq found]
      exact (laid.linked rfl).2
    rw [laid.entered_iff, labelled_iff found, deadEnd_iff foundP, entered, if_neg laid.ne_entry,
      block_bind found, link]
    simp only [block_bind foundP]
    split
    · exact ⟨true, rfl, by simp_all⟩
    · rename_i unlabelled
      split
      · exact ⟨false, rfl, by simp_all⟩
      · rename_i falls
        obtain ⟨answer, ran, exact⟩ := ih p (b :: r) n (by simp) (by simpa using enough)
        exact ⟨answer, ran, by simp_all⟩

theorem LaidOut.isReachable_eq (laid : g.LaidOut xs) (member : b ∈ xs) (live : g.HasStatus b .live) :
    ∃ answer, g.isReachable b = .ok answer ∧ (answer = true ↔ g.Entered b) := by
  obtain ⟨data, found, status⟩ := live
  have bound := laid.length_le
  obtain ⟨l, r, rfl⟩ := List.append_of_mem member
  rw [isReachable, block_bind found, if_pos (by simpa [Block.isLive] using status)]
  apply laid.entered_eq l b r _ rfl
  rw [List.length_append] at bound
  omega

/-! ## The block that decides -/

/-- Behind `c` come blocks that hold nothing, and `c` is entry or does not. -/
structure Controls (g : Graph) (l : List BlockId) (c : BlockId) (skipped : List BlockId) : Prop where
  arranged : g.Arranged (l ++ c :: (skipped ++ [.exit]))
  blank : ∀ d ∈ skipped, g.Blank d
  stops : c = .entry ∨ ¬g.Blank c

theorem exists_stop (g : Graph) (ys : List BlockId) : ys.head? = some .entry →
    ∃ l c skipped, ys = l ++ c :: skipped ∧ (∀ d ∈ skipped, g.Blank d) ∧
      (c = .entry ∨ ¬g.Blank c) := by
  induction ys using List.reverseRecOn with
  | nil => simp
  | append_singleton ys d ih =>
    intro first
    by_cases stops : d = .entry ∨ ¬g.Blank d
    · exact ⟨ys, d, [], rfl, by simp, stops⟩
    · rw [not_or, not_not] at stops
      -- `d` is not entry, so there is a block in front of it
      have first' : ys.head? = some .entry := by
        cases ys with
        | nil => exact absurd (by simpa using first) stops.1
        | cons y ys => simpa using first
      obtain ⟨l, c, skipped, rfl, blank, stops'⟩ := ih first'
      refine ⟨l, c, skipped ++ [d], by simp, ?_, stops'⟩
      intro d' member
      obtain inside | rfl := List.mem_append.1 member |>.imp_right List.mem_singleton.1
      · exact blank d' inside
      · exact stops.2

theorem Arranged.exists_controls (arranged : g.Arranged xs) :
    ∃ l c skipped, xs = l ++ c :: (skipped ++ [.exit]) ∧ g.Controls l c skipped := by
  have split := arranged.laid.eq_dropLast_append
  have first : xs.dropLast.head? = some .entry := by
    have first := arranged.laid.first
    have apart : BlockId.exit ≠ .entry := by decide
    rw [split] at first
    cases front : xs.dropLast with
    | nil =>
      rw [front] at first
      exact absurd (by simpa using first) apart
    | cons y ys =>
      rw [front] at first
      simpa using first
  obtain ⟨l, c, skipped, front, blank, stops⟩ := exists_stop g xs.dropLast first
  rw [front, List.append_assoc, List.cons_append] at split
  exact ⟨l, c, skipped, split, split ▸ arranged, blank, stops⟩

namespace Controls

theorem isSome_block? (controls : g.Controls l c skipped) (member : b ∈ c :: skipped) :
    (g.block? b).isSome := by
  apply controls.arranged.isSome_block?
  simp only [List.mem_append, List.mem_cons] at member ⊢
  tauto

/-- From any of the blocks passed over, the second walk leads to the block that decides. -/
theorem controlling_eq (controls : g.Controls l c skipped) (before : List BlockId) :
    ∀ (p : BlockId) (after : List BlockId) (n : Nat), c :: skipped = before ++ p :: after →
      before.length < n → g.controlling n p = .ok (some c) := by
  induction before using List.reverseRecOn with
  | nil =>
    intro p after n split enough
    obtain ⟨n, rfl⟩ := Nat.exists_eq_add_one_of_ne_zero (Nat.ne_of_gt enough)
    obtain ⟨rfl, -⟩ : c = p ∧ skipped = after := by simpa using split
    obtain ⟨data, found⟩ := Option.isSome_iff_exists.1 (controls.isSome_block? (b := c) (by simp))
    rw [controlling]
    split
    · rfl
    · rename_i notEntry
      have holds := controls.stops.resolve_left notEntry
      rw [blank_iff found] at holds
      rw [block_bind found, if_pos]
      · rfl
      · cases label : data.label <;> simp_all
  | append_singleton before d ih =>
    intro p after n split enough
    obtain ⟨n, rfl⟩ := Nat.exists_eq_add_one_of_ne_zero (Nat.ne_of_gt (Nat.zero_lt_of_lt enough))
    have laid := controls.arranged.laid
    have shape : l ++ c :: (skipped ++ [.exit]) = (l ++ before) ++ d :: p :: (after ++ [.exit]) := by
      rw [← List.cons_append, split]
      simp
    rw [shape] at laid
    have passed : g.Blank p := by
      apply controls.blank
      cases before <;> simp_all
    obtain ⟨data, found, empty, unlabelled⟩ := passed
    have link : data.prev = some d := by
      rw [← prev?_eq found]
      exact (laid.linked rfl).2
    rw [controlling, if_neg laid.ne_entry, block_bind found, if_neg (by simp [empty, unlabelled]),
      link]
    exact ih d (p :: after) n (by simp [split]) (by simpa using enough)

/-- The last block before exit. -/
theorem exists_last (controls : g.Controls l c skipped) :
    ∃ before p, c :: skipped = before ++ [p] ∧ g.Linked p .exit := by
  obtain empty | ⟨before, p, split⟩ := (c :: skipped).eq_nil_or_concat'
  · cases empty
  · refine ⟨before, p, split, controls.arranged.laid.linked (l := l ++ before) (r := []) ?_⟩
    rw [← List.cons_append, split]
    simp

theorem currentIsDead_eq (controls : g.Controls l c skipped) :
    ∃ reachable dead, g.isReachable c = .ok reachable ∧ (reachable = true ↔ g.Entered c) ∧
      g.currentIsDead = .ok dead ∧ (dead = true ↔ g.DeadEnd c ∨ reachable = false) := by
  have member : c ∈ l ++ c :: (skipped ++ [.exit]) := by simp
  obtain ⟨reachable, ran, exact⟩ := controls.arranged.laid.isReachable_eq member
    ((HasStatus.live_iff_mem controls.arranged).2 member)
  obtain ⟨before, p, split, link⟩ := controls.exists_last
  obtain ⟨data, found⟩ := Option.isSome_iff_exists.1 (controls.isSome_block? (b := c) (by simp))
  obtain ⟨last, foundLast, prev⟩ := exists_of_prev? link.2
  have bound : before.length < g.blockCount + 1 := by
    have bound := controls.arranged.laid.length_le
    have size := congrArg List.length split
    simp only [List.length_append, List.length_cons, List.length_nil] at bound size
    omega
  have decides := controls.controlling_eq before p [] _ split bound
  refine ⟨reachable, data.deadEnd || !reachable, ran, exact, ?_, ?_⟩
  · rw [currentIsDead, block_bind foundLast, prev]
    simp only [decides, ok_bind, block_bind found, ran]
    cases data.deadEnd <;> rfl
  · rw [deadEnd_iff found]
    simp

/-- A block behind those passed over is entered through its label, or if neither these nor the block
that decides are dead ends. -/
theorem entered_of_skipped (blank : ∀ d ∈ skipped, g.Blank d) : ∀ {l : List BlockId} {c b : BlockId}
    {r : List BlockId}, g.LaidOut (l ++ c :: (skipped ++ b :: r)) → (g.Entered b ↔ g.Labelled b ∨
      (¬g.DeadEnd c ∧ g.Entered c) ∧ ∀ d ∈ skipped, ¬g.DeadEnd d) := by
  induction skipped with
  | nil =>
    intro l c b r laid
    rw [LaidOut.entered_iff laid]
    simp
  | cons d skipped ih =>
    intro l c b r laid
    obtain ⟨blankD, blank⟩ := List.forall_mem_cons.1 blank
    have unlabelled := blankD.not_labelled
    have here : g.Entered d ↔ g.Labelled d ∨ ¬g.DeadEnd c ∧ g.Entered c :=
      LaidOut.entered_iff (r := skipped ++ b :: r) laid
    have there := ih blank (l := l ++ [c]) (c := d) (b := b) (r := r) (by simpa using laid)
    rw [there, here]
    simp only [unlabelled, false_or, List.mem_cons, forall_eq_or_imp]
    tauto

end Controls

/-! ## A block appended there -/

/-- What a block holds is read alike in both graphs, wherever it stands. -/
theorem exists_block_congr (P : Block → Prop) (unplaced : ∀ d, P d ↔ P d.unplaced)
    (same : (g'.block? b).map Block.unplaced = (g.block? b).map Block.unplaced) :
    (∃ data, g'.block? b = some data ∧ P data) ↔ ∃ data, g.block? b = some data ∧ P data := by
  have through (h : Graph) : (∃ data, h.block? b = some data ∧ P data) ↔
      ∃ data, (h.block? b).map Block.unplaced = some data ∧ P data := by
    cases h.block? b <;> simp [← unplaced]
  rw [through, through, same]

section

variable (same : (g'.block? b).map Block.unplaced = (g.block? b).map Block.unplaced)
include same

theorem labelled_congr : g'.Labelled b ↔ g.Labelled b :=
  exists_block_congr (·.label.isSome) (fun _ => Iff.rfl) same

theorem deadEnd_congr : g'.DeadEnd b ↔ g.DeadEnd b :=
  exists_block_congr (·.deadEnd = true) (fun _ => Iff.rfl) same

theorem blank_congr : g'.Blank b ↔ g.Blank b :=
  exists_block_congr (fun data => data.instrs = [] ∧ data.label = none) (fun _ => Iff.rfl) same

end

/-- Whether a block is entered depends on nothing behind it. -/
theorem entered_congr (l : List BlockId) : ∀ {c : BlockId} {r r' : List BlockId},
    g.LaidOut (l ++ c :: r) → g'.LaidOut (l ++ c :: r') →
    (∀ d ∈ l ++ [c], (g'.block? d).map Block.unplaced = (g.block? d).map Block.unplaced) →
    (g'.Entered c ↔ g.Entered c) := by
  induction l using List.reverseRecOn with
  | nil =>
    intro c r r' laid laid' same
    obtain rfl : c = .entry := by simpa using laid.first
    exact iff_of_true .entry .entry
  | append_singleton l p ih =>
    intro c r r' laid laid' same
    rw [List.append_assoc] at laid laid'
    have before : g'.Entered p ↔ g.Entered p :=
      ih laid laid' fun d member => same d (List.mem_append_left _ member)
    rw [LaidOut.entered_iff laid', LaidOut.entered_iff laid, before,
      labelled_congr (same c (by simp)), deadEnd_congr (same p (by simp))]

/-- The new block comes last before exit and has no label; the others hold what they held. -/
theorem Arranged.append_kept {allowed : Fault → Prop} (arranged : g.Arranged (l ++ [.exit])) :
    Yields allowed g.append fun (b, g') => g'.Arranged (l ++ [b, .exit]) ∧ ¬g'.Labelled b ∧
      ∀ d ∈ l, (g'.block? d).map Block.unplaced = (g.block? d).map Block.unplaced := by
  have notEntry : BlockId.exit ≠ .entry := by decide
  have attached : Yields allowed (g.create.2.attachBefore .exit g.create.1 g.create.1) fun g' =>
      g'.Arranged (l ++ [g.create.1] ++ [.exit]) ∧ Relaid g.create.2 g' :=
    (arranged.create.attachBefore_yields notEntry (loose_create g)).and_of_eq_ok fun g' ran =>
      (Relaid.attachBefore_yields g.create.2 .exit g.create.1 g.create.1).of_eq_ok ran
  apply attached.bind
  intro g' ⟨arranged', relaid⟩
  rw [List.append_assoc] at arranged'
  have unlabelled : ¬g'.Labelled g.create.1 := by
    rw [labelled_congr (relaid.block _), Labelled, block?_create, if_pos rfl]
    simp [Block.fresh]
  refine yields_pure ⟨arranged', unlabelled, fun d member => ?_⟩
  have old : d ≠ g.create.1 := by
    rintro rfl
    have inside := arranged.isSome_block? (List.mem_append_left _ member)
    rw [block?_create_self] at inside
    cases inside
  rw [relaid.block d, block?_create, if_neg old]

/-- A block appended behind the blocks passed over cannot be entered if the insertion point is dead,
or if one of them is a dead end. -/
theorem Controls.append_eq (controls : g.Controls l c skipped) :
    ∃ b g' answer, g.append = .ok (b, g') ∧ g'.isReachable b = .ok answer ∧
      (answer = true ↔ (¬g.DeadEnd c ∧ g.Entered c) ∧ ∀ d ∈ skipped, ¬g.DeadEnd d) := by
  have shape : l ++ c :: (skipped ++ [.exit]) = (l ++ c :: skipped) ++ [.exit] := by simp
  have arranged := controls.arranged
  rw [shape] at arranged
  have appended : Yields (fun _ => False) g.append _ := arranged.append_kept
  obtain ⟨⟨b, g'⟩, ran, arranged', unlabelled, same⟩ := appended.exists_ok
  have laid' : g'.LaidOut (l ++ c :: (skipped ++ b :: [.exit])) := by simpa using arranged'.laid
  have member : b ∈ l ++ c :: skipped ++ [b, .exit] := by simp
  obtain ⟨answer, answers, exact⟩ := arranged'.laid.isReachable_eq member
    ((HasStatus.live_iff_mem arranged').2 member)
  have blank' : ∀ d ∈ skipped, g'.Blank d := fun d inside =>
    (blank_congr (same d (by simp [inside]))).2 (controls.blank d inside)
  have entered : g'.Entered c ↔ g.Entered c :=
    entered_congr l controls.arranged.laid laid' fun d inside => same d (by
      simp only [List.mem_append, List.mem_cons, List.not_mem_nil, or_false] at inside ⊢
      tauto)
  have deadEnds : (∀ d ∈ skipped, ¬g'.DeadEnd d) ↔ ∀ d ∈ skipped, ¬g.DeadEnd d := by
    refine forall₂_congr fun d inside => ?_
    rw [deadEnd_congr (same d (by simp [inside]))]
  refine ⟨b, g', answer, ran, answers, ?_⟩
  rw [exact, Controls.entered_of_skipped blank' laid', entered, deadEnd_congr (same c (by simp)),
    deadEnds]
  simp [unlabelled]

end

/-- What is said of the insertion point, and of a block appended there. The last blocks before exit
hold nothing, and `c` is the block in front of them that decides. -/
structure InsertionPoint (g : Graph) (l : List BlockId) (c : BlockId) (skipped : List BlockId)
    (dead reached : Bool) : Prop where
  layout : g.layout = .ok (l ++ c :: (skipped ++ [.exit]))
  blank : ∀ d ∈ skipped, g.Blank d
  stops : c = .entry ∨ ¬g.Blank c
  called : g.currentIsDead = .ok dead
  decided : dead = true ↔ g.DeadEnd c ∨ g.isReachable c = .ok false
  appended : ∃ b g', g.append = .ok (b, g') ∧ g'.isReachable b = .ok reached

/-- After every run of operations in which a client links in what it holds, a block appended at the
insertion point is unreachable if and only if the insertion point is called dead or one of the blocks
passed over is a dead end. -/
theorem append_unreachable_iff {ops : List Operation} {runs : List (List BlockId)}
    (handled : Handled initial [] ops runs) : ∃ l c skipped dead reached,
      InsertionPoint (initial.performAll ops) l c skipped dead reached ∧
        (reached = false ↔ dead = true ∨ ∃ d ∈ skipped, (initial.performAll ops).DeadEnd d) := by
  obtain ⟨xs, arranged⟩ := (handled.custody custody_initial).arranged
  obtain ⟨l, c, skipped, rfl, controls⟩ := arranged.exists_controls
  obtain ⟨reachable, dead, reaches, entered, called, isDead⟩ := controls.currentIsDead_eq
  obtain ⟨b, g', reached, appended, answers, exact⟩ := controls.append_eq
  refine ⟨l, c, skipped, dead, reached, ⟨arranged.laid.layout_eq, controls.blank, controls.stops,
    called, ?_, b, g', appended, answers⟩, ?_⟩
  · rw [isDead, reaches, Except.ok.injEq]
  · rw [← Bool.not_eq_true, exact, isDead, ← Bool.not_eq_true, entered]
    simp only [not_and_or, not_not, not_forall, exists_prop]

/-- Two empty blocks, the second of them a dead end, are taken out and put back, and a third one
comes behind them. -/
def reinserted : List Operation :=
  [.append, .append, .setDeadEnd ⟨3⟩ true, .detach ⟨2⟩ ⟨3⟩, .attachBefore .exit ⟨2⟩ ⟨3⟩, .append]

theorem append_reinserted_unreachable : Handled initial [] reinserted [] ∧
    ∃ l c skipped dead reached,
      InsertionPoint (initial.performAll reinserted) l c skipped dead reached ∧
        (reached = false ↔
          dead = true ∨ ∃ d ∈ skipped, (initial.performAll reinserted).DeadEnd d) := by
  have taken : Handles (initial.performAll (reinserted.take 3)) [] (.detach ⟨2⟩ ⟨3⟩)
      [[⟨2⟩, ⟨3⟩]] :=
    .detach [] (l := [.entry]) (r := [.exit]) (by decide +kernel) rfl rfl (by decide) (by decide)
  have given : Handles (initial.performAll (reinserted.take 4)) [[⟨2⟩, ⟨3⟩]]
      (.attachBefore .exit ⟨2⟩ ⟨3⟩) [] := by
    obtain ⟨g', accepted, -⟩ : ∃ g', (Operation.attachBefore .exit ⟨2⟩ ⟨3⟩).apply
        (initial.performAll (reinserted.take 4)) = .ok g' ∧ True := by decide +kernel
    exact .attach [] [] rfl rfl rfl ⟨g', accepted⟩
  have handled : Handled initial [] reinserted [] :=
    .cons (.other [] rfl) (.cons (.other [] rfl) (.cons (.other [] rfl) (.cons taken
      (.cons given (.cons (.other [] rfl) (.nil _ _))))))
  exact ⟨handled, append_unreachable_iff handled⟩

/-- The insertion point behind a single block, empty but a dead end, is not called dead, and yet a
block appended there is unreachable. -/
theorem currentIsDead_overlooks :
    (initial.performAll [.append, .setDeadEnd ⟨2⟩ true]).currentIsDead = .ok false ∧
      ∃ result, (initial.performAll [.append, .setDeadEnd ⟨2⟩ true]).append = .ok result ∧
        result.2.isReachable result.1 = .ok false := by
  decide +kernel

end FlowGraph.Graph
