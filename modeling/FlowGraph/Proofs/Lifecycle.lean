import FlowGraph.Proofs.Arrangement
import FlowGraph.Proofs.Emission

/-! # Blocks that have gone for good

A block that retires or is destroyed should not come back into the layout. Of a retired block this
is true: it stays retired, or is destroyed at some time. A destroyed block may come back. A client
that holds a detached run can destroy a block in the middle of it, and when it links the run in
again, only the first block is looked at and all of them become live. So a client that links in what
it has detached sees destroyed blocks stay destroyed if and only if it never links in a run with one
of them inside. -/

namespace FlowGraph

/-- The ends of the run that an operation links in. -/
def Operation.attached : Operation → Option (BlockId × BlockId)
  | attachAfter _ first last | attachBefore _ first last => some (first, last)
  | create | append | destroy _ | detach .. | push .. | replaceLast .. | setDeadEnd ..
  | bindLabel .. | setCatcher _ | setMeta .. | eraseMeta .. | connect .. | redirect ..
  | disconnect _ | disconnectAll | build | postorder | simplify _ => none

/-- The operation makes a run of detached blocks, or takes one. -/
def Operation.regroups : Operation → Bool
  | create | detach .. | attachAfter .. | attachBefore .. => true
  | append | destroy _ | push .. | replaceLast .. | setDeadEnd .. | bindLabel .. | setCatcher _
  | setMeta .. | eraseMeta .. | connect .. | redirect .. | disconnect _ | disconnectAll | build
  | postorder | simplify _ => false

namespace Graph

/-! ## Blocks that stand aside -/

section

variable {g g' g'' : Graph} {xs ms l r : List BlockId} {b p n first last : BlockId}

/-- A block that is neither live nor in `ms` has the links it had, and the status it had unless it
has been destroyed. -/
def Aside (ms : List BlockId) (g g' : Graph) : Prop :=
  ∀ b ∉ ms, ∀ data, g.block? b = some data → data.status ≠ .live →
    ∃ data', g'.block? b = some data' ∧ data'.prev = data.prev ∧ data'.next = data.next ∧
      (data'.status = data.status ∨ data'.status = .destroyed)

namespace Aside

theorem of_same (same : SameBlocks Block.standing g g') : Aside [] g g' := by
  intro b _ data found _
  obtain ⟨data', found', standing⟩ := same.exists_block found
  obtain ⟨status, links⟩ := Prod.mk.inj standing
  obtain ⟨prev, next⟩ := Prod.mk.inj links
  exact ⟨data', found', prev, next, .inl status⟩

theorem trans (first : Aside ms g g') (second : Aside [] g' g'') : Aside ms g g'' := by
  intro b outside data found notLive
  obtain ⟨data', found', prev', next', status'⟩ := first b outside data found notLive
  have notLive' : data'.status ≠ .live := by
    obtain same | destroyed := status'
    · rwa [same]
    · simp [destroyed]
  obtain ⟨data'', found'', prev'', next'', status''⟩ := second b (by simp) data' found' notLive'
  refine ⟨data'', found'', prev''.trans prev', next''.trans next', ?_⟩
  obtain same | destroyed := status''
  · rw [same]
    exact status'
  · exact .inr destroyed

/-- A block that was live, or is destroyed, may change as it likes if it keeps its links. -/
theorem modify (g : Graph) {f : Block → Block}
    (links : ∀ data, (f data).prev = data.prev ∧ (f data).next = data.next)
    (status : ∀ data, g.block? b = some data →
      data.status = .live ∨ (f data).status = .destroyed) : Aside [] g (g.modify b f) := by
  intro c _ data found notLive
  by_cases here : c = b
  · subst c
    refine ⟨f data, ?_, (links data).1, (links data).2, .inr ?_⟩
    · rw [block?_modify, if_pos rfl, found, Option.map_some]
    · exact (status data found).resolve_left notLive
  · refine ⟨data, ?_, rfl, rfl, .inl rfl⟩
    rw [block?_modify, if_neg here, found]

end Aside

/-! ### Operations on the layout -/

namespace Arranged

theorem not_mem (arranged : g.Arranged xs) {data : Block} (found : g.block? b = some data)
    (notLive : data.status ≠ .live) : b ∉ xs :=
  fun member => notLive (arranged.live_of_mem found member)

/-- Linking a run in touches the run and its two neighbours. -/
theorem aside_inserted (arranged : g.Arranged xs) (threaded : g.Threaded first last ms)
    (inserted : Inserted p n first last ms g g') (front : p ∈ xs) (back : n ∈ xs) :
    Aside ms g g' := by
  intro b outside data found notLive
  have apart := arranged.not_mem found notLive
  have notP : b ≠ p := (ne_of_mem_of_not_mem front apart).symm
  have notN : b ≠ n := (ne_of_mem_of_not_mem back apart).symm
  have notFirst : b ≠ first := (ne_of_mem_of_not_mem threaded.first_mem outside).symm
  have notLast : b ≠ last := (ne_of_mem_of_not_mem threaded.last_mem outside).symm
  have block := inserted.block b
  rw [found, Option.map_some, if_neg outside, if_neg notP, if_neg notN, if_neg notFirst,
    if_neg notLast] at block
  exact ⟨_, block, rfl, rfl, .inl rfl⟩

/-- Linking a run of the layout out touches live blocks only. -/
theorem aside_removed (arranged : g.Arranged xs) (removed : Removed p n first last ms g g')
    (within : ∀ c ∈ p :: n :: first :: last :: ms, c ∈ xs) : Aside [] g g' := by
  intro b _ data found notLive
  have apart := arranged.not_mem found notLive
  have notAny (c : BlockId) (member : c ∈ p :: n :: first :: last :: ms) : b ≠ c :=
    (ne_of_mem_of_not_mem (within c member) apart).symm
  have outside : b ∉ ms := fun inRun => notAny b (by simp [inRun]) rfl
  have block := removed.block b
  rw [found, Option.map_some, if_neg outside, if_neg (notAny first (by simp)),
    if_neg (notAny n (by simp)), if_neg (notAny last (by simp)),
    if_neg (notAny p (by simp))] at block
  exact ⟨_, block, rfl, rfl, .inl rfl⟩

end Arranged

/-! ### Operations that move no run -/

/-- The layout of `g'` is in order, and what stands aside in `g` has stayed aside. -/
structure Orderly (g g' : Graph) : Prop where
  arranged : ∃ xs, g'.Arranged xs
  aside : Aside [] g g'

namespace Orderly

theorem refl (arranged : g.Arranged xs) : Orderly g g :=
  ⟨⟨xs, arranged⟩, .of_same (.refl _ g)⟩

theorem of_same (orderly : Orderly g g') (same : SameBlocks Block.standing g' g'')
    (count : g''.liveCount = g'.liveCount) : Orderly g g'' := by
  obtain ⟨xs, arranged⟩ := orderly.arranged
  exact ⟨⟨xs, arranged.of_same same count⟩, orderly.aside.trans (.of_same same)⟩

theorem rewired (orderly : Orderly g g') (rewired : Rewired g' g'') : Orderly g g'' :=
  orderly.of_same (rewired.block.weaken Block.standing) rewired.globals.liveCount

/-- A live block leaves the layout by itself and takes another status. -/
theorem leave (orderly : Orderly g g') {g₁ : Graph} (ran : g'.detach b b = .ok g₁)
    {f : Block → Block} (links : ∀ data, ((f data).prev, (f data).next) = (data.prev, data.next))
    (notLive : ∀ data, (f data).status ≠ .live) : Orderly g (g₁.modify b f) := by
  obtain ⟨xs, arranged⟩ := orderly.arranged
  obtain ⟨_, ends, steps⟩ := bind_eq_ok.1 ran
  obtain ⟨data, found, -⟩ := bind_eq_ok.1 steps
  rw [block_eq_ok] at found
  obtain ⟨notEntry, notExit, live⟩ := live_of_detach ran found
  have member : b ∈ xs := (arranged.enrolled b data found).1 live
  obtain ⟨l, r, rfl⟩ := List.append_of_mem member
  have shape : l ++ b :: r = l ++ [b] ++ r := by simp
  have distinct := arranged.laid.nodup
  rw [shape] at arranged
  have removed : Yields (fun _ => True) (g'.detach b b) _ :=
    arranged.detach_removed rfl rfl (by simpa using notEntry.symm) (by simpa using notExit.symm)
  obtain ⟨p, front, n, back, removed, arranged'⟩ := removed.of_eq_ok ran
  have aside : Aside [] g' g₁ := by
    apply arranged.aside_removed removed
    simp [front, back]
  constructor
  case arranged =>
    have outside : b ∉ l ++ r := by
      simp only [List.nodup_append, List.nodup_cons, List.mem_append, List.mem_cons] at distinct ⊢
      grind
    exact ⟨l ++ r, arranged'.outside_modify outside links notLive⟩
  case aside =>
    apply orderly.aside.trans
    intro c _ data' found' notLive'
    have apart : c ≠ b := by
      rintro rfl
      rw [found] at found'
      cases found'
      exact notLive' live
    obtain ⟨data₁, found₁, kept⟩ := aside c (by simp) data' found' notLive'
    refine ⟨data₁, ?_, kept⟩
    rw [block?_modify, if_neg apart, found₁]

theorem retire_yields (orderly : Orderly g g') (b : BlockId) :
    Yields (fun _ => True) (g'.retire b) (Orderly g) := by
  apply (retire_yields_relaid g' b).mono
  intro g'' result
  obtain ⟨data, g₁, -, -, -, ran, -, result⟩ := result
  have left : Orderly g (g₁.modify b Block.spent) :=
    orderly.leave ran (fun _ => rfl) fun _ => by simp [Block.spent]
  rw [result]
  exact left.of_same (.refl _ _) rfl

/-- A block outside of the layout, or one that leaves it, loses all that it has. -/
theorem wipe (orderly : Orderly g g') {g₁ : Graph} (vacates : Vacates g' b g₁) :
    Orderly g (g₁.modify b Block.wiped) := by
  cases vacates with
  | outside found notLive =>
    obtain ⟨xs, arranged⟩ := orderly.arranged
    have outside : b ∉ xs := arranged.not_mem found notLive
    constructor
    · exact ⟨xs, arranged.outside_modify outside (fun _ => rfl) fun _ => by simp [Block.wiped]⟩
    · exact orderly.aside.trans (.modify g' (fun _ => ⟨rfl, rfl⟩) fun _ _ => .inr rfl)
  | detach ran => exact orderly.leave ran (fun _ => rfl) fun _ => by simp [Block.wiped]

theorem append_yields (orderly : Orderly g g') :
    Yields (fun _ => True) g'.append fun result => Orderly g result.2 := by
  obtain ⟨xs, arranged⟩ := orderly.arranged
  have created := arranged.create
  have loose := loose_create g'
  have found : g'.create.2.block? g'.create.1 = some .fresh := by rw [g'.block?_create, if_pos rfl]
  have notEntry : BlockId.exit ≠ .entry := by decide
  rw [arranged.laid.eq_dropLast_append] at created
  apply (created.attachBefore_inserted notEntry loose.idle found rfl).bind
  intro g'' ⟨p, front, inserted, arranged'⟩
  apply yields_pure
  have aside := created.aside_inserted loose.toThreaded inserted (by simp [front]) (by simp)
  constructor
  case arranged => exact ⟨_, arranged'⟩
  case aside =>
    apply orderly.aside.trans
    intro c _ data found' notLive
    -- the block that is new now was not there
    have old : c ≠ g'.create.1 := by
      rintro rfl
      rw [block?_create_self] at found'
      cases found'
    apply aside c (by simpa using old) data _ notLive
    rw [block?_create, if_neg old, found']

theorem change (change : Change g' g'') (orderly : Orderly g g') : Orderly g g'' := by
  obtain ⟨same, count⟩ | ⟨b, ran⟩ := change.steady
  · exact orderly.of_same (same.weaken Block.standing) count
  · exact (orderly.retire_yields b).of_eq_ok ran

theorem touch (touch : Touch g' g'') (orderly : Orderly g g') : Orderly g g'' := by
  cases touch with
  | change change => exact .change change orderly
  | mark bs marked =>
    have remarked := remarked_setMarks bs marked g'
    exact orderly.of_same (remarked.block.weaken Block.standing) remarked.globals.liveCount
  | reorder order => exact orderly.of_same (.refl _ g') rfl

theorem effect (orderly : Orderly g g') {op : Operation} (other : op.regroups = false)
    (effect : Effect g' op g'') : Orderly g g'' := by
  cases effect with
  | append ran => exact orderly.append_yields.of_eq_ok ran
  | destroy notEntry notExit vacates => exact orderly.wipe vacates
  | write inside writes =>
    exact orderly.of_same ((same_of_writes g' writes).weaken Block.standing) rfl
  | bind bound =>
    obtain rfl | ⟨-, -, data, -, rfl⟩ := bound
    · exact orderly
    · exact orderly.of_same (.modify _ _ fun _ => rfl) rfl
  | catcher l => exact orderly.of_same (.refl _ g') rfl
  | wire wires => exact orderly.rewired wires.rewired.1
  | search searches => exact searches.touches.keeps (Orderly g) touch orderly
  | move moves => cases moves <;> cases other
  | create => cases other

end Orderly

/-! ## Runs in the hands of a client -/

/-- A run outside the layout. Its blocks were all detached when it came about, but some may have
been destroyed since. -/
structure Held (g : Graph) (ms : List BlockId) : Prop where
  status : ∀ b ∈ ms, g.HasStatus b .detached ∨ g.HasStatus b .destroyed
  links : ms.IsChain g.Linked

/-- The layout is in order, and the client holds runs that have no block in common. -/
structure Custody (g : Graph) (runs : List (List BlockId)) : Prop where
  arranged : ∃ xs, g.Arranged xs
  held : ∀ ms ∈ runs, g.Held ms
  distinct : runs.flatten.Nodup

/-- The blocks that an operation links in. -/
def taken (g : Graph) (op : Operation) : List BlockId :=
  match op.apply g, op.attached with
  | .ok _, some (first, last) =>
    match g.run last (g.blockCount + 1) first [] with
    | .ok members => members
    | .error _ => []
  | _, _ => []

/-- A client detaches parts of the layout and links in runs that it holds. It may try what it likes
beside this if it is refused, and whatever moves no run. -/
inductive Handles (g : Graph) :
    List (List BlockId) → Operation → List (List BlockId) → Prop where
  | create (runs : List (List BlockId)) : Handles g runs .create ([g.create.1] :: runs)
  | detach (runs : List (List BlockId)) {l ms r : List BlockId} {first last : BlockId}
      (layout : g.layout = .ok (l ++ ms ++ r)) (head : ms.head? = some first)
      (tail : ms.getLast? = some last) (notEntry : .entry ∉ ms) (notExit : .exit ∉ ms) :
      Handles g runs (.detach first last) (ms :: runs)
  | attach (before after : List (List BlockId)) {ms : List BlockId} {op : Operation}
      {first last : BlockId} (names : op.attached = some (first, last))
      (head : ms.head? = some first) (tail : ms.getLast? = some last)
      (accepted : ∃ g', op.apply g = .ok g') :
      Handles g (before ++ ms :: after) op (before ++ after)
  | refused (runs : List (List BlockId)) {op : Operation} {f : Fault}
      (failed : op.apply g = .error f) : Handles g runs op runs
  | other (runs : List (List BlockId)) {op : Operation} (moves : op.regroups = false) :
      Handles g runs op runs

/-- A sequence of operations by which a client comes from some runs to others. -/
inductive Handled : Graph → List (List BlockId) → List Operation → List (List BlockId) → Prop where
  | nil (g : Graph) (runs : List (List BlockId)) : Handled g runs [] runs
  | cons {g : Graph} {runs runs₁ runs' : List (List BlockId)} {op : Operation}
      {ops : List Operation} (first : Handles g runs op runs₁)
      (rest : Handled (g.perform op) runs₁ ops runs') : Handled g runs (op :: ops) runs'

variable {runs runs' : List (List BlockId)} {op : Operation}

theorem HasStatus.live_iff_mem (arranged : g.Arranged xs) : g.HasStatus b .live ↔ b ∈ xs := by
  constructor
  · intro ⟨data, found, live⟩
    exact (arranged.enrolled b data found).1 live
  · intro member
    obtain ⟨data, found⟩ := arranged.laid.exists_block member
    exact ⟨data, found, arranged.live_of_mem found member⟩

namespace Held

theorem notLive (held : g.Held ms) (member : b ∈ ms) : ¬g.HasStatus b .live := by
  intro live
  obtain detached | destroyed := held.status b member
  · cases live.unique detached
  · cases live.unique destroyed

theorem idle (held : g.Held ms) (distinct : ms.Nodup) (head : ms.head? = some first)
    (tail : ms.getLast? = some last) : g.Idle first last ms := by
  have inside (b : BlockId) (member : b ∈ ms) : (g.block? b).isSome := by
    obtain ⟨data, found, -⟩ | ⟨data, found, -⟩ := held.status b member <;>
      exact Option.isSome_of_eq_some found
  exact ⟨⟨distinct, inside, head, tail, held.links⟩, fun b member => held.notLive member⟩

/-- A run that stands aside is held as before. -/
theorem aside {ms' : List BlockId} (held : g.Held ms) (aside : Aside ms' g g')
    (apart : ∀ b ∈ ms, b ∉ ms') : g'.Held ms := by
  have kept (b : BlockId) (member : b ∈ ms) : ∃ data data', g.block? b = some data ∧
      g'.block? b = some data' ∧ data'.prev = data.prev ∧ data'.next = data.next ∧
      (data'.status = data.status ∨ data'.status = .destroyed) := by
    have notLive := held.notLive member
    obtain ⟨data, found, _⟩ | ⟨data, found, _⟩ := held.status b member
    all_goals
      obtain ⟨data', found', kept⟩ := aside b (apart b member) data found
        fun live => notLive ⟨data, found, live⟩
      exact ⟨data, data', found, found', kept⟩
  constructor
  case status =>
    intro b member
    obtain ⟨data, data', found, found', -, -, status⟩ := kept b member
    obtain same | destroyed := status
    · have before := held.status b member
      simp only [HasStatus, found, found', Option.some.injEq, exists_eq_left', same] at before ⊢
      exact before
    · exact .inr ⟨data', found', destroyed⟩
  case links =>
    apply held.links.imp_of_mem_imp
    intro b c memberB memberC link
    obtain ⟨dataB, dataB', foundB, foundB', -, next, -⟩ := kept b memberB
    obtain ⟨dataC, dataC', foundC, foundC', prev, -, -⟩ := kept c memberC
    rw [Linked, next?_eq foundB, prev?_eq foundC] at link
    rw [Linked, next?_eq foundB', prev?_eq foundC', next, prev]
    exact link

end Held

/-! ### What one operation does -/

theorem taken_eq_nil (none : op.attached = none) : g.taken op = [] := by
  unfold taken
  rw [none]
  split <;> simp_all

theorem taken_of_error {f : Fault} (failed : op.apply g = .error f) : g.taken op = [] := by
  unfold taken
  rw [failed]

theorem taken_eq (accepted : op.apply g = .ok g') (names : op.attached = some (first, last))
    (threaded : g.Threaded first last ms) : g.taken op = ms := by
  unfold taken
  rw [accepted, names]
  simp only
  rw [threaded.run_eq (Nat.le_succ_of_le threaded.length_le)]
  rfl

theorem perform_eq (accepted : op.apply g = .ok g') : g.perform op = g' := by
  unfold perform
  rw [accepted]

theorem perform_of_error {f : Fault} (failed : op.apply g = .error f) : g.perform op = g := by
  unfold perform
  rw [failed]

theorem Inserted.live (inserted : Inserted p n first last ms g g')
    (threaded : g.Threaded first last ms) : ∀ b ∈ ms, g'.HasStatus b .live := by
  intro b member
  obtain ⟨data, found⟩ := Option.isSome_iff_exists.1 (threaded.inside b member)
  have block := inserted.block b
  rw [found, Option.map_some, if_pos member] at block
  exact ⟨_, block, rfl⟩

/-- An accepted attachment links the whole run in, though it looks only at its first block. -/
theorem Arranged.attach_accepted (arranged : g.Arranged xs) (idle : g.Idle first last ms)
    (names : op.attached = some (first, last)) (accepted : op.apply g = .ok g') :
    (∃ xs', g'.Arranged xs') ∧ Aside ms g g' ∧ ∀ b ∈ ms, g'.HasStatus b .live := by
  have live_mem {b : BlockId} {data : Block} (found : g.block b = .ok data)
      (live : data.status = .live) : b ∈ xs :=
    (arranged.enrolled b data (block_eq_ok.1 found)).1 live
  cases op with
  | attachAfter pivot first last =>
    cases names
    obtain ⟨_, place, steps⟩ := bind_eq_ok.1 accepted
    obtain ⟨data, foundP, steps⟩ := bind_eq_ok.1 steps
    obtain ⟨_, live, steps⟩ := bind_eq_ok.1 steps
    obtain ⟨head, foundFirst, steps⟩ := bind_eq_ok.1 steps
    obtain ⟨_, detached, -⟩ := bind_eq_ok.1 steps
    obtain ⟨l, r, rfl⟩ := List.append_of_mem (live_mem foundP (require_eq_ok.1 live))
    have result : Yields (fun _ => True) (g.attachAfter pivot first last) _ :=
      arranged.attachAfter_inserted (require_eq_ok.1 place) idle (block_eq_ok.1 foundFirst)
        (require_eq_ok.1 detached)
    obtain ⟨n, back, inserted, arranged'⟩ := result.of_eq_ok accepted
    exact ⟨⟨_, arranged'⟩,
      arranged.aside_inserted idle.toThreaded inserted (by simp) (by simp [back]),
      inserted.live idle.toThreaded⟩
  | attachBefore pivot first last =>
    cases names
    obtain ⟨_, place, steps⟩ := bind_eq_ok.1 accepted
    obtain ⟨data, foundN, steps⟩ := bind_eq_ok.1 steps
    obtain ⟨_, live, steps⟩ := bind_eq_ok.1 steps
    obtain ⟨head, foundFirst, steps⟩ := bind_eq_ok.1 steps
    obtain ⟨_, detached, -⟩ := bind_eq_ok.1 steps
    obtain ⟨l, r, rfl⟩ := List.append_of_mem (live_mem foundN (require_eq_ok.1 live))
    have result : Yields (fun _ => True) (g.attachBefore pivot first last) _ :=
      arranged.attachBefore_inserted (require_eq_ok.1 place) idle (block_eq_ok.1 foundFirst)
        (require_eq_ok.1 detached)
    obtain ⟨p, front, inserted, arranged'⟩ := result.of_eq_ok accepted
    exact ⟨⟨_, arranged'⟩,
      arranged.aside_inserted idle.toThreaded inserted (by simp [front]) (by simp),
      inserted.live idle.toThreaded⟩
  | create | append | destroy | detach | push | replaceLast | setDeadEnd | bindLabel | setCatcher
  | setMeta | eraseMeta | connect | redirect | disconnect | disconnectAll | build | postorder
  | simplify => cases names

/-- What there is after an operation by which a client comes from some runs to others. -/
structure Passed (g : Graph) (runs : List (List BlockId)) (op : Operation)
    (runs' : List (List BlockId)) : Prop where
  custody : (g.perform op).Custody runs'
  aside : Aside (g.taken op) g (g.perform op)
  revived : ∀ b ∈ g.taken op, b ∈ runs.flatten ∧ (g.perform op).HasStatus b .live
  fresh : ∀ b ∈ runs'.flatten, b ∈ runs.flatten ∨ g.HasStatus b .live ∨ g.block? b = none

namespace Custody

theorem held_of_mem (custody : g.Custody runs) (member : b ∈ runs.flatten) :
    g.HasStatus b .detached ∨ g.HasStatus b .destroyed := by
  obtain ⟨ms, held, inRun⟩ := List.mem_flatten.1 member
  exact (custody.held ms held).status b inRun

/-- A run that stands aside from all others comes into the hands of the client. -/
theorem take (custody : g.Custody runs) (aside : Aside [] g g') (arranged : ∃ xs, g'.Arranged xs)
    (held : g'.Held ms) (distinct : ms.Nodup) (apart : ∀ b ∈ ms, b ∉ runs.flatten) :
    g'.Custody (ms :: runs) := by
  constructor
  case arranged => exact arranged
  case held =>
    intro ms' member
    cases member with
    | head => exact held
    | tail _ member => exact (custody.held ms' member).aside aside (by simp)
  case distinct =>
    rw [List.flatten_cons, List.nodup_append]
    exact ⟨distinct, custody.distinct, fun b inRun c other same => apart b inRun (same ▸ other)⟩

theorem create (custody : g.Custody runs) : Passed g runs .create ([g.create.1] :: runs) := by
  have loose := loose_create g
  have none : g.taken .create = [] := taken_eq_nil rfl
  have aside : Aside [] g g.create.2 := by
    intro b _ data found _
    have old : b ≠ g.create.1 := by
      rintro rfl
      rw [block?_create_self] at found
      cases found
    exact ⟨data, by rw [block?_create, if_neg old, found], rfl, rfl, .inl rfl⟩
  have absent : g.create.1 ∉ runs.flatten := by
    intro member
    obtain ⟨data, found, -⟩ | ⟨data, found, -⟩ := custody.held_of_mem member <;>
      simp [block?_create_self] at found
  have held : g.create.2.Held [g.create.1] := by
    constructor
    case status =>
      intro b member
      obtain ⟨data, found⟩ := Option.isSome_iff_exists.1 (loose.inside b member)
      exact .inl ⟨data, found, loose.detached b member data found⟩
    case links => exact loose.links
  obtain ⟨xs, arranged⟩ := custody.arranged
  constructor
  case custody =>
    apply custody.take aside ⟨xs, arranged.create⟩ held (List.nodup_singleton _)
    intro b member
    rwa [List.mem_singleton.1 member]
  case aside => rwa [none]
  case revived => simp [none]
  case fresh =>
    intro b member
    rw [List.flatten_cons, List.mem_append, List.mem_singleton] at member
    obtain rfl | held := member
    · exact .inr (.inr (block?_create_self g))
    · exact .inl held

theorem detach (custody : g.Custody runs) (layout : g.layout = .ok (l ++ ms ++ r))
    (head : ms.head? = some first) (tail : ms.getLast? = some last) (notEntry : .entry ∉ ms)
    (notExit : .exit ∉ ms) : Passed g runs (.detach first last) (ms :: runs) := by
  obtain ⟨xs, arranged⟩ := custody.arranged
  obtain rfl : xs = l ++ ms ++ r := by
    rw [arranged.laid.layout_eq] at layout
    exact Except.ok.inj layout
  have threaded := arranged.threaded head tail
  have removal : Yields (fun _ => False) (g.detach first last) _ :=
    arranged.detach_removed head tail notEntry notExit
  obtain ⟨g', ran, p, front, n, back, removed, arranged'⟩ := removal.exists_ok
  have apart : p ∉ ms ∧ n ∉ ms := by
    have distinct := arranged.laid.nodup
    simp only [List.nodup_append, List.mem_append] at distinct
    grind
  have aside : Aside [] g g' := by
    apply arranged.aside_removed removed
    have firstIn := threaded.first_mem
    have lastIn := threaded.last_mem
    simp only [List.mem_cons, List.mem_append]
    grind
  have live (b : BlockId) (member : b ∈ ms) : g.HasStatus b .live :=
    (HasStatus.live_iff_mem arranged).2 (by simp [member])
  have unheld : ∀ b ∈ ms, b ∉ runs.flatten := by
    intro b inRun held
    obtain ⟨ms', member, inRun'⟩ := List.mem_flatten.1 held
    exact (custody.held ms' member).notLive inRun' (live b inRun)
  have held : g'.Held ms := by
    constructor
    case status =>
      intro b member
      obtain ⟨data, found⟩ := Option.isSome_iff_exists.1 (threaded.inside b member)
      have block := removed.block b
      rw [found, Option.map_some, if_pos member] at block
      exact .inl ⟨_, block, rfl⟩
    case links => exact (removed.threaded threaded apart).links
  have after : g.perform (.detach first last) = g' := perform_eq ran
  have none : g.taken (.detach first last) = [] := taken_eq_nil rfl
  constructor
  case custody =>
    rw [after]
    exact custody.take aside ⟨l ++ r, arranged'⟩ held threaded.nodup unheld
  case aside => rwa [none, after]
  case revived => simp [none]
  case fresh =>
    intro b member
    rw [List.flatten_cons, List.mem_append] at member
    obtain inRun | held := member
    · exact .inr (.inl (live b inRun))
    · exact .inl held

theorem attach {before after : List (List BlockId)} (custody : g.Custody (before ++ ms :: after))
    (names : op.attached = some (first, last)) (head : ms.head? = some first)
    (tail : ms.getLast? = some last) (accepted : op.apply g = .ok g') :
    Passed g (before ++ ms :: after) op (before ++ after) := by
  have distinct := custody.distinct
  simp only [List.flatten_append, List.flatten_cons, List.nodup_append, List.mem_append] at distinct
  have held := custody.held ms (by simp)
  have idle := held.idle distinct.2.1.1 head tail
  obtain ⟨xs, arranged⟩ := custody.arranged
  obtain ⟨arranged', aside, live⟩ := arranged.attach_accepted idle names accepted
  have run := taken_eq accepted names idle.toThreaded
  have result : g.perform op = g' := perform_eq accepted
  constructor
  case custody =>
    rw [result]
    constructor
    case arranged => exact arranged'
    case held =>
      intro ms' member
      have heldBefore : ms' ∈ before ++ ms :: after := by
        simp only [List.mem_append, List.mem_cons] at member ⊢
        grind
      apply (custody.held ms' heldBefore).aside aside
      intro b inRun inTaken
      rw [List.mem_append] at member
      obtain earlier | later := member
      · exact distinct.2.2 b (List.mem_flatten_of_mem earlier inRun) b (.inl inTaken) rfl
      · exact distinct.2.1.2.2 b inTaken b (List.mem_flatten_of_mem later inRun) rfl
    case distinct =>
      rw [List.flatten_append, List.nodup_append]
      exact ⟨distinct.1, distinct.2.1.2.1, fun b one c other => distinct.2.2 b one c (.inr other)⟩
  case aside => rwa [run, result]
  case revived =>
    rw [run, result]
    exact fun b member => ⟨by simp [member], live b member⟩
  case fresh =>
    intro b member
    left
    simp only [List.flatten_append, List.flatten_cons, List.mem_append] at member ⊢
    grind

/-- An operation that moves no run, or is refused. -/
theorem keep (custody : g.Custody runs) (orderly : Orderly g (g.perform op))
    (none : g.taken op = []) : Passed g runs op runs := by
  constructor
  case custody =>
    exact ⟨orderly.arranged, fun ms member =>
      (custody.held ms member).aside orderly.aside (by simp), custody.distinct⟩
  case aside =>
    rw [none]
    exact orderly.aside
  case revived => simp [none]
  case fresh => exact fun b member => .inl member

theorem passed (custody : g.Custody runs) (handles : Handles g runs op runs') :
    Passed g runs op runs' := by
  obtain ⟨xs, arranged⟩ := custody.arranged
  cases handles with
  | create => exact custody.create
  | detach runs layout head tail notEntry notExit =>
    exact custody.detach layout head tail notEntry notExit
  | attach before after names head tail accepted =>
    obtain ⟨g', accepted⟩ := accepted
    exact custody.attach names head tail accepted
  | refused runs failed =>
    apply custody.keep _ (taken_of_error failed)
    rw [perform_of_error failed]
    exact .refl arranged
  | other runs moves =>
    have start : Orderly g g := .refl arranged
    apply custody.keep (perform_of_effect start fun _ => start.effect moves)
    apply taken_eq_nil
    cases op <;> first | rfl | cases moves

end Custody

/-! ## Whole runs of operations -/

/-- The block has gone, and no client holds it in a run. -/
structure Departed (g : Graph) (runs : List (List BlockId)) (b : BlockId) : Prop where
  gone : g.HasStatus b .retired ∨ g.HasStatus b .destroyed
  unheld : b ∉ runs.flatten

/-- A block that has gone and was not linked in is still gone. -/
theorem Aside.gone (aside : Aside ms g g') (outside : b ∉ ms)
    (gone : g.HasStatus b .retired ∨ g.HasStatus b .destroyed) :
    (g'.HasStatus b .retired ∧ g.HasStatus b .retired) ∨ g'.HasStatus b .destroyed := by
  obtain ⟨data, found, status⟩ | ⟨data, found, status⟩ := gone
  all_goals
    obtain ⟨data', found', -, -, same | destroyed⟩ :=
      aside b outside data found (by simp [status])
  · exact .inl ⟨⟨data', found', same.trans status⟩, data, found, status⟩
  · exact .inr ⟨data', found', destroyed⟩
  · exact .inr ⟨data', found', same.trans status⟩
  · exact .inr ⟨data', found', destroyed⟩

theorem Passed.departed (passed : Passed g runs op runs') (departed : g.Departed runs b) :
    (g.perform op).Departed runs' b := by
  constructor
  case gone =>
    have outside : b ∉ g.taken op := fun taken => departed.unheld (passed.revived b taken).1
    exact (passed.aside.gone outside departed.gone).imp_left And.left
  case unheld =>
    intro member
    obtain held | live | absent := passed.fresh b member
    · exact departed.unheld held
    · obtain retired | destroyed := departed.gone
      · cases live.unique retired
      · cases live.unique destroyed
    · obtain ⟨data, found, -⟩ | ⟨data, found, -⟩ := departed.gone <;>
        simp [absent] at found

/-- An operation links in no destroyed block. -/
def SparesDestroyed (g : Graph) (op : Operation) : Prop :=
  ∀ b ∈ g.taken op, ¬g.HasStatus b .destroyed

/-- Destroyed blocks stay destroyed in one step exactly if none is linked in. -/
theorem Passed.stays_destroyed_iff (passed : Passed g runs op runs') :
    (∀ b, g.HasStatus b .destroyed → (g.perform op).HasStatus b .destroyed) ↔
      g.SparesDestroyed op := by
  constructor
  · intro stays b taken destroyed
    cases (stays b destroyed).unique (passed.revived b taken).2
  · intro spares b destroyed
    have outside : b ∉ g.taken op := fun taken => spares b taken destroyed
    obtain ⟨-, retired⟩ | result := passed.aside.gone outside (.inr destroyed)
    · cases destroyed.unique retired
    · exact result

namespace Handled

variable {before after ops : List Operation}

theorem split (handled : Handled g runs (before ++ after) runs') :
    ∃ runs₁, Handled g runs before runs₁ ∧ Handled (g.performAll before) runs₁ after runs' := by
  induction before generalizing g runs with
  | nil => exact ⟨runs, .nil g runs, handled⟩
  | cons op before ih =>
    cases handled with
    | cons first rest =>
      obtain ⟨runs₁, front, back⟩ := ih rest
      exact ⟨runs₁, .cons first front, back⟩

theorem custody (handled : Handled g runs ops runs') :
    g.Custody runs → (g.performAll ops).Custody runs' := by
  induction handled with
  | nil => exact id
  | cons first _ ih => exact fun custody => ih (custody.passed first).custody

theorem departed (handled : Handled g runs ops runs') : g.Custody runs → g.Departed runs b →
    (g.performAll ops).Departed runs' b := by
  induction handled with
  | nil => exact fun _ => id
  | cons first _ ih =>
    intro custody departed
    have passed := custody.passed first
    exact ih passed.custody (passed.departed departed)

theorem stays_destroyed (handled : Handled g runs ops runs') : g.Custody runs →
    Throughout SparesDestroyed g ops → g.HasStatus b .destroyed →
      (g.performAll ops).HasStatus b .destroyed := by
  induction handled with
  | nil => exact fun _ _ => id
  | cons first _ ih =>
    intro custody spares destroyed
    have passed := custody.passed first
    exact ih passed.custody spares.2 (passed.stays_destroyed_iff.2 spares.1 b destroyed)

end Handled

theorem custody_initial : initial.Custody [] :=
  ⟨⟨_, arranged_initial⟩, by simp, List.nodup_nil⟩

end

/-- What holds from each state of a run to each later one. -/
def Along (R : Graph → Graph → Prop) (g : Graph) (ops : List Operation) : Prop :=
  ∀ before between after, ops = before ++ between ++ after →
    R (g.performAll before) (g.performAll (before ++ between))

/-- In every state the layout consists of the live blocks. A block that has retired stays so or is
destroyed, whatever comes. Blocks once destroyed stay destroyed if and only if no operation links in
a run with one of them inside. -/
theorem handled_stays_gone_iff {ops : List Operation} {runs : List (List BlockId)}
    (handled : Handled initial [] ops runs) :
    (∀ before after, ops = before ++ after → ∃ xs, (initial.performAll before).layout = .ok xs ∧
      ∀ b, b ∈ xs ↔ (initial.performAll before).HasStatus b .live) ∧
    Along (fun g g' => ∀ b, g.HasStatus b .retired →
      g'.HasStatus b .retired ∨ g'.HasStatus b .destroyed) initial ops ∧
    (Along (fun g g' => ∀ b, g.HasStatus b .destroyed → g'.HasStatus b .destroyed) initial ops ↔
      Throughout SparesDestroyed initial ops) := by
  have joined (before between : List Operation) : initial.performAll (before ++ between) =
      (initial.performAll before).performAll between := List.foldl_append ..
  refine ⟨?layout, ?retired, ?destroyed⟩
  case layout =>
    rintro before after rfl
    obtain ⟨runs₁, front, -⟩ := handled.split
    obtain ⟨xs, arranged⟩ := (front.custody custody_initial).arranged
    exact ⟨xs, arranged.laid.layout_eq, fun b => (HasStatus.live_iff_mem arranged).symm⟩
  case retired =>
    rintro before between after rfl b retired
    obtain ⟨runs₂, most, -⟩ := handled.split
    obtain ⟨runs₁, front, back⟩ := most.split
    have custody := front.custody custody_initial
    have unheld : b ∉ runs₁.flatten := by
      intro held
      obtain detached | destroyed := custody.held_of_mem held
      · cases retired.unique detached
      · cases retired.unique destroyed
    rw [joined]
    exact (back.departed custody ⟨.inl retired, unheld⟩).gone
  case destroyed =>
    constructor
    · intro along
      rw [throughout_iff]
      rintro before op after rfl
      obtain ⟨runs₁, front, back⟩ := handled.split
      cases back with
      | cons first _ =>
        have passed := (front.custody custody_initial).passed first
        apply passed.stays_destroyed_iff.1
        have step := along before [op] after (by simp)
        rwa [joined] at step
    · rintro spares before between after rfl b destroyed
      obtain ⟨runs₂, most, -⟩ := handled.split
      obtain ⟨runs₁, front, back⟩ := most.split
      rw [joined]
      apply back.stays_destroyed (front.custody custody_initial) _ destroyed
      rw [throughout_iff] at spares ⊢
      rintro before' op after' rfl
      have ok := spares (before ++ before') op (after' ++ after) (by simp)
      rwa [joined] at ok

instance (g : Graph) (b : BlockId) (s : Status) : Decidable (g.HasStatus b s) :=
  decidable_of_iff ((g.block? b).any (·.status = s)) (by
    cases found : g.block? b <;> simp [HasStatus, found])

instance (g : Graph) (op : Operation) : Decidable (g.SparesDestroyed op) :=
  inferInstanceAs (Decidable (∀ b ∈ g.taken op, ¬g.HasStatus b .destroyed))

/-- Two of three blocks are detached, the third is destroyed, and the two come back. Being empty,
they are merged into exit and retire, and one of them is destroyed at last. -/
def parting : List Operation :=
  [.append, .append, .append, .detach ⟨2⟩ ⟨3⟩, .destroy ⟨4⟩, .attachAfter .entry ⟨2⟩ ⟨3⟩, .build,
    .simplify .standard, .destroy ⟨2⟩]

theorem handled_parting_stays_gone : Handled initial [] parting [] ∧
    Along (fun g g' => ∀ b, g.HasStatus b .retired →
      g'.HasStatus b .retired ∨ g'.HasStatus b .destroyed) initial parting ∧
    Along (fun g g' => ∀ b, g.HasStatus b .destroyed → g'.HasStatus b .destroyed)
      initial parting := by
  have taken : Handles (initial.performAll (parting.take 3)) [] (.detach ⟨2⟩ ⟨3⟩) [[⟨2⟩, ⟨3⟩]] :=
    .detach [] (l := [.entry]) (r := [⟨4⟩, .exit]) (by decide +kernel) rfl rfl (by decide)
      (by decide)
  have given : Handles (initial.performAll (parting.take 5)) [[⟨2⟩, ⟨3⟩]]
      (.attachAfter .entry ⟨2⟩ ⟨3⟩) [] := by
    obtain ⟨g', accepted, -⟩ : ∃ g', (Operation.attachAfter .entry ⟨2⟩ ⟨3⟩).apply
        (initial.performAll (parting.take 5)) = .ok g' ∧ True := by decide +kernel
    exact .attach [] [] rfl rfl rfl ⟨g', accepted⟩
  have handled : Handled initial [] parting [] :=
    .cons (.other [] rfl) (.cons (.other [] rfl) (.cons (.other [] rfl) (.cons taken
      (.cons (.other [[⟨2⟩, ⟨3⟩]] rfl) (.cons given (.cons (.other [] rfl) (.cons (.other [] rfl)
        (.cons (.other [] rfl) (.nil _ _)))))))))
  obtain ⟨-, retired, destroyed⟩ := handled_stays_gone_iff handled
  exact ⟨handled, retired, destroyed.2 (by decide +kernel)⟩

/-- Three blocks are detached, the one in the middle is destroyed, and the run comes back. -/
def revival : List Operation :=
  [.append, .append, .append, .detach ⟨2⟩ ⟨4⟩, .destroy ⟨3⟩, .attachAfter .entry ⟨2⟩ ⟨4⟩]

/-- The destroyed block is live again. -/
theorem attach_revives_destroyed : Handled initial [] revival [] ∧
    (initial.performAll (revival.take 5)).HasStatus ⟨3⟩ .destroyed ∧
    (initial.performAll revival).HasStatus ⟨3⟩ .live ∧
    (initial.performAll revival).layout = .ok [.entry, ⟨2⟩, ⟨3⟩, ⟨4⟩, .exit] := by
  have taken : Handles (initial.performAll (revival.take 3)) [] (.detach ⟨2⟩ ⟨4⟩)
      [[⟨2⟩, ⟨3⟩, ⟨4⟩]] :=
    .detach [] (l := [.entry]) (r := [.exit]) (by decide +kernel) rfl rfl (by decide) (by decide)
  have given : Handles (initial.performAll (revival.take 5)) [[⟨2⟩, ⟨3⟩, ⟨4⟩]]
      (.attachAfter .entry ⟨2⟩ ⟨4⟩) [] := by
    obtain ⟨g', accepted, -⟩ : ∃ g', (Operation.attachAfter .entry ⟨2⟩ ⟨4⟩).apply
        (initial.performAll (revival.take 5)) = .ok g' ∧ True := by decide +kernel
    exact .attach [] [] rfl rfl rfl ⟨g', accepted⟩
  have handled : Handled initial [] revival [] :=
    .cons (.other [] rfl) (.cons (.other [] rfl) (.cons (.other [] rfl) (.cons taken
      (.cons (.other [[⟨2⟩, ⟨3⟩, ⟨4⟩]] rfl) (.cons given (.nil _ _))))))
  exact ⟨handled, by decide +kernel, by decide +kernel, by decide +kernel⟩

end Graph

end FlowGraph
