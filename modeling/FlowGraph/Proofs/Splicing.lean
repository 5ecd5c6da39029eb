import FlowGraph.Proofs.Coherence

/-! # Runs that come and go

A run of blocks keeps its inner links wherever it goes. To link it in or out, four links are set: the
two at its ends and those by which its neighbours lead to it or to each other. Then the operation
goes along the run, over links it may just have set, to change the status of each block and to
count them. What has become of every block can be said at once, whether the run is one block or many
and wherever it stands. -/

namespace FlowGraph

namespace Block

def relink (d : Block) (prev next : Option BlockId) : Block :=
  { d with prev := prev, next := next }

section

variable (d : Block) (o : Option BlockId) (p : Prop) [Decidable p]

theorem setPrev_ite : (if p then { d with prev := o } else d) =
    { d with prev := if p then o else d.prev } := by
  split <;> rfl

theorem setNext_ite : (if p then { d with next := o } else d) =
    { d with next := if p then o else d.next } := by
  split <;> rfl

end

end Block

namespace Graph

/-! ## Blocks with other neighbours -/

section

variable {c p n x y : BlockId} {g g' : Graph}

/-- `y` has been put behind `p`, whatever has been put in front of `n`. -/
theorem next?_relinked (block : g'.block? c = (g.block? c).map fun data =>
      data.relink (if c = n then some x else data.prev) (if c = p then some y else data.next))
    (inside : (g.block? p).isSome) : g'.next? c = if c = p then some y else g.next? c := by
  rw [next?, block]
  by_cases here : c = p
  · subst c
    obtain ⟨data, found⟩ := Option.isSome_iff_exists.1 inside
    simp [found, Block.relink]
  · cases found : g.block? c <;> simp [next?, found, here, Block.relink]

theorem prev?_relinked (block : g'.block? c = (g.block? c).map fun data =>
      data.relink (if c = n then some x else data.prev) (if c = p then some y else data.next))
    (inside : (g.block? n).isSome) : g'.prev? c = if c = n then some x else g.prev? c := by
  rw [prev?, block]
  by_cases here : c = n
  · subst c
    obtain ⟨data, found⟩ := Option.isSome_iff_exists.1 inside
    simp [found, Block.relink]
  · cases found : g.block? c <;> simp [prev?, found, here, Block.relink]

end

/-! ## Following a run -/

/-- The links lead through the blocks of `ms`, from `first` to `last`. -/
structure Threaded (g : Graph) (first last : BlockId) (ms : List BlockId) : Prop where
  nodup : ms.Nodup
  inside : ∀ b ∈ ms, (g.block? b).isSome
  head : ms.head? = some first
  tail : ms.getLast? = some last
  links : ms.IsChain g.Linked

namespace Threaded

variable {g g' : Graph} {first last : BlockId} {ms : List BlockId}

theorem self {b : BlockId} (inside : (g.block? b).isSome) : g.Threaded b b [b] :=
  ⟨List.nodup_singleton b, by simpa using inside, rfl, rfl, .singleton b⟩

theorem first_mem (threaded : g.Threaded first last ms) : first ∈ ms :=
  List.mem_of_mem_head? threaded.head

theorem last_mem (threaded : g.Threaded first last ms) : last ∈ ms :=
  List.mem_of_getLast? threaded.tail

/-- The links that lead into the run and out of it play no part. -/
theorem relink (threaded : g.Threaded first last ms) {front back : BlockId → Block → Option BlockId}
    (block : ∀ c, g'.block? c = (g.block? c).map fun data =>
      data.relink (front c data) (back c data))
    (prev : ∀ c ∈ ms, c ≠ first → ∀ data, front c data = data.prev)
    (next : ∀ c ∈ ms, c ≠ last → ∀ data, back c data = data.next) :
    g'.Threaded first last ms := by
  refine ⟨threaded.nodup, fun c member => ?_, threaded.head, threaded.tail,
    isChain_relink threaded.links threaded.nodup (fun c member inner => ?_)
      fun c member inner => ?_⟩
  · rw [block, Option.isSome_map]
    exact threaded.inside c member
  · have notLast : c ≠ last := by
      rintro rfl
      exact inner threaded.tail
    rw [next?, next?, block, Option.bind_map]
    congr 1
    funext data
    exact next c member notLast data
  · have notFirst : c ≠ first := by
      rintro rfl
      exact inner threaded.head
    rw [prev?, prev?, block, Option.bind_map]
    congr 1
    funext data
    exact prev c member notFirst data

theorem run_eq (threaded : g.Threaded first last ms) {n : Nat} (enough : ms.length ≤ n)
    (met : List BlockId) : g.run last n first met = .ok (met.reverse ++ ms) := by
  induction ms generalizing first n met with
  | nil => cases threaded.head
  | cons b ms ih =>
    obtain ⟨distinct, inside, head, tail, links⟩ := threaded
    cases head
    obtain ⟨n, rfl⟩ := Nat.exists_eq_add_one_of_ne_zero (Nat.ne_zero_of_lt enough)
    obtain ⟨data, found⟩ := Option.isSome_iff_exists.1 (inside b (List.mem_cons_self ..))
    rw [run, block_bind found]
    cases ms with
    | nil =>
      have atLast : b = last := Option.some.inj tail
      rw [if_pos atLast]
      simp [pure, Except.pure]
    | cons c ms =>
      rw [List.isChain_cons_cons] at links
      obtain ⟨fresh, distinct⟩ := List.nodup_cons.1 distinct
      rw [List.getLast?_cons_cons] at tail
      have inner : b ≠ last := by
        rintro rfl
        exact fresh (List.mem_of_getLast? tail)
      have next : data.next = some c := (next?_eq found).symm.trans links.1.1
      have rest : g.Threaded c last (c :: ms) :=
        ⟨distinct, fun d member => inside d (List.mem_cons_of_mem b member), rfl, tail, links.2⟩
      rw [if_neg inner, next]
      simpa using ih rest (Nat.le_of_succ_le_succ enough) (b :: met)

theorem length_le (threaded : g.Threaded first last ms) : ms.length ≤ g.blockCount :=
  length_le_blockCount threaded.nodup threaded.inside

end Threaded

/-! ## Status and count -/

theorem block?_modifyAll (bs : List BlockId) {f : Block → Block}
    (settled : ∀ data, f (f data) = f data) : ∀ (g : Graph) (c : BlockId),
      (g.modifyAll bs f).block? c =
        (g.block? c).map fun data => if c ∈ bs then f data else data := by
  induction bs with
  | nil =>
    intro g c
    simp [modifyAll]
  | cons b bs ih =>
    intro g c
    change ((g.modify b f).modifyAll bs f).block? c = _
    rw [ih, block?_modify_eq_map, Option.map_map]
    congr 1
    funext data
    by_cases here : c = b
    · by_cases again : c ∈ bs <;> simp [← here, again, settled]
    · simp [here]

/-- Only blocks change. -/
theorem modifyAll_eq (bs : List BlockId) (f : Block → Block) : ∀ g : Graph,
    g.modifyAll bs f = { g with blocks := (g.modifyAll bs f).blocks } := by
  induction bs with
  | nil => exact fun _ => rfl
  | cons b bs ih => exact fun g => ih (g.modify b f)

section

variable {allowed : Fault → Prop} {g : Graph} {first last : BlockId} {ms : List BlockId}

/-- What is left of an operation on a run once its links have been set: the blocks of the run take
the status, and the others count as they did. -/
structure Enrolled (status : Status) (count : Nat) (ms : List BlockId) (g g' : Graph) : Prop where
  block : ∀ c, g'.block? c = (g.block? c).map fun data =>
    { data with status := if c ∈ ms then status else data.status }
  edges : g'.edges = g.edges
  liveCount : g'.liveCount = count
  retired : g'.retired = g.retired
  labels : g'.labels = g.labels
  order : g'.order = none
  catcher : g'.catcher = g.catcher

theorem enrolled_modifyAll (status : Status) (count : Nat) (ms : List BlockId) (g : Graph) :
    Enrolled status count ms g { g.modifyAll ms ({ · with status := status }) with
      liveCount := count, order := none } := by
  have block (c : BlockId) := block?_modifyAll ms (f := ({ · with status := status }))
    (fun _ => rfl) g c
  rw [modifyAll_eq] at block ⊢
  refine ⟨fun c => ?_, rfl, rfl, rfl, rfl, rfl, rfl⟩
  refine (block c).trans ?_
  congr 1
  funext data
  split <;> rfl

theorem Threaded.enlist_yields (threaded : g.Threaded first last ms)
    (counted : g.liveCount + ms.length < g.countLimit ∨ allowed .countOverflow) :
    Yields allowed (g.enlist first last) (Enrolled .live (g.liveCount + ms.length) ms g) := by
  rw [enlist, threaded.run_eq (Nat.le_succ_of_le threaded.length_le), ok_bind]
  exact (require_yields_or counted).bind fun _ _ => yields_pure (enrolled_modifyAll _ _ _ _)

theorem Threaded.discharge_yields (threaded : g.Threaded first last ms)
    (counted : ms.length ≤ g.liveCount) :
    Yields allowed (g.discharge first last)
      (Enrolled .detached (g.liveCount - ms.length) ms g) := by
  rw [discharge, threaded.run_eq (Nat.le_succ_of_le threaded.length_le), ok_bind]
  exact (require_yields_or (.inl counted)).bind fun _ _ => yields_pure (enrolled_modifyAll _ _ _ _)

end

/-! ## Linking in -/

/-- The run `ms`, from `first` to `last`, has been linked in between `p` and `n`. -/
structure Inserted (p n first last : BlockId) (ms : List BlockId) (g g' : Graph) : Prop where
  block : ∀ c, g'.block? c = (g.block? c).map fun data =>
    { data with
      status := if c ∈ ms then .live else data.status
      prev := if c = n then some last else if c = first then some p else data.prev
      next := if c = p then some first else if c = last then some n else data.next }
  edges : g'.edges = g.edges
  liveCount : g'.liveCount = g.liveCount + ms.length
  retired : g'.retired = g.retired
  labels : g'.labels = g.labels
  order : g'.order = none
  catcher : g'.catcher = g.catcher

section

variable {allowed : Fault → Prop} {g g' g₁ : Graph} {p n first last : BlockId} {ms : List BlockId}

theorem Inserted.next?_eq (inserted : Inserted p n first last ms g g') (inside : (g.block? p).isSome)
    (insideLast : (g.block? last).isSome) (c : BlockId) :
    g'.next? c = if c = p then some first else if c = last then some n else g.next? c := by
  rw [next?, inserted.block]
  cases found : g.block? c with
  | none =>
    have notP : c ≠ p := by
      rintro rfl
      simp [found] at inside
    have notLast : c ≠ last := by
      rintro rfl
      simp [found] at insideLast
    simp [notP, notLast, next?, found]
  | some data => simp [next?, found]

theorem Inserted.prev?_eq (inserted : Inserted p n first last ms g g') (inside : (g.block? n).isSome)
    (insideFirst : (g.block? first).isSome) (c : BlockId) :
    g'.prev? c = if c = n then some last else if c = first then some p else g.prev? c := by
  rw [prev?, inserted.block]
  cases found : g.block? c with
  | none =>
    have notN : c ≠ n := by
      rintro rfl
      simp [found] at inside
    have notFirst : c ≠ first := by
      rintro rfl
      simp [found] at insideFirst
    simp [notN, notFirst, prev?, found]
  | some data => simp [prev?, found]

theorem LaidOut.inserted {l r : List BlockId} (laid : g.LaidOut (l ++ p :: n :: r))
    (threaded : g.Threaded first last ms) (distinct : (l ++ p :: (ms ++ n :: r)).Nodup)
    (inserted : Inserted p n first last ms g g') : g'.LaidOut (l ++ p :: (ms ++ n :: r)) := by
  have inside {b : BlockId} (member : b ∈ l ++ p :: n :: r) : (g.block? b).isSome :=
    Option.isSome_iff_exists.2 (laid.exists_block member)
  refine laid.splice threaded.links threaded.head threaded.tail distinct
    (inserted.next?_eq (inside (by simp)) (threaded.inside _ threaded.last_mem))
    (inserted.prev?_eq (inside (by simp)) (threaded.inside _ threaded.first_mem)) ?_
  rw [inserted.block, Option.isSome_map]
  exact laid.closed

/-- Whichever of the four links is set first, the run is entered once they are set. -/
theorem Threaded.inserted_yields (threaded : g.Threaded first last ms) (apart : p ∉ ms ∧ n ∉ ms)
    (block : ∀ c, g₁.block? c = (g.block? c).map fun data =>
      data.relink (if c = n then some last else if c = first then some p else data.prev)
        (if c = p then some first else if c = last then some n else data.next))
    (edges : g₁.edges = g.edges) (globals : SameGlobals g g₁)
    (counted : g.liveCount + ms.length < g₁.countLimit ∨ allowed .countOverflow) :
    Yields allowed (g₁.enlist first last) (Inserted p n first last ms g) := by
  have threaded₁ : g₁.Threaded first last ms := by
    refine threaded.relink block (fun c member inner data => ?_) fun c member inner data => ?_
    · rw [if_neg (ne_of_mem_of_not_mem member apart.2), if_neg inner]
    · rw [if_neg (ne_of_mem_of_not_mem member apart.1), if_neg inner]
  rw [← globals.liveCount] at counted
  apply (threaded₁.enlist_yields counted).mono
  intro g' enrolled
  refine ⟨fun c => ?_, enrolled.edges.trans edges, ?_, enrolled.retired.trans globals.retired,
    enrolled.labels.trans globals.labels, enrolled.order, enrolled.catcher.trans globals.catcher⟩
  · rw [enrolled.block, block, Option.map_map]
    rfl
  · rw [enrolled.liveCount, globals.liveCount]

theorem Threaded.attachAfter_yields (threaded : g.Threaded first last ms) (link : g.Linked p n)
    (apart : p ∉ ms ∧ n ∉ ms) {place head : Block} (foundP : g.block? p = some place)
    (foundFirst : g.block? first = some head)
    (may : p ≠ .exit ∧ place.status = .live ∧ head.status = .detached ∨
      allowed (.cannotAttachAfter p first last))
    (counted : g.liveCount + ms.length < g.countLimit ∨ allowed .countOverflow) :
    Yields allowed (g.attachAfter p first last) (Inserted p n first last ms g) := by
  obtain ⟨_, foundN, -⟩ := exists_of_prev? link.2
  have next : place.next = some n := (next?_eq foundP).symm.trans link.1
  have insideLast := threaded.inside last threaded.last_mem
  unfold attachAfter
  refine (require_yields_or (may.imp_left And.left)).bind fun _ _ => ?_
  rw [block_bind foundP]
  refine (require_yields_or (may.imp_left fun may => may.2.1)).bind fun _ _ => ?_
  rw [block_bind foundFirst]
  refine (require_yields_or (may.imp_left fun may => may.2.2)).bind fun _ _ => ?_
  rw [next]
  simp only
  rw [update_bind (by simp [foundFirst]), update_bind (by simpa using insideLast),
    update_bind (by simp [foundN]), update_bind (by simp [foundP])]
  generalize relinked : Graph.modify _ p _ = g₁
  refine threaded.inserted_yields apart (fun c => ?block) ?edges ?globals ?counted
  case block =>
    simp only [← relinked, block?_modify_eq_map, Option.map_map, Function.comp_def,
      Block.setPrev_ite, Block.setNext_ite]
    rfl
  case edges => simp [← relinked]
  case globals => constructor <;> simp [← relinked]
  case counted => simpa [← relinked, countLimit] using counted

theorem Threaded.attachBefore_yields (threaded : g.Threaded first last ms) (link : g.Linked p n)
    (apart : p ∉ ms ∧ n ∉ ms) {place head : Block} (foundN : g.block? n = some place)
    (foundFirst : g.block? first = some head)
    (may : n ≠ .entry ∧ place.status = .live ∧ head.status = .detached ∨
      allowed (.cannotAttachBefore n first last))
    (counted : g.liveCount + ms.length < g.countLimit ∨ allowed .countOverflow) :
    Yields allowed (g.attachBefore n first last) (Inserted p n first last ms g) := by
  obtain ⟨_, foundP, -⟩ := exists_of_next? link.1
  have prev : place.prev = some p := (prev?_eq foundN).symm.trans link.2
  have insideLast := threaded.inside last threaded.last_mem
  unfold attachBefore
  refine (require_yields_or (may.imp_left And.left)).bind fun _ _ => ?_
  rw [block_bind foundN]
  refine (require_yields_or (may.imp_left fun may => may.2.1)).bind fun _ _ => ?_
  rw [block_bind foundFirst]
  refine (require_yields_or (may.imp_left fun may => may.2.2)).bind fun _ _ => ?_
  rw [prev]
  simp only
  rw [update_bind (by simp [foundFirst]), update_bind (by simpa using insideLast),
    update_bind (by simp [foundP]), update_bind (by simp [foundN])]
  generalize relinked : Graph.modify _ n _ = g₁
  refine threaded.inserted_yields apart (fun c => ?block) ?edges ?globals ?counted
  case block =>
    simp only [← relinked, block?_modify_eq_map, Option.map_map, Function.comp_def,
      Block.setPrev_ite, Block.setNext_ite]
    rfl
  case edges => simp [← relinked]
  case globals => constructor <;> simp [← relinked]
  case counted => simpa [← relinked, countLimit] using counted

end

/-! ## Linking out -/

/-- The run `ms`, from `first` to `last`, has been linked out from between `p` and `n`. -/
structure Removed (p n first last : BlockId) (ms : List BlockId) (g g' : Graph) : Prop where
  block : ∀ c, g'.block? c = (g.block? c).map fun data =>
    { data with
      status := if c ∈ ms then .detached else data.status
      prev := if c = first then none else if c = n then some p else data.prev
      next := if c = last then none else if c = p then some n else data.next }
  edges : g'.edges = g.edges
  liveCount : g'.liveCount = g.liveCount - ms.length
  retired : g'.retired = g.retired
  labels : g'.labels = g.labels
  order : g'.order = none
  catcher : g'.catcher = g.catcher

section

variable {allowed : Fault → Prop} {g g' : Graph} {p n first last : BlockId} {ms : List BlockId}

/-- Outside the run, only its two neighbours lead elsewhere. -/
theorem Removed.relinked (removed : Removed p n first last ms g g')
    (threaded : g.Threaded first last ms) {c : BlockId} (outside : c ∉ ms) :
    g'.block? c = (g.block? c).map fun data =>
      data.relink (if c = n then some p else data.prev) (if c = p then some n else data.next) := by
  have notFirst : c ≠ first := (ne_of_mem_of_not_mem threaded.first_mem outside).symm
  have notLast : c ≠ last := (ne_of_mem_of_not_mem threaded.last_mem outside).symm
  rw [removed.block]
  simp only [if_neg notFirst, if_neg notLast, if_neg outside]
  rfl

/-- A run keeps its inner links when it is linked out. -/
theorem Removed.threaded (removed : Removed p n first last ms g g')
    (threaded : g.Threaded first last ms) (apart : p ∉ ms ∧ n ∉ ms) :
    g'.Threaded first last ms := by
  constructor
  case nodup => exact threaded.nodup
  case head => exact threaded.head
  case tail => exact threaded.tail
  case inside =>
    intro b member
    rw [removed.block, Option.isSome_map]
    exact threaded.inside b member
  case links =>
    apply isChain_relink threaded.links threaded.nodup
    · intro c member inner
      have notLast : c ≠ last := fun same => inner (same ▸ threaded.tail)
      have notP : c ≠ p := ne_of_mem_of_not_mem member apart.1
      rw [next?, next?, removed.block, Option.bind_map]
      congr 1
      funext data
      simp only [Function.comp_apply, if_neg notLast, if_neg notP]
    · intro c member inner
      have notFirst : c ≠ first := fun same => inner (same ▸ threaded.head)
      have notN : c ≠ n := ne_of_mem_of_not_mem member apart.2
      rw [prev?, prev?, removed.block, Option.bind_map]
      congr 1
      funext data
      simp only [Function.comp_apply, if_neg notFirst, if_neg notN]

theorem LaidOut.removed {l r : List BlockId} (laid : g.LaidOut (l ++ p :: (ms ++ n :: r)))
    (threaded : g.Threaded first last ms) (removed : Removed p n first last ms g g') :
    g'.LaidOut (l ++ p :: n :: r) := by
  have inside {b : BlockId} (member : b ∈ l ++ p :: (ms ++ n :: r)) : (g.block? b).isSome :=
    Option.isSome_iff_exists.2 (laid.exists_block member)
  refine laid.bypass
    (fun c outside => next?_relinked (removed.relinked threaded outside) (inside (by simp)))
    (fun c outside => prev?_relinked (removed.relinked threaded outside) (inside (by simp))) ?_
  rw [removed.block, Option.isSome_map]
  exact laid.closed

theorem Threaded.detach_yields (threaded : g.Threaded first last ms)
    (front : g.Linked p first) (back : g.Linked last n) (apart : p ∉ ms ∧ n ∉ ms)
    (ends : first ≠ .entry ∧ last ≠ .exit) {head : Block} (foundFirst : g.block? first = some head)
    (counted : ms.length ≤ g.liveCount)
    (live : head.status = .live ∨ allowed (.cannotDetach first last)) :
    Yields allowed (g.detach first last) (Removed p n first last ms g) := by
  obtain ⟨_, foundP, -⟩ := exists_of_next? front.1
  obtain ⟨_, foundN, -⟩ := exists_of_prev? back.2
  obtain ⟨tail, foundLast⟩ := Option.isSome_iff_exists.1 (threaded.inside last threaded.last_mem)
  have prev : head.prev = some p := (prev?_eq foundFirst).symm.trans front.2
  have next : tail.next = some n := (next?_eq foundLast).symm.trans back.1
  rw [detach, require_bind ends, block_bind foundFirst]
  refine (require_yields_or live).bind fun _ _ => ?_
  rw [block_bind foundLast, prev, next]
  simp only
  rw [update_bind (by simp [foundP]), update_bind (by simp [foundN]),
    update_bind (by simp [foundFirst]), update_bind (by simp [foundLast])]
  generalize relinked : Graph.modify _ last _ = g₁
  have block (c : BlockId) : g₁.block? c = (g.block? c).map fun data =>
      data.relink (if c = first then none else if c = n then some p else data.prev)
        (if c = last then none else if c = p then some n else data.next) := by
    simp only [← relinked, block?_modify_eq_map, Option.map_map, Function.comp_def,
      Block.setPrev_ite, Block.setNext_ite]
    rfl
  have threaded₁ : g₁.Threaded first last ms := by
    refine threaded.relink block (fun c member inner data => ?_) fun c member inner data => ?_
    · rw [if_neg inner, if_neg (ne_of_mem_of_not_mem member apart.2)]
    · rw [if_neg inner, if_neg (ne_of_mem_of_not_mem member apart.1)]
  have globals : SameGlobals g g₁ := by constructor <;> simp [← relinked]
  have edges : g₁.edges = g.edges := by simp [← relinked]
  rw [← globals.liveCount] at counted
  apply (threaded₁.discharge_yields counted).mono
  intro g' enrolled
  refine ⟨fun c => ?_, enrolled.edges.trans edges, ?_, enrolled.retired.trans globals.retired,
    enrolled.labels.trans globals.labels, enrolled.order, enrolled.catcher.trans globals.catcher⟩
  · rw [enrolled.block, block, Option.map_map]
    rfl
  · rw [enrolled.liveCount, globals.liveCount]

end

end Graph

end FlowGraph
