import FlowGraph.Proofs.Arrangement

/-! # Linking out and in again

A run that leaves the layout takes its inner links along, and its old neighbours are linked with each
other. So all that linking it in between them writes is what linking it out has taken away, and the
graph is the one it was, down to every block; only a postorder that was cached is not found again.
The other way round two links are lost for good: those by which a detached run led on to other
blocks, before it was linked in. Which of the two neighbours a run is linked in at makes no
difference at all. -/

namespace FlowGraph.Graph

/-- Graphs whose blocks look the same, one by one, and that agree in everything else. -/
theorem eq_of_block? {g g' : Graph} (block : ∀ c, g'.block? c = g.block? c)
    (edges : g'.edges = g.edges) (liveCount : g'.liveCount = g.liveCount)
    (retired : g'.retired = g.retired) (labels : g'.labels = g.labels)
    (order : g'.order = g.order) (catcher : g'.catcher = g.catcher) : g' = g := by
  have blocks : g'.blocks = g.blocks := Array.ext_getElem? fun i => block ⟨i⟩
  cases g
  cases g'
  simp_all

/-- The run from `first` to `last` leads nowhere at either end, and no order is kept. -/
def unhook (g : Graph) (first last : BlockId) : Graph :=
  { (g.modify first ({ · with prev := none })).modify last ({ · with next := none }) with
    order := none }

theorem block?_unhook (g : Graph) (first last c : BlockId) :
    (g.unhook first last).block? c = (g.block? c).map fun data =>
      data.relink (if c = first then none else data.prev)
        (if c = last then none else data.next) := by
  change ((g.modify first _).modify last _).block? c = _
  simp only [block?_modify_eq_map, Option.map_map, Function.comp_def, Block.setPrev_ite,
    Block.setNext_ite]
  rfl

section

variable {g g₁ g₂ : Graph} {xs ms l r : List BlockId} {p n first last : BlockId}

/-! ## One change after the other -/

/-- What becomes of a graph when a run is linked in does not depend on the way it is done. -/
theorem Inserted.unique (one : Inserted p n first last ms g g₁)
    (other : Inserted p n first last ms g g₂) : g₂ = g₁ := by
  apply eq_of_block?
  · intro c
    rw [one.block, other.block]
  · rw [one.edges, other.edges]
  · rw [one.liveCount, other.liveCount]
  · rw [one.retired, other.retired]
  · rw [one.labels, other.labels]
  · rw [one.order, other.order]
  · rw [one.catcher, other.catcher]

/-- What is left of a change by one that overwrites it. -/
theorem Removed.inserted_block (removed : Removed p n first last ms g g₁)
    (inserted : Inserted p n first last ms g₁ g₂) (c : BlockId) :
    g₂.block? c = (g.block? c).map fun data =>
      { data with
        status := if c ∈ ms then .live else data.status
        prev := if c = n then some last else if c = first then some p else data.prev
        next := if c = p then some first else if c = last then some n else data.next } := by
  rw [inserted.block, removed.block, Option.map_map]
  congr 1
  funext data
  simp only [Function.comp_apply, Block.mk.injEq, true_and, and_true]
  grind

theorem Inserted.removed_block (inserted : Inserted p n first last ms g g₁)
    (removed : Removed p n first last ms g₁ g₂) (c : BlockId) :
    g₂.block? c = (g.block? c).map fun data =>
      { data with
        status := if c ∈ ms then .detached else data.status
        prev := if c = first then none else if c = n then some p else data.prev
        next := if c = last then none else if c = p then some n else data.next } := by
  rw [removed.block, inserted.block, Option.map_map]
  congr 1
  funext data
  simp only [Function.comp_apply, Block.mk.injEq, true_and, and_true]
  grind

theorem Removed.inserted_eq (removed : Removed p n first last ms g g₁)
    (inserted : Inserted p n first last ms g₁ g₂) (front : g.Linked p first)
    (back : g.Linked last n) (live : ∀ b ∈ ms, ∀ data, g.block? b = some data → data.status = .live)
    (counted : ms.length ≤ g.liveCount) : g₂ = { g with order := none } := by
  apply eq_of_block?
  case block =>
    intro c
    rw [removed.inserted_block inserted]
    change _ = g.block? c
    cases found : g.block? c with
    | none => rfl
    | some data =>
      rw [Option.map_some, Option.some.injEq]
      -- what is written is what the run and its neighbours had
      have status : (if c ∈ ms then .live else data.status) = data.status := by
        split
        · exact (live c ‹_› data found).symm
        · rfl
      have prev : (if c = n then some last else if c = first then some p else data.prev) =
          data.prev := by
        rw [← prev?_eq found]
        split
        · subst c
          exact back.2.symm
        · split
          · subst c
            exact front.2.symm
          · rfl
      have next : (if c = p then some first else if c = last then some n else data.next) =
          data.next := by
        rw [← next?_eq found]
        split
        · subst c
          exact front.1.symm
        · split
          · subst c
            exact back.1.symm
          · rfl
      rw [status, prev, next]
  case edges => rw [inserted.edges, removed.edges]
  case liveCount =>
    rw [inserted.liveCount, removed.liveCount]
    exact Nat.sub_add_cancel counted
  case retired => rw [inserted.retired, removed.retired]
  case labels => rw [inserted.labels, removed.labels]
  case order => exact inserted.order
  case catcher => rw [inserted.catcher, removed.catcher]

theorem Inserted.removed_eq (inserted : Inserted p n first last ms g g₁)
    (removed : Removed p n first last ms g₁ g₂) (link : g.Linked p n)
    (detached : ∀ b ∈ ms, ∀ data, g.block? b = some data → data.status = .detached) :
    g₂ = g.unhook first last := by
  apply eq_of_block?
  case block =>
    intro c
    rw [inserted.removed_block removed, block?_unhook]
    cases found : g.block? c with
    | none => rfl
    | some data =>
      rw [Option.map_some, Option.map_some, Option.some.injEq]
      have status : (if c ∈ ms then .detached else data.status) = data.status := by
        split
        · exact (detached c ‹_› data found).symm
        · rfl
      -- the two neighbours lead to each other again
      have prev : (if c = n then some p else data.prev) = data.prev := by
        rw [← Graph.prev?_eq found]
        split
        · subst c
          exact link.2.symm
        · rfl
      have next : (if c = p then some n else data.next) = data.next := by
        rw [← Graph.next?_eq found]
        split
        · subst c
          exact link.1.symm
        · rfl
      rw [status, prev, next]
      rfl
  case edges => exact removed.edges.trans inserted.edges
  case liveCount =>
    rw [removed.liveCount, inserted.liveCount]
    exact Nat.add_sub_cancel ..
  case retired => exact removed.retired.trans inserted.retired
  case labels => exact removed.labels.trans inserted.labels
  case order => exact removed.order
  case catcher => exact removed.catcher.trans inserted.catcher

/-! ## Operations -/

theorem Removed.loose (removed : Removed p n first last ms g g₁)
    (threaded : g.Threaded first last ms) (apart : p ∉ ms ∧ n ∉ ms) : g₁.Loose first last ms := by
  refine ⟨removed.threaded threaded apart, fun b member data₁ found₁ => ?_⟩
  rw [removed.block, Option.map_eq_some_iff] at found₁
  obtain ⟨data, -, rfl⟩ := found₁
  exact if_pos member

namespace Arranged

theorem detach_attach (arranged : g.Arranged (l ++ p :: (ms ++ n :: r)))
    (head : ms.head? = some first) (tail : ms.getLast? = some last) (notEntry : .entry ∉ ms) :
    ∃ g₁, g.detach first last = .ok g₁ ∧
      g₁.attachAfter p first last = .ok { g with order := none } ∧
      g₁.attachBefore n first last = .ok { g with order := none } := by
  obtain ⟨threaded, apart, counted⟩ := arranged.threaded_between head tail
  obtain ⟨front, back⟩ := arranged.linked_neighbours head tail
  have live : ∀ b ∈ ms, ∀ data, g.block? b = some data → data.status = .live := by
    intro b member data found
    exact arranged.live_of_mem found (by simp [member])
  obtain ⟨g₁, left, removed, arranged₁⟩ :=
    (arranged.detach_between head tail notEntry).exists_ok
  have loose := removed.loose threaded apart
  obtain ⟨data, found⟩ := Option.isSome_iff_exists.1 (loose.inside first loose.first_mem)
  have detached := loose.detached first loose.first_mem data found
  obtain ⟨g₂, after, inserted, -⟩ :=
    (arranged₁.attachAfter_between loose.idle found detached).exists_ok
  obtain ⟨g₃, before, inserted', -⟩ :=
    (arranged₁.attachBefore_between loose.idle found detached).exists_ok
  rw [removed.inserted_eq inserted front back live counted] at after
  rw [removed.inserted_eq inserted' front back live counted] at before
  exact ⟨g₁, left, after, before⟩

theorem attach_detach (arranged : g.Arranged (l ++ p :: n :: r)) (loose : g.Loose first last ms) :
    ∃ g₁, g.attachAfter p first last = .ok g₁ ∧ g.attachBefore n first last = .ok g₁ ∧
      g₁.detach first last = .ok (g.unhook first last) := by
  obtain ⟨data, found⟩ := Option.isSome_iff_exists.1 (loose.inside first loose.first_mem)
  have detached := loose.detached first loose.first_mem data found
  have notEntry : .entry ∉ ms := fun member =>
    arranged.disjoint loose.idle _ member arranged.laid.entry_mem
  obtain ⟨g₁, after, inserted, arranged₁⟩ :=
    (arranged.attachAfter_between loose.idle found detached).exists_ok
  obtain ⟨g₂, before, inserted', -⟩ :=
    (arranged.attachBefore_between loose.idle found detached).exists_ok
  rw [inserted.unique inserted'] at before
  obtain ⟨g₃, left, removed, -⟩ :=
    (arranged₁.detach_between loose.head loose.tail notEntry).exists_ok
  rw [inserted.removed_eq removed (arranged.laid.linked rfl) loose.detached] at left
  exact ⟨g₁, after, before, left⟩

end Arranged

/-- In a layout, a run without sentinels can be linked out, and linked in again at either of its old
neighbours, and the graph is the one it was but for a cached order. A detached run can be linked in
behind any block but exit or in front of the block that follows, which is the same, and linked out
again, and the graph is the one it was but for a cached order and the two links that led out of the
run. -/
theorem detach_attach_inverse (arranged : g.Arranged xs) :
    (∀ l ms r first last, xs = l ++ ms ++ r → ms.head? = some first → ms.getLast? = some last →
      .entry ∉ ms → .exit ∉ ms → ∃ p n g₁, l.getLast? = some p ∧ r.head? = some n ∧
        g.detach first last = .ok g₁ ∧
        g₁.attachAfter p first last = .ok { g with order := none } ∧
        g₁.attachBefore n first last = .ok { g with order := none }) ∧
    ∀ q ∈ xs, q ≠ .exit → ∀ ms first last, g.Loose first last ms → ∃ n g₁,
      g.next? q = some n ∧ g.attachAfter q first last = .ok g₁ ∧
      g.attachBefore n first last = .ok g₁ ∧
      g₁.detach first last = .ok (g.unhook first last) := by
  constructor
  · intro l ms r first last split head tail notEntry notExit
    rw [split] at arranged
    obtain ⟨⟨l, p, rfl⟩, n, r, rfl⟩ := arranged.exists_neighbours head tail notEntry notExit
    have shape : l ++ [p] ++ ms ++ n :: r = l ++ p :: (ms ++ n :: r) := by simp
    rw [shape] at arranged
    obtain ⟨g₁, result⟩ := arranged.detach_attach head tail notEntry
    exact ⟨p, n, g₁, by simp, rfl, result⟩
  · intro q member inner ms first last loose
    obtain ⟨l, n, r, rfl⟩ := arranged.laid.exists_behind member inner
    obtain ⟨g₁, result⟩ := arranged.attach_detach loose
    exact ⟨n, g₁, (arranged.laid.linked rfl).1, result⟩

end

/-- Five blocks come, and the first four of them leave the layout again as one run. -/
def uncoupled : Graph :=
  initial.performAll [.append, .append, .append, .append, .append, .detach ⟨2⟩ ⟨5⟩]

/-- The two blocks in the middle of the run that has left are a run themselves, which still leads to
the other two. -/
theorem detach_attach_uncoupled :
    uncoupled.Arranged [.entry, ⟨6⟩, .exit] ∧ uncoupled.Loose ⟨3⟩ ⟨4⟩ [⟨3⟩, ⟨4⟩] ∧
      (∃ p n g₁, [BlockId.entry].getLast? = some p ∧ [BlockId.exit].head? = some n ∧
        uncoupled.detach ⟨6⟩ ⟨6⟩ = .ok g₁ ∧
        g₁.attachAfter p ⟨6⟩ ⟨6⟩ = .ok { uncoupled with order := none } ∧
        g₁.attachBefore n ⟨6⟩ ⟨6⟩ = .ok { uncoupled with order := none }) ∧
      ∃ n g₁, uncoupled.next? ⟨6⟩ = some n ∧ uncoupled.attachAfter ⟨6⟩ ⟨3⟩ ⟨4⟩ = .ok g₁ ∧
        uncoupled.attachBefore n ⟨3⟩ ⟨4⟩ = .ok g₁ ∧
        g₁.detach ⟨3⟩ ⟨4⟩ = .ok (uncoupled.unhook ⟨3⟩ ⟨4⟩) := by
  have edits : Edits initial [.entry, .exit]
      [.append, .append, .append, .append, .append, .detach ⟨2⟩ ⟨5⟩] [.entry, ⟨6⟩, .exit] := by
    refine .cons (.append [.entry]) (.cons (.append [.entry, ⟨2⟩])
      (.cons (.append [.entry, ⟨2⟩, ⟨3⟩]) (.cons (.append [.entry, ⟨2⟩, ⟨3⟩, ⟨4⟩])
      (.cons (.append [.entry, ⟨2⟩, ⟨3⟩, ⟨4⟩, ⟨5⟩]) (.cons ?_ (.nil _ _))))))
    exact .detach [.entry] [⟨2⟩, ⟨3⟩, ⟨4⟩, ⟨5⟩] [⟨6⟩, .exit] rfl rfl (by decide) (by decide)
  have arranged : uncoupled.Arranged [.entry, ⟨6⟩, .exit] := .performAll edits arranged_initial
  have threaded : uncoupled.Threaded ⟨3⟩ ⟨4⟩ [⟨3⟩, ⟨4⟩] :=
    ⟨by decide, by decide +kernel, rfl, rfl,
      .cons_cons ⟨by decide +kernel, by decide +kernel⟩ (.singleton _)⟩
  have loose : uncoupled.Loose ⟨3⟩ ⟨4⟩ [⟨3⟩, ⟨4⟩] := ⟨threaded, by decide +kernel⟩
  obtain ⟨out, back⟩ := detach_attach_inverse arranged
  exact ⟨arranged, loose,
    out [.entry] [⟨6⟩] [.exit] ⟨6⟩ ⟨6⟩ rfl rfl rfl (by decide) (by decide),
    back ⟨6⟩ (by decide) (by decide) [⟨3⟩, ⟨4⟩] ⟨3⟩ ⟨4⟩ loose⟩

end FlowGraph.Graph
