import FlowGraph.Proofs.Consistency

/-! # The pool of edges as a finite map

A pool is sound if its stack of vacant slots holds every vacant slot once and no other. Then the slot
that the next edge takes is vacant, so that an edge that comes takes the place of none, and there
are as many edges in the pool as its size says. Every change of a pool keeps it sound. -/

namespace FlowGraph.EdgePool

structure Sound (p : EdgePool) : Prop where
  distinct : p.free.Nodup
  mem_free : ∀ e, e ∈ p.free ↔ e.index < p.capacity ∧ p.get? e = none

variable {p : EdgePool}

theorem index_lt_of_get? {e : EdgeId} {edge : Edge} (stored : p.get? e = some edge) :
    e.index < p.capacity :=
  (Array.getElem?_eq_some_iff.1 (Option.join_eq_some_iff.1 stored)).1

theorem get?_of_le {e : EdgeId} (outside : p.capacity ≤ e.index) : p.get? e = none := by
  rw [get?, Array.getElem?_eq_none outside]
  rfl

/-! ## An edge that comes -/

theorem Sound.get?_nextSlot (sound : p.Sound) : p.get? p.nextSlot = none := by
  unfold nextSlot
  cases stack : p.free with
  | nil => exact get?_of_le le_rfl
  | cons e rest => exact ((sound.mem_free e).1 (by simp [stack])).2

theorem Sound.get?_insert (sound : p.Sound) (edge : Edge) (e : EdgeId) :
    (p.insert edge).get? e = if e = p.nextSlot then some edge else p.get? e := by
  obtain ⟨i⟩ := e
  unfold insert nextSlot
  cases stack : p.free with
  | nil =>
    simp only [get?, Array.getElem?_push, List.headD_nil, EdgeId.mk.injEq]
    by_cases last : i = p.slots.size <;> simp [last]
  | cons e rest =>
    have inside : e.index < p.slots.size := ((sound.mem_free e).1 (by simp [stack])).1
    obtain ⟨j⟩ := e
    simp only [get?, Array.getElem?_setIfInBounds, List.headD_cons, EdgeId.mk.injEq,
      eq_comm (a := j)]
    by_cases here : i = j
    · subst i
      simp [inside]
    · simp [here]

theorem Sound.insert (sound : p.Sound) (edge : Edge) : (p.insert edge).Sound := by
  have stored := sound.get?_insert edge
  refine ⟨?_, fun e => ?_⟩
  · unfold EdgePool.insert
    cases stack : p.free with
    | nil => exact List.nodup_nil
    | cons e rest => exact (List.nodup_cons.1 (stack ▸ sound.distinct)).2
  · rw [stored]
    have free := sound.mem_free e
    unfold EdgePool.insert nextSlot
    cases stack : p.free with
    | nil =>
      -- every slot there was is taken, and the new one is too
      rw [stack] at free
      obtain ⟨i⟩ := e
      simp only [capacity, List.not_mem_nil, false_iff, not_and, Array.size_push,
        List.headD_nil, EdgeId.mk.injEq] at free ⊢
      grind
    | cons e' rest =>
      have fresh := (List.nodup_cons.1 (stack ▸ sound.distinct)).1
      rw [stack, List.mem_cons] at free
      simp only [capacity, Array.size_setIfInBounds, List.headD_cons] at free ⊢
      by_cases here : e = e'
      · subst e
        simp [fresh]
      · simpa [here] using free

/-! ## Other changes -/

theorem sound_empty : empty.Sound := by
  refine ⟨List.nodup_nil, fun e => ?_⟩
  simp [empty, capacity]

@[simp] theorem capacity_dealloc (e : EdgeId) : (p.dealloc e).capacity = p.capacity := by
  unfold dealloc
  split <;> simp [capacity]

theorem Sound.dealloc (sound : p.Sound) (e : EdgeId) : (p.dealloc e).Sound := by
  cases stored : p.get? e with
  | none => simpa [EdgePool.dealloc, stored] using sound
  | some edge =>
    have free : (p.dealloc e).free = e :: p.free := by simp [EdgePool.dealloc, stored]
    have fresh : e ∉ p.free := by simp [sound.mem_free, stored]
    refine ⟨?_, fun e' => ?_⟩
    · rw [free]
      exact List.nodup_cons.2 ⟨fresh, sound.distinct⟩
    · rw [free, List.mem_cons, sound.mem_free, capacity_dealloc, get?_dealloc]
      have inside := index_lt_of_get? stored
      by_cases here : e' = e
      · simp [here, inside]
      · simp [here]

theorem Sound.modify (sound : p.Sound) (e : EdgeId) (f : Edge → Edge) : (p.modify e f).Sound := by
  refine ⟨sound.distinct, fun e' => ?_⟩
  rw [get?_modify]
  change e' ∈ p.free ↔ _
  rw [sound.mem_free]
  by_cases here : e' = e <;> simp [here, capacity, EdgePool.modify]

@[simp] theorem size_modify (p : EdgePool) (e : EdgeId) (f : Edge → Edge) :
    (p.modify e f).size = p.size := by
  simp [size, modify]

theorem size_dealloc_le (p : EdgePool) (e : EdgeId) : (p.dealloc e).size ≤ p.size := by
  unfold dealloc
  split
  · simp only [size, Array.size_setIfInBounds, List.length_cons]
    omega
  · exact le_rfl

/-! ## Counting edges -/

/-- The edges are listed by ascending slot. -/
theorem sorted_entries (p : EdgePool) :
    p.entries.Pairwise fun one other => one.1.index < other.1.index := by
  have slots : (p.slots.toList.zipIdx.map Prod.snd).Pairwise (· < ·) := by
    rw [List.zipIdx_map_snd]
    exact List.pairwise_lt_range' 1
  refine (List.pairwise_map.1 slots).filterMap _ fun one other less b here c there => ?_
  simp only [Option.map_eq_some_iff] at here there
  obtain ⟨_, -, rfl⟩ := here
  obtain ⟨_, -, rfl⟩ := there
  exact less

theorem nodup_entries (p : EdgePool) : (p.entries.map Prod.fst).Nodup := by
  refine List.pairwise_map.2 (p.sorted_entries.imp fun less same => ?_)
  rw [same] at less
  exact lt_irrefl _ less

theorem mem_entries_fst {e : EdgeId} :
    e ∈ p.entries.map Prod.fst ↔ ∃ edge, p.get? e = some edge := by
  simp [mem_entries]

/-- Every slot is either taken or on the stack. -/
theorem Sound.length_entries (sound : p.Sound) :
    p.entries.length + p.free.length = p.capacity := by
  have apart : (p.entries.map Prod.fst ++ p.free).Nodup := by
    refine List.nodup_append.2 ⟨p.nodup_entries, sound.distinct, fun e taken e' vacant same => ?_⟩
    obtain ⟨edge, stored⟩ := mem_entries_fst.1 taken
    rw [same, ((sound.mem_free e').1 vacant).2] at stored
    cases stored
  have all : ((List.range p.capacity).map EdgeId.mk).Nodup :=
    List.nodup_range.map fun i j same => by cases same; rfl
  have together : (p.entries.map Prod.fst ++ p.free).Perm ((List.range p.capacity).map EdgeId.mk) := by
    refine (List.perm_ext_iff_of_nodup apart all).2 fun e => ?_
    rw [List.mem_append, mem_entries_fst, sound.mem_free]
    obtain ⟨i⟩ := e
    simp only [List.mem_map, List.mem_range, EdgeId.mk.injEq, exists_eq_right]
    cases stored : p.get? ⟨i⟩ with
    | none => simp
    | some edge => simpa using index_lt_of_get? stored
  simpa using together.length_eq

theorem Sound.size_eq (sound : p.Sound) : p.size = p.entries.length := by
  have count := sound.length_entries
  unfold capacity at count
  unfold size
  omega

end FlowGraph.EdgePool
