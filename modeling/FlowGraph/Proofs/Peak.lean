import FlowGraph.Proofs.Ledger
import Mathlib.Order.Bounds.Basic

/-! # How far the pool grows

A pool grows only when an edge comes while every slot is taken, and that edge takes the slot that is
new. So all slots are taken at each moment when it has grown, and it has as many of them as there
have been edges at one time: freeing slots twice, or slots that never were, wastes none. -/

namespace FlowGraph

/-! ## Edges at one time -/

namespace Ledger

theorem serveAll_concat (l : Ledger) (rs : List PoolRequest) (r : PoolRequest) :
    l.serveAll (rs ++ [r]) = (l.serveAll rs).serve r := by
  rw [serveAll, List.foldl_append]
  rfl

/-- How many edges there have been at the moments since the ledger was last cleared, if it begins
blank and `rs` is asked of it. -/
def counts (rs : List PoolRequest) : Set Nat :=
  {n | ∃ earlier later, rs = earlier ++ later ∧ PoolRequest.clear ∉ later ∧
    (blank.serveAll earlier).edges.keys.card = n}

variable {rs : List PoolRequest} {r : PoolRequest} {n : Nat}

theorem now_mem_counts (rs : List PoolRequest) :
    (blank.serveAll rs).edges.keys.card ∈ counts rs :=
  ⟨rs, [], (List.append_nil rs).symm, List.not_mem_nil, rfl⟩

theorem mem_counts_nil : n ∈ counts [] ↔ n = 0 := by
  constructor
  · rintro ⟨earlier, later, split, -, rfl⟩
    obtain ⟨rfl, -⟩ := List.append_eq_nil_iff.1 split.symm
    rfl
  · rintro rfl
    exact now_mem_counts []

theorem mem_counts_concat : n ∈ counts (rs ++ [r]) ↔
    n = ((blank.serveAll rs).serve r).edges.keys.card ∨ r ≠ .clear ∧ n ∈ counts rs := by
  constructor
  · rintro ⟨earlier, later, split, unspoiled, rfl⟩
    rcases List.eq_nil_or_concat later with rfl | ⟨later, r', rfl⟩
    · rw [← serveAll_concat, split, List.append_nil]
      exact .inl rfl
    · rw [List.concat_eq_append, List.mem_append, not_or, List.mem_singleton] at unspoiled
      rw [List.concat_eq_append, ← List.append_assoc] at split
      obtain ⟨rfl, last⟩ := List.append_inj' split rfl
      obtain rfl := List.singleton_inj.1 last
      exact .inr ⟨Ne.symm unspoiled.2, earlier, later, rfl, unspoiled.1, rfl⟩
  · rintro (rfl | ⟨kept, earlier, later, rfl, unspoiled, rfl⟩)
    · rw [← serveAll_concat]
      exact now_mem_counts _
    · refine ⟨earlier, later ++ [r], List.append_assoc .., ?_, rfl⟩
      rw [List.mem_append, not_or, List.mem_singleton]
      exact ⟨unspoiled, kept.symm⟩

end Ledger

namespace EdgePool

variable {p : EdgePool} {l : Ledger} {r : PoolRequest}

/-! ## One request -/

theorem capacity_insert (p : EdgePool) (edge : Edge) :
    (p.insert edge).capacity = if p.free = [] then p.capacity + 1 else p.capacity := by
  unfold insert capacity
  cases p.free <;> simp

theorem free_insert (p : EdgePool) (edge : Edge) : (p.insert edge).free = p.free.tail := by
  unfold insert
  cases p.free <;> rfl

theorem capacity_modify (p : EdgePool) (e : EdgeId) (f : Edge → Edge) :
    (p.modify e f).capacity = p.capacity := by
  simp [modify, capacity]

theorem InStep.card_le (inStep : InStep p l) : l.edges.keys.card ≤ p.capacity := by
  rw [← inStep.width_eq]
  exact Nat.le_add_right _ _

/-- A pool that has grown is full. -/
theorem InStep.capacity_alloc (inStep : InStep p l) (edge : Edge) :
    (p.insert edge).capacity = max p.capacity (l.serve (.alloc edge)).edges.keys.card := by
  have after : InStep (p.insert edge) (l.serve (.alloc edge)) := inStep.alloc edge
  have width := after.width_eq
  rw [Ledger.width, ← after.free, free_insert, capacity_insert] at width
  rw [capacity_insert]
  split
  case isTrue full =>
    rw [if_pos full, full, List.tail_nil, List.length_nil] at width
    omega
  case isFalse vacant =>
    rw [if_neg vacant] at width
    omega

theorem InStep.capacity_serve (inStep : InStep p l) (kept : r ≠ .clear) :
    (p.serve r).capacity = max p.capacity (l.serve r).edges.keys.card := by
  have bound := (inStep.serve r).card_le
  cases r with
  | alloc edge => exact inStep.capacity_alloc edge
  | dealloc e =>
    have same : (p.serve (.dealloc e)).capacity = p.capacity := capacity_dealloc e
    rw [same] at bound ⊢
    exact (max_eq_left bound).symm
  | modify e f =>
    have same : (p.serve (.modify e f)).capacity = p.capacity := p.capacity_modify e f
    rw [same] at bound ⊢
    exact (max_eq_left bound).symm
  | clear => exact absurd rfl kept

/-! ## Any number of requests -/

theorem serveAll_concat (p : EdgePool) (rs : List PoolRequest) (r : PoolRequest) :
    p.serveAll (rs ++ [r]) = (p.serveAll rs).serve r := by
  rw [serveAll, List.foldl_append]
  rfl

/-- A pool that begins empty has as many slots as there have been edges at one time since it was last
cleared. -/
theorem capacity_isGreatest (rs : List PoolRequest) :
    IsGreatest (Ledger.counts rs) (empty.serveAll rs).capacity := by
  induction rs using List.reverseRecOn with
  | nil => exact ⟨Ledger.mem_counts_nil.2 rfl, fun n member => (Ledger.mem_counts_nil.1 member).le⟩
  | append_singleton rs r ih =>
    rw [serveAll_concat]
    by_cases cleared : r = .clear
    · subst cleared
      refine ⟨Ledger.mem_counts_concat.2 (.inl rfl), fun n member => ?_⟩
      obtain rfl | ⟨kept, -⟩ := Ledger.mem_counts_concat.1 member
      · rfl
      · exact absurd rfl kept
    · rw [(inStep_blank.serveAll rs).capacity_serve cleared]
      refine ⟨Ledger.mem_counts_concat.2 ?_, fun n member => ?_⟩
      · rcases max_choice (empty.serveAll rs).capacity
          ((Ledger.blank.serveAll rs).serve r).edges.keys.card with grown | grown
        · exact .inr ⟨cleared, by rw [grown]; exact ih.1⟩
        · exact .inl grown
      · obtain rfl | ⟨-, before⟩ := Ledger.mem_counts_concat.1 member
        · exact le_max_right _ _
        · exact (ih.2 before).trans (le_max_left _ _)

end EdgePool

end FlowGraph
