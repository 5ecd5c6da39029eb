import FlowGraph.Label.Table
import Mathlib.Algebra.Ring.Nat
import Mathlib.Data.List.Induction
import Mathlib.Order.Bounds.Basic

/-! # How the label table grows

The table has no slots before the first binding and 64 times a power of two from then on. When a label
comes that has no slot, the size is doubled until it has one. Begun at the least size that was enough
so far, this ends at the least that is enough now, and since labels have 32 bits it ends within words
of 64 bits. Slots that are added know nothing, so what the table knows of a label is what the last
binding of that label has told it. -/

namespace FlowGraph

namespace LabelTable

/-! ## Doubling -/

/-- Doubling `size` until there is room for `slot` ends at `size'`, and no size on the way is too big
for a word of 64 bits. -/
inductive Doubles (slot : Nat) : Nat → Nat → Prop where
  | room {size : Nat} (enough : slot < size) : Doubles slot size size
  | double {size size' : Nat} (short : size ≤ slot) (fits : 2 * size < 2 ^ 64)
    (further : Doubles slot (2 * size) size') : Doubles slot size size'

namespace Doubles

variable {slot size size' : Nat}

theorem lt (doubles : Doubles slot size size') : slot < size' := by
  induction doubles with
  | room enough => exact enough
  | double _ _ _ ih => exact ih

theorem exists_pow (doubles : Doubles slot size size') : ∃ k, size' = size * 2 ^ k := by
  induction doubles with
  | room => exact ⟨0, by simp⟩
  | double _ _ _ ih =>
    obtain ⟨k, rfl⟩ := ih
    exact ⟨k + 1, by rw [Nat.pow_succ', ← Nat.mul_assoc, Nat.mul_comm 2]⟩

theorem le (doubles : Doubles slot size size') : size ≤ size' := by
  obtain ⟨k, rfl⟩ := doubles.exists_pow
  exact Nat.le_mul_of_pos_right _ (Nat.two_pow_pos k)

/-- No size is left out that would have been enough. -/
theorem le_of_lt (doubles : Doubles slot size size') {k : Nat} (enough : slot < size * 2 ^ k) :
    size' ≤ size * 2 ^ k := by
  induction doubles generalizing k with
  | room => exact Nat.le_mul_of_pos_right _ (Nat.two_pow_pos k)
  | double short _ _ ih =>
    cases k with
    | zero => omega
    | succ k =>
      rw [Nat.pow_succ', ← Nat.mul_assoc, Nat.mul_comm _ 2] at enough ⊢
      exact ih enough

end Doubles

theorem doubles_doubled {slot : Nat} (word : 2 * slot < 2 ^ 64) (n : Nat) :
    ∀ size, 0 < size → slot < size + n → Doubles slot size (doubled n size slot) := by
  induction n with
  | zero => exact fun size _ enough => .room enough
  | succ n ih =>
    intro size positive enough
    rw [doubled]
    split
    case isTrue room => exact .room room
    case isFalse short =>
      exact .double (Nat.not_lt.1 short) (by omega) (ih (2 * size) (by omega) (by omega))

/-- Slot 64 is the first that 64 slots are not enough for. -/
example : doubled 64 64 64 = 128 := rfl

/-! ## Growing -/

variable {t : LabelTable} {l l' : Label}

theorem ensure_of_lt (room : l.slot < t.capacity) : t.ensure l = t := if_pos room

theorem doubles_ensure (full : t.capacity ≤ l.slot) :
    Doubles l.slot (max t.capacity initialCapacity) (t.ensure l).capacity := by
  have word : l.slot < 2 ^ 32 := l.id.toNat_lt
  have positive : 0 < max t.capacity initialCapacity := by
    rw [initialCapacity]
    omega
  have doubles := doubles_doubled (by omega) l.slot _ positive (Nat.lt_add_of_pos_left positive)
  have size : (t.ensure l).capacity = doubled l.slot (max t.capacity initialCapacity) l.slot := by
    have wide := (Nat.le_max_left ..).trans doubles.le
    unfold ensure capacity at *
    rw [if_neg (Nat.not_lt.2 full), Array.size_append, Array.size_replicate]
    omega
  rw [size]
  exact doubles

theorem lt_capacity_ensure (t : LabelTable) (l : Label) : l.slot < (t.ensure l).capacity := by
  by_cases room : l.slot < t.capacity
  · rwa [ensure_of_lt room]
  · exact (doubles_ensure (Nat.not_lt.1 room)).lt

@[simp] theorem capacity_bind (t : LabelTable) (l : Label) (b : BlockId) (older : Option Label) :
    (t.bind l b older).capacity = (t.ensure l).capacity :=
  Array.size_setIfInBounds

/-! ## What the table knows -/

/-- What is known of a label, whether it has a slot or not. -/
def known (t : LabelTable) (l : Label) : LabelSlot := (t.get? l).getD .unbound

theorem get?_eq (t : LabelTable) (l : Label) :
    t.get? l = if l.slot < t.capacity then some (t.known l) else none := by
  unfold known get? capacity
  split
  case isTrue inside => simp [inside]
  case isFalse outside => simpa using outside

theorem resolve_eq (t : LabelTable) (l : Label) : t.resolve l = (t.known l).block := by
  unfold resolve known
  cases t.get? l <;> rfl

theorem get?_eq_some_iff {slot : LabelSlot} {b : BlockId} (bound : slot.block = some b) :
    t.get? l = some slot ↔ t.known l = slot := by
  unfold known
  cases t.get? l with
  | some slot' => simp
  | none =>
    constructor
    · intro absent
      cases absent
    · rintro rfl
      cases bound

theorem known_ensure (t : LabelTable) (l l' : Label) : (t.ensure l).known l' = t.known l' := by
  unfold ensure
  split
  · rfl
  · unfold known get?
    rw [Array.getElem?_append]
    split
    · rfl
    · rename_i outside
      rw [Array.getElem?_eq_none (Nat.not_lt.1 outside), Array.getElem?_replicate]
      split <;> rfl

theorem known_bind (t : LabelTable) (l l' : Label) (b : BlockId) (older : Option Label) :
    (t.bind l b older).known l' = if l' = l then ⟨some b, older⟩ else t.known l' := by
  unfold bind known
  rw [get?_set]
  split
  case isTrue same =>
    subst l'
    rw [get?_eq, if_pos (lt_capacity_ensure t l)]
    rfl
  case isFalse => exact known_ensure t l l'

/-! ## Many bindings -/

end LabelTable

/-- A label comes to stand for a block, in front of the label that was primary there. -/
structure Binding where
  label : Label
  block : BlockId
  older : Option Label

namespace LabelTable

def record (t : LabelTable) (c : Binding) : LabelTable := t.bind c.label c.block c.older

def recordAll (t : LabelTable) (cs : List Binding) : LabelTable := cs.foldl record t

theorem recordAll_concat (t : LabelTable) (cs : List Binding) (c : Binding) :
    t.recordAll (cs ++ [c]) = (t.recordAll cs).record c := by
  rw [recordAll, List.foldl_append]
  rfl

/-- The binding of a label that was made last. -/
def lastBinding (cs : List Binding) (l : Label) : Option Binding :=
  (cs.filter (·.label = l)).getLast?

theorem lastBinding_concat (cs : List Binding) (c : Binding) (l : Label) :
    lastBinding (cs ++ [c]) l = if l = c.label then some c else lastBinding cs l := by
  unfold lastBinding
  rw [List.filter_append, List.getLast?_append]
  by_cases same : l = c.label
  · simp [same]
  · simp [same, Ne.symm same]

theorem known_recordAll (cs : List Binding) (l : Label) : (empty.recordAll cs).known l =
    ((lastBinding cs l).map fun c => ⟨some c.block, c.older⟩).getD .unbound := by
  induction cs using List.reverseRecOn with
  | nil => rfl
  | append_singleton cs c ih =>
    rw [recordAll_concat, record, known_bind, lastBinding_concat]
    split
    · rfl
    · exact ih

/-! ### The size -/

/-- The sizes of a table that are enough for all labels bound. -/
def sizes (cs : List Binding) : Set Nat :=
  {n | (∃ k, n = initialCapacity * 2 ^ k) ∧ ∀ c ∈ cs, c.label.slot < n}

theorem isLeast_sizes_nil : IsLeast (sizes []) initialCapacity := by
  refine ⟨⟨⟨0, by simp⟩, fun c member => absurd member List.not_mem_nil⟩, ?_⟩
  rintro n ⟨⟨k, rfl⟩, -⟩
  exact Nat.le_mul_of_pos_right _ (Nat.two_pow_pos k)

theorem initialCapacity_le_of_mem_sizes {cs : List Binding} {n : Nat} (enough : n ∈ sizes cs) :
    initialCapacity ≤ n := by
  obtain ⟨⟨k, rfl⟩, -⟩ := enough
  exact Nat.le_mul_of_pos_right _ (Nat.two_pow_pos k)

/-- Doubling leads from the least size that was enough to the least that is. -/
theorem Doubles.isLeast {cs : List Binding} {c : Binding} {size size' : Nat}
    (doubles : Doubles c.label.slot size size') (least : IsLeast (sizes cs) size) :
    IsLeast (sizes (cs ++ [c])) size' := by
  obtain ⟨⟨⟨k, rfl⟩, enough⟩, lowest⟩ := least
  refine ⟨⟨?power, fun c' member => ?wide⟩, ?lower⟩
  case power =>
    obtain ⟨j, rfl⟩ := doubles.exists_pow
    exact ⟨k + j, by rw [Nat.pow_add, Nat.mul_assoc]⟩
  case wide =>
    rcases List.mem_append.1 member with before | here
    · exact (enough c' before).trans_le doubles.le
    · rw [List.mem_singleton.1 here]
      exact doubles.lt
  case lower =>
    rintro n ⟨⟨j, rfl⟩, enough'⟩
    have before : initialCapacity * 2 ^ k ≤ initialCapacity * 2 ^ j :=
      lowest ⟨⟨j, rfl⟩, fun c' member => enough' c' (by simp [member])⟩
    -- so doubling passes the other size on its way, or stops short of it
    have powers : k ≤ j :=
      (Nat.pow_le_pow_iff_right (by decide)).1 (Nat.le_of_mul_le_mul_left before (by decide))
    obtain ⟨i, rfl⟩ := Nat.exists_eq_add_of_le powers
    have here := enough' c (by simp)
    rw [Nat.pow_add, ← Nat.mul_assoc] at here ⊢
    exact doubles.le_of_lt here

theorem doubles_record {t : LabelTable} (whole : t.capacity = 0 ∨ initialCapacity ≤ t.capacity)
    (c : Binding) :
    Doubles c.label.slot (max t.capacity initialCapacity) (t.record c).capacity := by
  rw [record, capacity_bind]
  by_cases room : c.label.slot < t.capacity
  · have wide : max t.capacity initialCapacity = t.capacity := by omega
    rw [ensure_of_lt room, wide]
    exact .room room
  · exact doubles_ensure (Nat.not_lt.1 room)

/-- The table has no slots, or as many as are enough and no more. -/
theorem capacity_recordAll (cs : List Binding) : cs = [] ∧ (empty.recordAll cs).capacity = 0 ∨
    cs ≠ [] ∧ IsLeast (sizes cs) (empty.recordAll cs).capacity := by
  induction cs using List.reverseRecOn with
  | nil => exact .inl ⟨rfl, rfl⟩
  | append_singleton cs c ih =>
    refine .inr ⟨by simp, ?_⟩
    rw [recordAll_concat]
    obtain ⟨rfl, slotless⟩ | ⟨-, least⟩ := ih
    · have doubles := doubles_record (.inl slotless) c
      rw [slotless] at doubles
      exact doubles.isLeast isLeast_sizes_nil
    · have wide := initialCapacity_le_of_mem_sizes least.1
      have doubles := doubles_record (.inr wide) c
      rw [max_eq_left wide] at doubles
      exact doubles.isLeast least

/-! ### All of it -/

/-- What is seen of a table after the bindings `cs`, and what becomes of it with one more. -/
structure Reflects (t : LabelTable) (cs : List Binding) : Prop where
  resolve : ∀ l, t.resolve l = (lastBinding cs l).map (·.block)
  bound : ∀ l c, lastBinding cs l = some c → t.get? l = some ⟨some c.block, c.older⟩
  unbound : ∀ l, lastBinding cs l = none →
    t.get? l = if l.slot < t.capacity then some .unbound else none
  slotless : cs = [] → t.capacity = 0
  least : cs ≠ [] → IsLeast (sizes cs) t.capacity
  /-- The doubling that makes room for the next label comes to an end, and within a word. -/
  growth : ∀ c, Doubles c.label.slot (max t.capacity initialCapacity) (t.record c).capacity

/-- A table reflects all that has been recorded in it, whichever labels have come and in whatever
order. -/
theorem recordAll_reflects (cs : List Binding) : (empty.recordAll cs).Reflects cs := by
  have content := known_recordAll cs
  have size := capacity_recordAll cs
  refine ⟨fun l => ?resolve, fun l c last => ?bound, fun l never => ?unbound,
    fun nothing => ?slotless, fun something => ?least, fun c => doubles_record ?whole c⟩
  case resolve =>
    rw [resolve_eq, content]
    cases lastBinding cs l <;> rfl
  case bound =>
    rw [get?_eq_some_iff rfl, content, last]
    rfl
  case unbound =>
    rw [get?_eq, content, never]
    rfl
  case slotless => exact size.elim And.right fun other => absurd nothing other.1
  case least => exact size.elim (fun other => absurd other.1 something) And.right
  case whole => exact size.imp And.right fun other => initialCapacity_le_of_mem_sizes other.2.1

end LabelTable

end FlowGraph
