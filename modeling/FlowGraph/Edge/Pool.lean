import FlowGraph.Edge

/-! # Pool of edges

A pool is a finite map from slots to edges. A slot whose edge is freed goes on a stack of vacant
slots, and the next edge takes the slot on top of it; the pool grows only when that stack is empty.
Two facts keep this sound: a slot goes on the stack only while it holds an edge, and it leaves the
stack exactly when it receives one. -/

namespace FlowGraph

structure EdgePool where
  slots : Array (Option Edge)
  /-- Vacant slots, the one freed last first. -/
  free : List EdgeId
deriving DecidableEq, Repr

namespace EdgePool

def empty : EdgePool := ⟨#[], []⟩

instance : Inhabited EdgePool := ⟨empty⟩

/-! ## Look-up -/

/-- The edge in a slot; none if the slot is vacant or does not exist. -/
def get? (p : EdgePool) (e : EdgeId) : Option Edge := p.slots[e.index]?.join

/-- Number of slots ever used, vacant ones included. -/
def capacity (p : EdgePool) : Nat := p.slots.size

def size (p : EdgePool) : Nat := p.slots.size - p.free.length

def isEmpty (p : EdgePool) : Bool := p.size == 0

/-- The edges with their slots, by ascending slot. -/
def entries (p : EdgePool) : List (EdgeId × Edge) :=
  p.slots.toList.zipIdx.filterMap fun (slot, i) => slot.map fun edge => (⟨i⟩, edge)

/-! ## Change -/

/-- The slot that the next edge will take: the one freed last, or a new one if none is vacant. -/
def nextSlot (p : EdgePool) : EdgeId := p.free.headD ⟨p.slots.size⟩

def insert (p : EdgePool) (edge : Edge) : EdgePool :=
  match p.free with
  | e :: rest => ⟨p.slots.setIfInBounds e.index (some edge), rest⟩
  | [] => ⟨p.slots.push (some edge), []⟩

/-- Stores an edge in the next slot and tells which one that was. -/
def alloc (p : EdgePool) (edge : Edge) : EdgeId × EdgePool := (p.nextSlot, p.insert edge)

/-- Vacates a slot; nothing happens if it holds no edge. -/
def dealloc (p : EdgePool) (e : EdgeId) : EdgePool :=
  match p.get? e with
  | some _ => ⟨p.slots.setIfInBounds e.index none, e :: p.free⟩
  | none => p

/-- Changes the edge in a slot in place; nothing happens if the slot holds none. -/
def modify (p : EdgePool) (e : EdgeId) (f : Edge → Edge) : EdgePool :=
  { p with slots := p.slots.modify e.index (Option.map f) }

def clear (_ : EdgePool) : EdgePool := empty

/-! ### How a change is seen -/

@[simp] theorem get?_empty (e : EdgeId) : empty.get? e = none := rfl

theorem get?_modify (p : EdgePool) (e e' : EdgeId) (f : Edge → Edge) :
    (p.modify e f).get? e' = if e' = e then (p.get? e').map f else p.get? e' := by
  obtain ⟨i⟩ := e
  obtain ⟨j⟩ := e'
  simp only [get?, modify, Array.getElem?_modify, EdgeId.mk.injEq, eq_comm (a := i)]
  split
  · cases p.slots[j]? <;> rfl
  · rfl

theorem get?_dealloc (p : EdgePool) (e e' : EdgeId) :
    (p.dealloc e).get? e' = if e' = e then none else p.get? e' := by
  obtain ⟨i⟩ := e
  obtain ⟨j⟩ := e'
  simp only [dealloc, EdgeId.mk.injEq]
  split
  · simp only [get?, Array.getElem?_setIfInBounds, eq_comm (a := i)]
    split
    · split <;> rfl
    · rfl
  · rename_i h
    split
    · subst j; exact h
    · rfl

end EdgePool

end FlowGraph
