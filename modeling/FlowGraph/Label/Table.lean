import FlowGraph.Id

/-! # Label table

Several labels may stand for one block. For each label the table keeps the block it is bound to and
the label that was primary on that block before; a block keeps its primary label. Following these
links from the primary label meets the labels of the block, the one bound last first. -/

namespace FlowGraph

theorem Label.slot_inj {l l' : Label} : l.slot = l'.slot ↔ l = l' := by
  obtain ⟨i⟩ := l
  obtain ⟨j⟩ := l'
  simp [slot, UInt32.toNat_inj]

/-- What the table knows of one label. -/
structure LabelSlot where
  block : Option BlockId
  /-- Next label of the same block's chain. -/
  older : Option Label
deriving DecidableEq, Repr, Inhabited

def LabelSlot.unbound : LabelSlot := ⟨none, none⟩

/-- Slots indexed by label. -/
structure LabelTable where
  slots : Array LabelSlot
deriving DecidableEq, Repr

namespace LabelTable

def empty : LabelTable := ⟨#[]⟩

instance : Inhabited LabelTable := ⟨empty⟩

def capacity (t : LabelTable) : Nat := t.slots.size

def get? (t : LabelTable) (l : Label) : Option LabelSlot := t.slots[l.slot]?

/-- The block a label is bound to. -/
def resolve (t : LabelTable) (l : Label) : Option BlockId := (t.get? l).bind (·.block)

/-! ## Growth -/

/-- Number of slots a table has from the first binding on. -/
def initialCapacity : Nat := 64

/-- Doubles `size` until it exceeds `slot`. A positive size does so within `slot` doublings, which
the first argument bounds. -/
def doubled : Nat → Nat → Nat → Nat
  | 0, size, _ => size
  | n + 1, size, slot => if slot < size then size else doubled n (2 * size) slot

/-- Makes sure that `l` has a slot. New slots are unbound. -/
def ensure (t : LabelTable) (l : Label) : LabelTable :=
  if l.slot < t.slots.size then t
  else
    let size := doubled l.slot (max t.slots.size initialCapacity) l.slot
    ⟨t.slots ++ Array.replicate (size - t.slots.size) .unbound⟩

/-! ## Binding -/

/-- Rebinds a label that has a slot; nothing happens to one that has none. -/
def set (t : LabelTable) (l : Label) (slot : LabelSlot) : LabelTable :=
  ⟨t.slots.setIfInBounds l.slot slot⟩

theorem get?_set (t : LabelTable) (l l' : Label) (slot : LabelSlot) :
    (t.set l slot).get? l' = if l' = l then (t.get? l').map fun _ => slot else t.get? l' := by
  simp only [get?, set, Array.getElem?_setIfInBounds, Label.slot_inj, eq_comm (a := l)]
  split
  · rename_i h
    subst l'
    split <;> simp_all
  · rfl

/-- Binds `l` to `b`, in front of the label that was primary on `b`. -/
def bind (t : LabelTable) (l : Label) (b : BlockId) (older : Option Label) : LabelTable :=
  (t.ensure l).set l ⟨some b, older⟩

end LabelTable

end FlowGraph
