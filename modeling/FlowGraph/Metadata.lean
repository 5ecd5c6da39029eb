import FlowGraph.Id

/-! # Block metadata

Passes may attach values of whatever type to a block under numbered tags. A tag holds one value at a
time; storing another replaces it, of whatever type it was, and a value is found only by a reader
that asks for the type it was stored with. -/

namespace FlowGraph

/-! ## Values -/

/-- A type of values, told from all others by its name. -/
structure MetaKind where
  name : String
deriving DecidableEq, Repr, Inhabited

/-- What a value is written down as. -/
inductive MetaContent where
  | number (n : Int)
  | text (s : String)
  | nil
  | cons (head tail : MetaContent)
deriving DecidableEq, Repr, Inhabited

/-- A value of any type, together with its type. -/
structure MetaValue where
  kind : MetaKind
  content : MetaContent
deriving DecidableEq, Repr, Inhabited

/-- The types whose values can be stored. Only what a value is written down as is read as that value. -/
class Storable (α : Type) where
  kind : MetaKind
  write : α → MetaContent
  read : MetaContent → Option α
  read_eq_some : ∀ {c : MetaContent} {a : α}, read c = some a ↔ write a = c

namespace MetaValue

variable {α : Type} [Storable α]

def of (a : α) : MetaValue := ⟨Storable.kind α, Storable.write a⟩

/-- The value as one of type `α`, provided that is its type. -/
def as? (α : Type) [Storable α] (v : MetaValue) : Option α :=
  if v.kind = Storable.kind α then Storable.read v.content else none

theorem as?_eq_some {v : MetaValue} {a : α} : v.as? α = some a ↔ v = of a := by
  obtain ⟨kind, content⟩ := v
  rw [as?, Option.ite_none_right_eq_some, Storable.read_eq_some, of, mk.injEq, eq_comm (a := content)]

end MetaValue

/-! ## Types that can be stored -/

namespace Storable

variable {α : Type}

/-- A type whose values stand for some of the numbers. -/
@[reducible] def ofNumbers (name : String) (toInt : α → Int) (ofInt : Int → α)
    (ofInt_toInt : ∀ a, ofInt (toInt a) = a) : Storable α where
  kind := ⟨name⟩
  write a := .number (toInt a)
  read
    | .number n => if toInt (ofInt n) = n then some (ofInt n) else none
    | _ => none
  read_eq_some {c a} := by
    cases c with
    | number n =>
      simp only [Option.ite_none_right_eq_some, Option.some.injEq, MetaContent.number.injEq]
      constructor
      · rintro ⟨same, rfl⟩
        exact same
      · rintro rfl
        exact ⟨congrArg toInt (ofInt_toInt a), ofInt_toInt a⟩
    | text | nil | cons => simp

instance : Storable UInt8 := ofNumbers "word8" (·.toNat) (.ofNat ·.toNat) fun _ => by simp

instance : Storable UInt32 := ofNumbers "word32" (·.toNat) (.ofNat ·.toNat) fun _ => by simp

instance : Storable UInt64 := ofNumbers "word64" (·.toNat) (.ofNat ·.toNat) fun _ => by simp

instance : Storable Int64 := ofNumbers "int64" (·.toInt) .ofInt fun _ => by simp

instance : Storable String where
  kind := ⟨"text"⟩
  write := .text
  read
    | .text s => some s
    | _ => none
  read_eq_some {c _} := by
    cases c <;> simp [eq_comm]

section

variable [Storable α]

def writeAll : List α → MetaContent
  | [] => .nil
  | a :: rest => .cons (write a) (writeAll rest)

def readAll (α : Type) [Storable α] : MetaContent → Option (List α)
  | .nil => some []
  | .cons head tail => do return (← read head) :: (← readAll α tail)
  | _ => none

theorem readAll_eq_some {c : MetaContent} : ∀ {as : List α},
    readAll α c = some as ↔ writeAll as = c := by
  induction c with
  | number | text | nil => intro as; cases as <;> simp [readAll, writeAll]
  | cons head tail _ ih =>
    intro as
    simp only [readAll, Option.bind_eq_bind, Option.bind_eq_some_iff, Option.pure_def,
      Option.some.injEq, read_eq_some, ih]
    cases as <;> simp [writeAll]

instance : Storable (List α) where
  kind := ⟨"list of " ++ (kind α).name⟩
  write := writeAll
  read := readAll α
  read_eq_some := readAll_eq_some

end

end Storable

/-! ## The metadata of one block -/

/-- Tags with their values, in the order in which the tags were first stored. -/
structure Metadata where
  entries : List (MetaTag × MetaValue)
deriving DecidableEq, Repr

namespace Metadata

def empty : Metadata := ⟨[]⟩

instance : Inhabited Metadata := ⟨empty⟩

/-- The value under a tag, of whatever type. -/
def find? (m : Metadata) (t : MetaTag) : Option MetaValue :=
  (m.entries.find? (·.1 = t)).map (·.2)

/-- The value under a tag, provided it was stored with the type asked for. -/
def get? (m : Metadata) (α : Type) [Storable α] (t : MetaTag) : Option α :=
  (m.find? t).bind (·.as? α)

theorem get?_eq_some {m : Metadata} {α : Type} [Storable α] {t : MetaTag} {a : α} :
    m.get? α t = some a ↔ m.find? t = some (.of a) := by
  simp [get?, Option.bind_eq_some_iff, MetaValue.as?_eq_some]

/-- Replaces the value of the first entry under a tag, or adds an entry at the end. -/
def store (t : MetaTag) (v : MetaValue) : List (MetaTag × MetaValue) → List (MetaTag × MetaValue)
  | [] => [(t, v)]
  | (t', v') :: rest => if t' = t then (t, v) :: rest else (t', v') :: store t v rest

def set (m : Metadata) (t : MetaTag) (v : MetaValue) : Metadata := ⟨store t v m.entries⟩

/-- Removes the value under a tag; nothing happens if there is none. -/
def erase (m : Metadata) (t : MetaTag) : Metadata := ⟨m.entries.filter (·.1 ≠ t)⟩

theorem find?_set (m : Metadata) (t t' : MetaTag) (v : MetaValue) :
    (m.set t v).find? t' = if t' = t then some v else m.find? t' := by
  obtain ⟨entries⟩ := m
  simp only [set, find?]
  induction entries with
  | nil => by_cases h : t = t' <;> simp [store, h, eq_comm]
  | cons entry rest ih =>
    obtain ⟨u, w⟩ := entry
    by_cases hu : u = t
    · subst u
      by_cases h : t = t' <;> simp [store, h, eq_comm]
    · by_cases h : u = t'
      · subst t'
        simp [store, hu]
      · simpa [store, hu, h] using ih

theorem find?_erase (m : Metadata) (t t' : MetaTag) :
    (m.erase t).find? t' = if t' = t then none else m.find? t' := by
  obtain ⟨entries⟩ := m
  simp only [erase, find?, List.find?_filter]
  by_cases h : t' = t
  · subst t'
    simp
  · rw [if_neg h]
    congr 2
    funext entry
    by_cases hu : entry.1 = t'
    · simp [hu, h]
    · simp [hu]

def tags (m : Metadata) : List MetaTag := m.entries.map (·.1)

def debug (m : Metadata) : String :=
  "[" ++ String.intercalate ", " (m.tags.map fun t => toString t.value) ++ "]"

end Metadata

end FlowGraph
