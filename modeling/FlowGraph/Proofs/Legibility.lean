import FlowGraph.Instr
import Mathlib.Data.List.Basic

/-! # What the text of an instruction tells

The text of an instruction has no marks that say where the name ends, which label is the destination
and which are those of the table, and needs none. Each part goes on up to a character that cannot
belong to it: a name has no blank in it, and what comes behind a name begins with one; what comes
behind the number of a label begins with no digit. So the text can be taken apart in one way only,
from the left, and an instruction is what its text says, whichever operation its operands have been
given to. -/

namespace FlowGraph

/-! ## Taking text apart -/

/-- Text that cannot be a continuation of characters of a class: it is at its end or begins with a
character of no such class. -/
def Stops (p : Char → Bool) (w : List Char) : Prop := ∀ c ∈ w.head?, p c = false

section

variable {p : Char → Bool} {s t w v : List Char}

theorem Stops.takeWhile_eq (stop : Stops p w) : w.takeWhile p = [] := by
  cases w with
  | nil => rfl
  | cons c w => exact List.takeWhile_cons_of_neg (by simp [stop c rfl])

/-- Two texts that begin with characters of a class and go on with none are the same only if they
agree in both parts. -/
theorem append_inj_of_stops (within : ∀ c ∈ s, p c) (within' : ∀ c ∈ t, p c) (stop : Stops p w)
    (stop' : Stops p v) (same : s ++ w = t ++ v) : s = t ∧ w = v := by
  have front : s = t := by
    have taken := congrArg (List.takeWhile p) same
    rwa [List.takeWhile_append_of_pos within, List.takeWhile_append_of_pos within',
      stop.takeWhile_eq, stop'.takeWhile_eq, List.append_nil, List.append_nil] at taken
  subst t
  exact ⟨rfl, List.append_cancel_left same⟩

end

/-! ## Names -/

namespace Opcode

theorem ofName?_name (op : Opcode) : ofName? op.name = some op := by
  cases op <;> rfl

theorem name_noBlank (op : Opcode) : ∀ c ∈ op.name.toList, c ≠ ' ' := by
  cases op <;> simp [name]

theorem name_inj {op op' : Opcode} : op.name = op'.name ↔ op = op' := by
  refine ⟨fun same => ?_, congrArg name⟩
  have read := ofName?_name op
  rw [same, ofName?_name] at read
  exact (Option.some.inj read).symm

theorem name_append_inj {op op' : Opcode} {w v : List Char} (stop : Stops (· ≠ ' ') w)
    (stop' : Stops (· ≠ ' ') v) (same : op.name.toList ++ w = op'.name.toList ++ v) :
    op = op' ∧ w = v := by
  obtain ⟨names, rest⟩ := append_inj_of_stops (by simpa using op.name_noBlank)
    (by simpa using op'.name_noBlank) stop stop' same
  exact ⟨name_inj.1 (String.toList_inj.1 names), rest⟩

end Opcode

/-! ## Labels -/

namespace Label

theorem toList_text (l : Label) : l.text.toList = 'L' :: Nat.toDigits 10 l.slot := by
  simp [text, Nat.toString_eq_repr, Nat.toList_repr]

theorem digits_inj {l l' : Label} (same : Nat.toDigits 10 l.slot = Nat.toDigits 10 l'.slot) :
    l = l' := by
  obtain ⟨i⟩ := l
  obtain ⟨j⟩ := l'
  have read := congrArg (Nat.ofDigitChars 10 · 0) same
  simpa [slot, UInt32.toNat_inj] using read

theorem text_append_inj {l l' : Label} {w v : List Char} (stop : Stops Char.isDigit w)
    (stop' : Stops Char.isDigit v) (same : l.text.toList ++ w = l'.text.toList ++ v) :
    l = l' ∧ w = v := by
  have digit (n : Nat) : ∀ c ∈ Nat.toDigits 10 n, c.isDigit :=
    fun c member => Nat.isDigit_of_mem_toDigits (by decide) (by decide) member
  rw [toList_text, toList_text, List.cons_append, List.cons_append] at same
  obtain ⟨digits, rest⟩ :=
    append_inj_of_stops (digit _) (digit _) stop stop' (List.cons.inj same).2
  exact ⟨digits_inj digits, rest⟩

end Label

/-! ## Operands -/

namespace Instr

def destChars : Option Label → List Char
  | some l => ' ' :: l.text.toList
  | none => []

/-- What comes behind the first label of a table. -/
def furtherChars : List Label → List Char
  | [] => [']']
  | l :: ls => ',' :: ' ' :: (l.text.toList ++ furtherChars ls)

def tableChars : List Label → List Char
  | [] => []
  | l :: ls => ' ' :: '[' :: (l.text.toList ++ furtherChars ls)

theorem toList_labels (l : Label) (ls : List Label) :
    (", ".intercalate ((l :: ls).map Label.text)).toList ++ [']'] =
      l.text.toList ++ furtherChars ls := by
  rw [String.toList_intercalate, List.map_map]
  induction ls generalizing l with
  | nil => simp [furtherChars]
  | cons l' ls ih =>
    have rest := ih l'
    rw [List.map_cons] at rest
    rw [List.map_cons, List.map_cons, List.intercalate_cons_cons, List.append_assoc, rest]
    simp [furtherChars]

theorem toList_text (i : Instr) :
    i.text.toList = i.opcode.name.toList ++ (destChars i.dest ++ tableChars i.table) := by
  obtain ⟨op, dest, table⟩ := i
  cases table with
  | nil => cases dest <;> simp [text, operandText, destChars, tableChars]
  | cons l ls =>
    rw [tableChars, ← toList_labels]
    cases dest <;> simp [text, operandText, destChars]

theorem stops_furtherChars (ls : List Label) : Stops Char.isDigit (furtherChars ls) := by
  cases ls <;> simp [Stops, furtherChars]

theorem stops_tableChars (ls : List Label) : Stops Char.isDigit (tableChars ls) := by
  cases ls <;> simp [Stops, tableChars]

theorem stops_operands (dest : Option Label) (ls : List Label) :
    Stops (· ≠ ' ') (destChars dest ++ tableChars ls) := by
  cases dest <;> cases ls <;> simp [Stops, destChars, tableChars]

theorem furtherChars_inj {ls ls' : List Label} (same : furtherChars ls = furtherChars ls') :
    ls = ls' := by
  induction ls generalizing ls' with
  | nil =>
    cases ls' with
    | nil => rfl
    | cons l' ls' => simp [furtherChars] at same
  | cons l ls ih =>
    cases ls' with
    | nil => simp [furtherChars] at same
    | cons l' ls' =>
      simp only [furtherChars, List.cons.injEq, true_and] at same
      obtain ⟨rfl, rest⟩ :=
        Label.text_append_inj (stops_furtherChars ls) (stops_furtherChars ls') same
      rw [ih rest]

theorem tableChars_inj {ls ls' : List Label} (same : tableChars ls = tableChars ls') :
    ls = ls' := by
  cases ls with
  | nil =>
    cases ls' with
    | nil => rfl
    | cons l' ls' => cases same
  | cons l ls =>
    cases ls' with
    | nil => cases same
    | cons l' ls' =>
      simp only [tableChars, List.cons.injEq, true_and] at same
      obtain ⟨rfl, rest⟩ :=
        Label.text_append_inj (stops_furtherChars ls) (stops_furtherChars ls') same
      rw [furtherChars_inj rest]

/-- A destination begins with a letter and a table with a bracket. -/
theorem destChars_append_ne (l : Label) (ls ls' : List Label) :
    destChars (some l) ++ tableChars ls ≠ tableChars ls' := by
  cases ls' <;> simp [destChars, tableChars, Label.toList_text]

theorem operands_inj {dest dest' : Option Label} {ls ls' : List Label}
    (same : destChars dest ++ tableChars ls = destChars dest' ++ tableChars ls') :
    dest = dest' ∧ ls = ls' := by
  cases dest with
  | none =>
    cases dest' with
    | none => exact ⟨rfl, tableChars_inj same⟩
    | some l' => exact absurd same.symm (destChars_append_ne l' ls' ls)
  | some l =>
    cases dest' with
    | none => exact absurd same (destChars_append_ne l ls ls')
    | some l' =>
      obtain ⟨rfl, rest⟩ := Label.text_append_inj (stops_tableChars ls) (stops_tableChars ls')
        (List.cons.inj same).2
      exact ⟨rfl, tableChars_inj rest⟩

/-- An instruction is what its text says, also where its operands have been left to an operation that
has no use for them. -/
theorem text_inj {i j : Instr} : i.text = j.text ↔ i = j := by
  refine ⟨fun same => ?_, congrArg text⟩
  have chars := congrArg String.toList same
  rw [toList_text, toList_text] at chars
  obtain ⟨op, rest⟩ := Opcode.name_append_inj (stops_operands _ _) (stops_operands _ _) chars
  obtain ⟨dest, table⟩ := operands_inj rest
  cases i
  cases j
  simp_all

/-- A jump table turned into a branch keeps its labels, and they stand where no destination does. -/
example : ((dispatch [⟨1⟩, ⟨12⟩]).withOpcode .br).text = "br [L1, L12]" := by cbv

end Instr

end FlowGraph
