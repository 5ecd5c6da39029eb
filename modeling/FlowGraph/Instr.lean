import FlowGraph.Id
import FlowGraph.Opcode

/-! # Instructions

Of an instruction only what control flow needs is kept: the operation, the destination label of a
branch or handler call, and the labels of a jump table. -/

namespace FlowGraph

structure Instr where
  opcode : Opcode
  dest : Option Label
  table : List Label
deriving DecidableEq, Repr, Inhabited

namespace Instr

/-! ## Forms -/

def plain (op : Opcode) : Instr := ⟨op, none, []⟩

/-- A branch or handler call to `l`. -/
def branch (op : Opcode) (l : Label) : Instr := ⟨op, some l, []⟩

/-- A dispatch over `ls`; a label that occurs twice counts twice. -/
def dispatch (ls : List Label) : Instr := ⟨.jumpTable, none, ls⟩

def withOpcode (i : Instr) (op : Opcode) : Instr := { i with opcode := op }

/-! ## Text -/

/-- The operands as they follow the name of the operation in a listing. -/
def operandText (i : Instr) : String :=
  (match i.dest with
    | some l => " " ++ l.text
    | none => "") ++
  (match i.table with
    | [] => ""
    | ls => " [" ++ String.intercalate ", " (ls.map Label.text) ++ "]")

/-- The line of an instruction in a listing: name, destination, and labels of a jump table. -/
def text (i : Instr) : String := i.opcode.name ++ i.operandText

instance : ToString Instr := ⟨text⟩

end Instr

end FlowGraph
