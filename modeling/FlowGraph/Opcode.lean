/-! # Operations and how they transfer control

A graph of basic blocks does not interpret what an instruction computes. All it needs is how the
last instruction of a block passes control on, which is the operation's `Flow`. Ordinary
arithmetic and memory operations are represented by a few examples; every operation that affects
control is present. -/

namespace FlowGraph

/-! ## Control transfer -/

/-- How an instruction passes control on when it ends a block. -/
inductive Flow where
  /-- To the next instruction. -/
  | sequential
  /-- Back to the caller, through the exit block. -/
  | ret
  /-- To the block of the destination label. -/
  | branch
  /-- To the block of the destination label, or on to the next block. -/
  | conditionalBranch
  /-- To the enclosing handler. -/
  | throw
  /-- To the finally or filter handler named by the destination label. -/
  | callHandler
  /-- On to the next instruction, or to the enclosing handler. -/
  | call
  /-- To one of a list of labels, or on to the next block. -/
  | jumpTable
deriving DecidableEq, Repr, Inhabited

namespace Flow

def debug : Flow → String
  | sequential => "Sequential"
  | ret => "Return"
  | branch => "Branch"
  | conditionalBranch => "ConditionalBranch"
  | throw => "Throw"
  | callHandler => "CallHandler"
  | call => "Call"
  | jumpTable => "JumpTable"

end Flow

/-! ## Operations -/

/-- Operation of an instruction, in the order of the numeric codes. -/
inductive Opcode where
  | nop
  | markOffset
  | iadd
  | isub
  | imul
  | icmp
  | loadRelative
  | storeRelative
  | copy
  | ret
  | returnInt
  | returnFloat
  | returnSmallStruct
  | br
  | brIfalse
  | brItrue
  | brIeq
  | brIne
  | brIlt
  | brIle
  | brIgt
  | brIge
  | brFeq
  | brFltInv
  | brNfgeInv
  | throw
  | rethrow
  | callFinally
  | callFilter
  | call
  | callTail
  | callIndirect
  | callVtablePtr
  | callExternal
  | callExternalTail
  | jumpTable
deriving DecidableEq, Repr, Inhabited

namespace Opcode

def all : List Opcode :=
  [nop, markOffset, iadd, isub, imul, icmp, loadRelative, storeRelative, copy, ret, returnInt,
    returnFloat, returnSmallStruct, br, brIfalse, brItrue, brIeq, brIne, brIlt, brIle, brIgt, brIge,
    brFeq, brFltInv, brNfgeInv, throw, rethrow, callFinally, callFilter, call, callTail,
    callIndirect, callVtablePtr, callExternal, callExternalTail, jumpTable]

/-- Numeric code of an operation, its place in the declaration. -/
def code (op : Opcode) : Nat := op.ctorIdx

def ofCode? (n : Nat) : Option Opcode := all[n]?

/-! ### Names -/

/-- Name of an operation in listings. -/
def name : Opcode → String
  | nop => "nop"
  | markOffset => "mark_offset"
  | iadd => "iadd"
  | isub => "isub"
  | imul => "imul"
  | icmp => "icmp"
  | loadRelative => "load_relative"
  | storeRelative => "store_relative"
  | copy => "copy"
  | ret => "return"
  | returnInt => "return_int"
  | returnFloat => "return_float"
  | returnSmallStruct => "return_small_struct"
  | br => "br"
  | brIfalse => "br_ifalse"
  | brItrue => "br_itrue"
  | brIeq => "br_ieq"
  | brIne => "br_ine"
  | brIlt => "br_ilt"
  | brIle => "br_ile"
  | brIgt => "br_igt"
  | brIge => "br_ige"
  | brFeq => "br_feq"
  | brFltInv => "br_flt_inv"
  | brNfgeInv => "br_nfge_inv"
  | throw => "throw"
  | rethrow => "rethrow"
  | callFinally => "call_finally"
  | callFilter => "call_filter"
  | call => "call"
  | callTail => "call_tail"
  | callIndirect => "call_indirect"
  | callVtablePtr => "call_vtable_ptr"
  | callExternal => "call_external"
  | callExternalTail => "call_external_tail"
  | jumpTable => "jump_table"

def ofName? (s : String) : Option Opcode := all.find? (·.name == s)

/-- Form used in diagnostics: the words of the name, each with a capital, run together. -/
def debug (op : Opcode) : String :=
  String.join ((op.name.splitOn "_").map String.capitalize)

instance : ToString Opcode := ⟨name⟩

/-! ### Classes -/

def flow : Opcode → Flow
  | ret | returnInt | returnFloat | returnSmallStruct => .ret
  | br => .branch
  | brIfalse | brItrue | brIeq | brIne | brIlt | brIle | brIgt | brIge | brFeq | brFltInv
  | brNfgeInv => .conditionalBranch
  | throw | rethrow => .throw
  | callFinally | callFilter => .callHandler
  | call | callTail | callIndirect | callVtablePtr | callExternal | callExternalTail => .call
  | jumpTable => .jumpTable
  | nop | markOffset | iadd | isub | imul | icmp | loadRelative | storeRelative | copy =>
    .sequential

/-- The unconditional branch and every conditional one. -/
def isBranch (op : Opcode) : Bool :=
  match op.flow with
  | .branch | .conditionalBranch => true
  | _ => false

/-- Operations that make no sense without a destination label. -/
def needsDest (op : Opcode) : Bool :=
  match op.flow with
  | .branch | .conditionalBranch | .callHandler => true
  | _ => false

/-- Operations after which control never goes on to the next instruction. A jump table does when
its selector is out of range, and a call does when it returns. -/
def endsInDead (op : Opcode) : Bool :=
  match op.flow with
  | .branch | .ret | .throw => true
  | _ => false

/-- Operations allowed in a block that counts as empty. -/
def isTrivial : Opcode → Bool
  | nop | markOffset | br => true
  | _ => false

end Opcode

end FlowGraph
