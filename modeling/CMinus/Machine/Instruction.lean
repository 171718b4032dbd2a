import CMinus.Word
import CMinus.Text.Pad

namespace CMinus

inductive Register where
  /-- values -/
  | ax
  /-- addresses -/
  | bx
  /-- holds 0 -/
  | zero
  /-- base of the global cells -/
  | gp
  /-- base of the running function's frame -/
  | bp
  /-- top of the stack -/
  | sp
  /-- address of the next instruction -/
  | pc
  deriving DecidableEq, Repr

namespace Register

/-- The machine has eight registers; number 3 has no name. -/
def index : Register → Fin 8
  | ax => 0
  | bx => 1
  | zero => 2
  | gp => 4
  | bp => 5
  | sp => 6
  | pc => 7

theorem index_injective {r s : Register} (h : r.index = s.index) : r = s := by
  revert h
  cases r <;> cases s <;> decide

def text (r : Register) : String :=
  toString r.index.val

end Register

/-- Which operands an opcode takes. -/
inductive Form where
  | registerOnly
  | registerMemory
  deriving DecidableEq, Repr

inductive Opcode where
  | halt
  | input
  | output
  | add
  | sub
  | mul
  | div
  | ld
  | st
  | lda
  | ldc
  | jlt
  | jle
  | jgt
  | jge
  | jeq
  | jne
  deriving DecidableEq, Repr

namespace Opcode

def form : Opcode → Form
  | halt | input | output | add | sub | mul | div => .registerOnly
  | ld | st | lda | ldc | jlt | jle | jgt | jge | jeq | jne => .registerMemory

def mnemonic : Opcode → String
  | halt => "HALT"
  | input => "IN"
  | output => "OUT"
  | add => "ADD"
  | sub => "SUB"
  | mul => "MUL"
  | div => "DIV"
  | ld => "LD"
  | st => "ST"
  | lda => "LDA"
  | ldc => "LDC"
  | jlt => "JLT"
  | jle => "JLE"
  | jgt => "JGT"
  | jge => "JGE"
  | jeq => "JEQ"
  | jne => "JNE"

end Opcode

inductive Operands where
  /-- written `r,s,t` -/
  | registers (r s t : Register)
  /-- written `r,d(s)` -/
  | memory (r : Register) (d : Word) (s : Register)
  deriving DecidableEq

namespace Operands

def form : Operands → Form
  | registers .. => .registerOnly
  | memory .. => .registerMemory

def text : Operands → String
  | registers r s t => s!"{r.text},{s.text},{t.text}"
  | memory r d s => s!"{r.text},{d.toInt}({s.text})"

end Operands

structure Operation where
  opcode : Opcode
  operands : Operands
  deriving DecidableEq

/-- An operation at its address. The remark stands beside it in a traced listing. -/
structure Instruction extends Operation where
  address : Nat
  remark : Option String
  deriving DecidableEq

namespace Instruction

/-- The displacement of a register-memory instruction. -/
def displacement (i : Instruction) : Option Word :=
  match i.operands with
  | .registers .. => none
  | .memory _ d _ => some d

/-- One line of a listing: the address in three columns, the mnemonic in five, the operands, and
the remark after a tab. -/
def text (i : Instruction) : String :=
  let address := Text.pad .right 3 (toString i.address)
  let mnemonic := Text.pad .right 5 i.opcode.mnemonic
  let line := s!"{address}:  {mnemonic}  {i.operands.text} "
  match i.remark with
  | some remark => line ++ "\t" ++ remark
  | none => line

end Instruction

end CMinus
