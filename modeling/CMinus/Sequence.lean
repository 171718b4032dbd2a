import CMinus.Frame
import CMinus.Machine.Stream

namespace CMinus.Sequence

def push (r : Register) (remark : String) : List Line :=
  [.memory .lda .sp (-1) .sp "push prepare",
   .memory .st r 0 .sp remark]

def pop (r : Register) (remark : String) : List Line :=
  [.memory .lda .sp 1 .sp "pop prepare",
   .memory .ld r (-1) .sp remark]

/-- Saves the caller's frame base and opens a frame of `locals` cells. -/
def prologue (locals : Size) : Except Overflow (List Line) := do
  let displacement ← locals.low.neg
  return push .bp "push old bp" ++
    [.memory .lda .bp 0 .sp "let bp == sp",
     .memory .lda .sp displacement .sp "allocate for local variables"]

/-- Drops the frame, restores the caller's frame base and jumps to the return address. -/
def epilogue : List Line :=
  [.memory .lda .sp 0 .bp "let sp == bp",
   .memory .lda .sp 2 .sp "pop prepare",
   .memory .ld .bp (-2) .sp "pop old bp",
   .memory .ld .pc (-1) .sp "pop return addr"]

/-- Pushes the address of its own last instruction and jumps to `address`. The callee returns to
that instruction, which releases the arguments. -/
def call (address : Nat) (params : Size) : List Line :=
  [.memory .lda .ax 3 .pc "store returned PC"] ++ push .ax "push returned PC" ++
    [.memory .ldc .pc (Word.low address) .ax "jump to function",
     .memory .lda .sp params.low .sp "release parameters"]

def callLength : Nat := 5

theorem length_call (address : Nat) (params : Size) :
    (call address params).length = callLength := rfl

/-- Turns the sign of `bx - ax` into 1 or 0. -/
def compare (jump : Opcode) (remark : String) : List Line :=
  [.registers .sub .ax .bx .ax remark,
   .memory jump .ax 2 .pc "br if true",
   .memory .ldc .ax 0 .ax "false case",
   .memory .lda .pc 1 .pc "unconditional jmp",
   .memory .ldc .ax 1 .ax "true case"]

/-- Applies an operator to the left operand in `bx` and the right operand in `ax`. -/
def apply (op : BinaryOp) : List Line :=
  let remark := s!"op {op.symbol}"
  match op with
  | .add => [.registers .add .ax .bx .ax remark]
  | .sub => [.registers .sub .ax .bx .ax remark]
  | .mul => [.registers .mul .ax .bx .ax remark]
  | .div => [.registers .div .ax .bx .ax remark]
  | .equal => compare .jeq remark
  | .notEqual => compare .jne remark
  | .lessThan => compare .jlt remark
  | .greaterThan => compare .jgt remark
  | .lessOrEqual => compare .jle remark
  | .greaterOrEqual => compare .jge remark

def describe (v : Variable) : String :=
  match v.scope, v.ty with
  | .global, .array => "get global array address"
  | .global, .int => "get global address"
  | .block, .array => "get local array address"
  | .block, .int => "get local address"
  | .param, .array => "get param array address"
  | .param, .int => "get param variable address"

/-- Leaves the address of a variable in `bx`. -/
def address (v : Variable) : Except Overflow (List Line) := do
  let location ← v.locate
  return [.memory location.opcode .bx location.displacement location.base (describe v)]

/-- Loads the variable whose address is in `bx`. The value of an array is its address. -/
def load (v : Variable) : List Line :=
  match v.ty with
  | .array => [.memory .lda .ax 0 .bx "get array variable value( == address)"]
  | .int => [.memory .ld .ax 0 .bx "get variable value"]

/-- Takes the machine to its first call: `gp` gets the address of the last cell. -/
def preamble (globals : Size) : Except Overflow (List Line) := do
  let displacement ← globals.low.neg
  return [.memory .ld .gp 0 .zero "load from location 0",
    .memory .st .zero 0 .zero "clear location 0",
    .memory .lda .sp displacement .gp "allocate for global variables"]

/-- The function that reads a number. It has no frame. -/
def input : List Line :=
  [.registers .input .ax .ax .ax "read input into ax"] ++ pop .pc "pop return addr"

/-- The function that prints its argument. It has no frame. -/
def output : List Line :=
  [.memory .ld .ax 1 .sp "load param into ax",
   .registers .output .ax .ax .ax "output using ax"] ++ pop .pc "pop return addr"

def halt : List Line :=
  [.registers .halt .ax .ax .ax "END OF PROGRAM"]

end CMinus.Sequence
