import CMinus.Machine.Stream

namespace CMinus

/-- All registers and data cells are zero at the start but the first cell, which holds the address
of the last. -/
structure Machine where
  registers : Vector Word 8
  data : Vector Word 1024
  input : List Word
  output : Array Word

/-- Why a run has no result. -/
inductive Trap where
  | noInstruction (pc : Word)
  | inputExhausted
  | divisionByZero (pc : Word)
  | dataAddress (address : Word)
  | registerOperands (opcode : Opcode)
  | memoryOperands (opcode : Opcode)
  | stepLimit
  | overflow (operation : Overflow)
  deriving DecidableEq

namespace Trap

def message : Trap → String
  | noInstruction pc => s!"no instruction at {pc.toInt}"
  | inputExhausted => "input exhausted"
  | divisionByZero pc => s!"division by zero at {pc.toInt}"
  | dataAddress address => s!"data address {address.toInt} out of range"
  | registerOperands opcode => s!"{opcode.mnemonic} has register operands"
  | memoryOperands opcode => s!"{opcode.mnemonic} has memory operands"
  | stepLimit => "step limit exceeded"
  | overflow operation => operation.message

end Trap

/-- The result of one step that is not stuck. -/
inductive Progress where
  | running (m : Machine)
  | halted (m : Machine)

namespace Machine

def start (input : List Word) : Machine where
  registers := .replicate 8 0
  data := (Vector.replicate 1024 0).set 0 1023
  input := input
  output := #[]

def get (m : Machine) (r : Register) : Word :=
  m.registers[r.index.val]

def set (m : Machine) (r : Register) (value : Word) : Machine :=
  { m with registers := m.registers.set r.index.val value }

@[simp]
theorem get_set (m : Machine) (r s : Register) (value : Word) :
    (m.set r value).get s = if s = r then value else m.get s := by
  rw [set, get, get, Vector.getElem_set]
  by_cases h : s = r
  · subst h
    rw [if_pos rfl, if_pos rfl]
  · rw [if_neg h, if_neg fun hi => h (Register.index_injective (Fin.ext hi.symm))]

def cell (address : Word) : Except Trap (Fin 1024) :=
  if h : 0 ≤ address.toInt ∧ address.toInt < 1024 then .ok ⟨address.toInt.toNat, by omega⟩
  else .error (.dataAddress address)

def load (m : Machine) (address : Word) : Except Trap Word :=
  (cell address).map fun i => m.data[i.val]

def store (m : Machine) (address value : Word) : Except Trap Machine :=
  (cell address).map fun (i : Fin 1024) => { m with data := m.data.set i.val value }

def fetch (code : Code) (pc : Word) : Except Trap Instruction :=
  match if 0 ≤ pc.toInt then code.get? pc.toInt.toNat else none with
  | some instruction => .ok instruction
  | none => .error (.noInstruction pc)

def checked (result : Except Overflow Word) : Except Trap Word :=
  result.mapError .overflow

/-- Sums, differences and products wrap; a quotient is rounded toward zero. -/
def runRegisters (m : Machine) (pc : Word) (opcode : Opcode) (r s t : Register) :
    Except Trap Machine :=
  let a := m.get s
  let b := m.get t
  match opcode with
  | .input =>
    match m.input with
    | [] => .error .inputExhausted
    | value :: rest => .ok ({ m with input := rest }.set r value)
  | .output => .ok { m with output := m.output.push (m.get r) }
  | .add => .ok (m.set r (a + b))
  | .sub => .ok (m.set r (a - b))
  | .mul => .ok (m.set r (a * b))
  | .div => if b = 0 then .error (.divisionByZero pc) else (checked (a.div b)).map (m.set r)
  | _ => .error (.registerOperands opcode)

def jumpIf (m : Machine) (taken : Bool) (target : Word) : Machine :=
  if taken then m.set .pc target else m

/-- The effective address must fit a word even where the instruction makes no use of it. -/
def runMemory (m : Machine) (opcode : Opcode) (r : Register) (d : Word) (s : Register) :
    Except Trap Machine := do
  let address ← checked (d.add (m.get s))
  let value := m.get r
  match opcode with
  | .ld => return m.set r (← m.load address)
  | .st => m.store address value
  | .lda => return m.set r address
  | .ldc => return m.set r d
  | .jlt => return m.jumpIf (value < 0) address
  | .jle => return m.jumpIf (value ≤ 0) address
  | .jgt => return m.jumpIf (0 < value) address
  | .jge => return m.jumpIf (0 ≤ value) address
  | .jeq => return m.jumpIf (value = 0) address
  | .jne => return m.jumpIf (value ≠ 0) address
  | _ => throw (.memoryOperands opcode)

/-- Runs the instruction that the program counter points at. The counter moves on before the
instruction takes effect. -/
def step (code : Code) (m : Machine) : Except Trap Progress := do
  let pc := m.get .pc
  let instruction ← fetch code pc
  let m := m.set .pc (← checked (pc.add 1))
  match instruction.opcode, instruction.operands with
  | .halt, _ => return .halted m
  | opcode, .registers r s t => return .running (← m.runRegisters pc opcode r s t)
  | opcode, .memory r d s => return .running (← m.runMemory opcode r d s)

/-- Takes at most `limit` steps. -/
def runWithin (code : Code) : (limit : Nat) → Machine → Except Trap Machine
  | 0, _ => .error .stepLimit
  | limit + 1, m =>
    match m.step code with
    | .ok (.running m) => runWithin code limit m
    | .ok (.halted m) => .ok m
    | .error trap => .error trap

def stepLimit : Nat := 200000

end Machine

namespace Code

/-- The machine at its halt instruction. -/
def run (code : Code) (input : List Word) : Except Trap Machine :=
  Machine.runWithin code Machine.stepLimit (.start input)

end Code

end CMinus
