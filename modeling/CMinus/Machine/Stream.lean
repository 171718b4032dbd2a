import CMinus.Machine.Code

namespace CMinus

/-- A broken promise of the program that drives a stream. -/
inductive Fault where
  | overflow (operation : Overflow)
  | operandForm (opcode : Opcode)
  deriving DecidableEq, Repr

namespace Fault

def message : Fault → String
  | overflow operation => operation.message
  | operandForm opcode =>
    s!"assertion `left == right` failed: operand form does not match {opcode.mnemonic}"

end Fault

/-- An operation with the remark that a traced listing prints beside it. -/
structure Line extends Operation where
  remark : String

namespace Line

def registers (opcode : Opcode) (r s t : Register) (remark : String) : Line :=
  ⟨⟨opcode, .registers r s t⟩, remark⟩

def memory (opcode : Opcode) (r : Register) (d : Word) (s : Register) (remark : String) : Line :=
  ⟨⟨opcode, .memory r d s⟩, remark⟩

end Line

/-- Slots are numbered by address. Comments are kept in the order in which they were made, and
only a traced stream keeps comments and remarks. -/
structure Stream where
  slots : Array (Option Instruction)
  comments : Array Comment
  entries : NameMap Nat
  cursor : Nat
  trace : Bool

namespace Stream

def new (trace : Bool) : Stream :=
  ⟨#[], #[], .empty, 0, trace⟩

/-- The end of the code: no address from here on was ever in use. -/
def highWater (s : Stream) : Nat :=
  s.slots.size

/-- Adds empty slots until there are at least `n`. -/
def grow (slots : Array (Option Instruction)) (n : Nat) : Array (Option Instruction) :=
  slots ++ Array.replicate (n - slots.size) none

@[simp]
theorem size_grow (slots : Array (Option Instruction)) (n : Nat) :
    (grow slots n).size = max slots.size n := by
  rw [grow, Array.size_append, Array.size_replicate]
  omega

/-- Writes at the cursor and moves the cursor on. -/
def place (s : Stream) (line : Line) : Stream :=
  let remark := if s.trace then some line.remark else none
  let instruction := ⟨line.toOperation, s.cursor, remark⟩
  { s with
    slots := (grow s.slots (s.cursor + 1)).setIfInBounds s.cursor (some instruction)
    cursor := s.cursor + 1 }

@[simp]
theorem cursor_place (s : Stream) (line : Line) : (s.place line).cursor = s.cursor + 1 := rfl

@[simp]
theorem highWater_place (s : Stream) (line : Line) :
    (s.place line).highWater = max s.highWater (s.cursor + 1) := by
  simp only [highWater, place, Array.size_setIfInBounds, size_grow]

def emit (s : Stream) (line : Line) : Except Fault Stream :=
  if line.opcode.form = line.operands.form then .ok (s.place line)
  else .error (.operandForm line.opcode)

theorem emit_of_form {line : Line} (s : Stream) (h : line.opcode.form = line.operands.form) :
    s.emit line = .ok (s.place line) :=
  if_pos h

def emitAll (s : Stream) : List Line → Except Fault Stream
  | [] => .ok s
  | line :: rest =>
    match s.emit line with
    | .ok s => s.emitAll rest
    | .error fault => .error fault

/-- Skips `count` slots. -/
def reserve (s : Stream) (count : Nat) : Except Fault Stream :=
  let cursor := s.cursor + count
  if cursor < Size.limit then .ok { s with slots := grow s.slots cursor, cursor }
  else .error (.overflow .add)

def comment (s : Stream) (text : String) : Stream :=
  if s.trace then { s with comments := s.comments.push ⟨s.cursor, text⟩ } else s

@[simp]
theorem cursor_comment (s : Stream) (text : String) : (s.comment text).cursor = s.cursor := by
  rw [comment]
  split <;> rfl

@[simp]
theorem slots_comment (s : Stream) (text : String) : (s.comment text).slots = s.slots := by
  rw [comment]
  split <;> rfl

/-- Moves the cursor to an address that is in use, or to the end. -/
def rewind? (s : Stream) (address : Nat) : Option Stream :=
  if address ≤ s.highWater then some { s with cursor := address } else none

theorem rewind?_eq_none_iff {s : Stream} {address : Nat} :
    s.rewind? address = none ↔ s.highWater < address := by
  rw [rewind?]
  split
  · simp only [reduceCtorEq, false_iff]
    omega
  · simp only [true_iff]
    omega

/-- Leaves a trace of a rewind past the end. -/
def refuse (s : Stream) (address : Nat) : Stream :=
  s.comment s!"BUG in rewind to {address}"

/-- Moves the cursor to the end. -/
def resume (s : Stream) : Stream :=
  { s with cursor := s.highWater }

@[simp]
theorem cursor_resume (s : Stream) : s.resume.cursor = s.highWater := rfl

@[simp]
theorem highWater_resume (s : Stream) : s.resume.highWater = s.highWater := rfl

def setEntry (s : Stream) (name : String) (address : Nat) : Stream :=
  { s with entries := s.entries.insert name address }

/-- Comments at one address stay in the order in which they were made. -/
def finish (s : Stream) : Code where
  slots := s.slots
  comments := s.comments.toList.mergeSort (fun a b => a.address ≤ b.address)
  entries := s.entries

end Stream

inductive Edit where
  | emit (line : Line)
  | reserve (count : Nat)
  | rewind (address : Nat)
  | resume
  | comment (text : String)
  | entry (name : String) (address : Nat)

/-- What an edit answers besides the new stream. -/
inductive Reply where
  | done
  | reserved (first : Nat)
  | beyond (address highWater : Nat)
  deriving DecidableEq, Repr

namespace Stream

def apply (s : Stream) : Edit → Except Fault (Reply × Stream)
  | .emit line => (s.emit line).map (.done, ·)
  | .reserve count => (s.reserve count).map (.reserved s.cursor, ·)
  | .rewind address =>
    match s.rewind? address with
    | some s => .ok (.done, s)
    | none => .ok (.beyond address s.highWater, s.refuse address)
  | .resume => .ok (.done, s.resume)
  | .comment text => .ok (.done, s.comment text)
  | .entry name address => .ok (.done, s.setEntry name address)

end Stream

end CMinus
