import CMinus.NameMap
import CMinus.Machine.Instruction

namespace CMinus

/-- A text that stands before the instruction at `address` in a listing. -/
structure Comment where
  address : Nat
  text : String
  deriving DecidableEq

namespace Comment

def line (c : Comment) : String :=
  "* " ++ c.text

end Comment

/-- Code with its comments in address order. -/
structure Code where
  slots : Array (Option Instruction)
  comments : List Comment
  entries : NameMap Nat

namespace Code

/-- The number of addresses in use, empty slots included. -/
def size (c : Code) : Nat :=
  c.slots.size

def get? (c : Code) (address : Nat) : Option Instruction :=
  c.slots[address]?.join

def instructions (c : Code) : List Instruction :=
  c.slots.toList.filterMap id

def entry? (c : Code) (name : String) : Option Nat :=
  c.entries.get? name

/-- The lines of the slots from `address` on. Each slot is preceded by the comments that are due. -/
def linesFrom (address : Nat) : List (Option Instruction) → List Comment → List String
  | [], comments => comments.map Comment.line
  | slot :: slots, comments =>
    (comments.takeWhile (·.address ≤ address)).map Comment.line ++
      slot.toList.map Instruction.text ++
        linesFrom (address + 1) slots (comments.dropWhile (·.address ≤ address))

def lines (c : Code) : List String :=
  linesFrom 0 c.slots.toList c.comments

def listing (c : Code) : String :=
  String.join (c.lines.map (· ++ "\n"))

end Code

end CMinus
