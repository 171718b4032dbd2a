import CMinus.Json.Error

namespace CMinus.Json

abbrev Reader := StateT (List Char) (Except ReadError)

namespace Reader

variable {α : Type}

def fail (e : ReadError) : Reader α :=
  fun _ => .error e

def malformed (cause : Malformed) : Reader α :=
  fail (.malformed cause)

def isBlank (c : Char) : Bool :=
  c = ' ' || c = '\t' || c = '\n' || c = '\r'

/-- Skips blanks and looks at the next character, which stays in place. -/
def peek : Reader (Option Char) := fun cs =>
  let rest := cs.dropWhile isBlank
  .ok (rest.head?, rest)

def advance : Reader Unit := fun cs =>
  .ok ((), cs.tail)

/-- The characters left. They bound the steps of a loop that reads at least one in each. -/
def remaining : Reader (List Char) := fun cs =>
  .ok (cs, cs)

/-- Reads exactly the given characters. -/
def word : List Char → Reader Unit
  | [], cs => .ok ((), cs)
  | _ :: _, [] => .error (.malformed .endInValue)
  | c :: rest, d :: cs => if c = d then word rest cs else .error (.malformed .expectedIdent)

/-- Goes one level deeper, if the budget admits another level. -/
def enter (budget : Nat) (body : Nat → Reader α) : Reader α :=
  match budget with
  | 0 => fail .tooDeep
  | budget + 1 => do
    advance
    body budget

/-- Reads a whole text: nothing but blanks may follow. -/
def run (r : Reader α) (text : String) : Except ReadError α := do
  let (value, rest) ← r text.toList
  match rest.dropWhile isBlank with
  | [] => return value
  | _ :: _ => throw (.malformed .trailingCharacters)

end Reader

end CMinus.Json
