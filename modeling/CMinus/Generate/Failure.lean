import CMinus.Machine.Stream

namespace CMinus

/-- The positions of a tree that admit some forms of nodes only. -/
inductive Position where
  | topLevel
  | functionBody
  | expression
  | assignmentTarget
  deriving DecidableEq, Repr

namespace Position

def text : Position → String
  | topLevel => "top level"
  | functionBody => "function body"
  | expression => "expression"
  | assignmentTarget => "assignment target"

end Position

inductive Rejection where
  | backpatch (address highWater : Nat)
  | unexpectedNode (kind : String) (position : Position)
  | unknownVariable (name : String)
  | unknownFunction (name : String)
  | unresolvedFunction (name : String)
  | duplicateFunction (name : String)
  deriving DecidableEq, Repr

namespace Rejection

def message : Rejection → String
  | backpatch address highWater =>
    s!"backpatch at {address} is beyond the highest emitted location {highWater}"
  | unexpectedNode kind position => s!"no translation for {kind} in {position.text}"
  | unknownVariable name => s!"unknown variable `{name}`"
  | unknownFunction name => s!"unknown function `{name}`"
  | unresolvedFunction name => s!"function `{name}` is called before its body is generated"
  | duplicateFunction name => s!"function `{name}` is defined more than once"

end Rejection

/-- A program is rejected for what it says, or its sizes leave the range of a word. -/
inductive Failure where
  | rejected (reason : Rejection)
  | fault (fault : Fault)
  deriving DecidableEq, Repr

namespace Failure

def message : Failure → String
  | rejected reason => reason.message
  | fault f => f.message

def ofOverflow (operation : Overflow) : Failure :=
  fault (.overflow operation)

end Failure

namespace Stream

def write (s : Stream) (lines : List Line) : Except Failure Stream :=
  (s.emitAll lines).mapError .fault

def skip (s : Stream) (count : Nat) : Except Failure Stream :=
  (s.reserve count).mapError .fault

/-- Writes `lines` from `address` on and returns to the end. -/
def patch (s : Stream) (address : Nat) (lines : List Line) : Except Failure Stream :=
  match s.rewind? address with
  | some s => (s.write lines).map resume
  | none => .error (.rejected (.backpatch address s.highWater))

end Stream

end CMinus
