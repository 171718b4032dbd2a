import CMinus.Table

namespace CMinus

inductive BinaryOp where
  | add
  | sub
  | mul
  | div
  | equal
  | notEqual
  | lessThan
  | greaterThan
  | lessOrEqual
  | greaterOrEqual
  deriving DecidableEq, Repr

namespace BinaryOp

def symbol : BinaryOp → String
  | add => "+"
  | sub => "-"
  | mul => "*"
  | div => "/"
  | equal => "=="
  | notEqual => "!="
  | lessThan => "<"
  | greaterThan => ">"
  | lessOrEqual => "<="
  | greaterOrEqual => ">="

end BinaryOp

/-- Statements and expressions share one type: an expression is also a statement. -/
inductive Node where
  | function (name : String) (returns : ReturnType) (body : Node)
  | compound (table : Option Table) (statements : List Node)
  | branch (test thenPart : Node) (elsePart : Option Node)
  | loop (test body : Node)
  | ret (returns : ReturnType) (value : Option Node)
  | number (value : Word)
  | var (name : String)
  | element (name : String) (index : Node)
  | assign (target value : Node)
  | binary (op : BinaryOp) (left right : Node)
  | call (name : String) (args : List Node)

namespace Node

instance : Inhabited Node := ⟨.number 0⟩

/-- The name of a node's form in messages. -/
def kind : Node → String
  | function .. => "function declaration"
  | compound .. => "compound statement"
  | branch .. => "if statement"
  | loop .. => "while statement"
  | ret .. => "return statement"
  | number .. => "number"
  | var .. => "variable"
  | element .. => "array element"
  | assign .. => "assignment"
  | binary .. => "binary expression"
  | call .. => "call"

/-- A node that denotes a cell of memory. -/
def isPlace : Node → Bool
  | var .. | element .. => true
  | _ => false

end Node

/-- Function definitions in source order, with the tables of the global scope and of all functions.
Global variables have no node of their own. -/
structure Program where
  globals : Table
  functions : NameMap Signature
  declarations : List Node

namespace Program

def ofDeclarations (declarations : List Node) : Program :=
  ⟨.new .global, .empty, declarations⟩

def signature? (p : Program) (name : String) : Option Signature :=
  p.functions.get? name

end Program

end CMinus
