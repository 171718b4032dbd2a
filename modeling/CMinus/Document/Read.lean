import CMinus.Document.Name
import CMinus.Json.Shape

namespace CMinus

open Json Json.Reader

namespace Document

/-- The number of brackets that may be open at once. -/
def depthLimit : Nat := 127

def parse {α : Type} (item : Nat → Reader α) (text : String) : Except ReadError α :=
  (item depthLimit).run text

def constant {α : Type} (name : α → String) (all : List α) : Nat → Reader α :=
  variant (all.map fun value => .unit (name value) value)

def name (_ : Nat) : Reader String :=
  text "a string"

def size (_ : Nat) : Reader Size := do
  return UInt64.ofNat (← integer 0 18446744073709551615 "usize").toNat

def word (_ : Nat) : Reader Word := do
  return Int32.ofInt (← integer (-2147483648) 2147483647 "i32")

def names {α : Type} (item : Nat → Reader α) : Nat → Reader (NameMap α) :=
  dictionary item NameMap.insert .empty

end Document

namespace Scope

def read : Nat → Reader Scope :=
  Document.constant name all

end Scope

namespace VarType

def read : Nat → Reader VarType :=
  Document.constant name all

end VarType

namespace ReturnType

def read : Nat → Reader ReturnType :=
  Document.constant name all

end ReturnType

namespace BinaryOp

def read : Nat → Reader BinaryOp :=
  Document.constant name all

end BinaryOp

namespace Variable

def read : Nat → Reader Variable :=
  record3 "VarSymbol" ("scope", Scope.read) ("ty", VarType.read) ("offset", Document.size) mk

end Variable

namespace Table

def read : Nat → Reader Table :=
  record3 "SymbolTable" ("scope", Scope.read) ("size", Document.size)
    ("vars", Document.names Variable.read) mk

end Table

namespace Signature

def read : Nat → Reader Signature :=
  record2 "FunSymbol" ("return_type", ReturnType.read) ("params", Table.read) mk

end Signature

namespace Node

variable {α β γ : Type}

/-- The shape of a case that carries several values. -/
def shape (name : String) : String :=
  "tuple variant Node::" ++ name

def pair (name : String) (a : Nat → Reader α) (b : Nat → Reader β) (make : α → β → Node) :
    Variant Node :=
  .tuple name <| sequence (shape name) fun budget => do
    let x ← component (shape name) 2 0 (a budget)
    let y ← component (shape name) 2 1 (b budget)
    return make x y

def triple (name : String) (a : Nat → Reader α) (b : Nat → Reader β) (c : Nat → Reader γ)
    (make : α → β → γ → Node) : Variant Node :=
  .tuple name <| sequence (shape name) fun budget => do
    let x ← component (shape name) 3 0 (a budget)
    let y ← component (shape name) 3 1 (b budget)
    let z ← component (shape name) 3 2 (c budget)
    return make x y z

def optionally (item : Nat → Reader α) (budget : Nat) : Reader (Option α) :=
  nullable (item budget)

/-- The cases of a node, given a reader for the nodes in it. -/
def variants (child : Nat → Reader Node) : List (Variant Node) :=
  [.single "FunctionDecl" <| record3 "FunctionDecl" ("name", Document.name)
      ("return_type", ReturnType.read) ("body", child) function,
   pair "Compound" (optionally Table.read) (list child) compound,
   triple "If" child child (optionally child) branch,
   pair "While" child child loop,
   pair "Return" ReturnType.read (optionally child) ret,
   .single "Number" fun budget => do return number (← Document.word budget),
   .single "Var" fun budget => do return var (← Document.name budget),
   pair "ArrayElement" Document.name child element,
   pair "Assign" child child assign,
   triple "Binary" BinaryOp.read child child binary,
   pair "Call" Document.name (list child) call]

/-- Reads nodes nested at most `levels` deep. -/
def readWithin : (levels : Nat) → Nat → Reader Node
  | 0, _ => fail .tooDeep
  | levels + 1, budget => variant (variants (readWithin levels)) budget

/-- A node opens a bracket before it comes to the nodes in it, so the budget bounds the levels. -/
def read (budget : Nat) : Reader Node :=
  readWithin (budget + 1) budget

end Node

namespace Program

def read : Nat → Reader Program :=
  record3 "Program" ("globals", Table.read) ("functions", Document.names Signature.read)
    ("declarations", list Node.read) mk

def parse (text : String) : Except ReadError Program :=
  Document.parse read text

end Program

end CMinus
