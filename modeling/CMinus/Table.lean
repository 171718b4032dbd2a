import CMinus.Word
import CMinus.NameMap

namespace CMinus

/-- Where the variables of a table live. -/
inductive Scope where
  | global
  | block
  | param
  deriving DecidableEq, Repr

inductive VarType where
  | int
  | array
  deriving DecidableEq, Repr

inductive ReturnType where
  | int
  | array
  | void
  deriving DecidableEq, Repr

structure Variable where
  scope : Scope
  ty : VarType
  offset : Size
  deriving DecidableEq, Repr

/-- One lexical scope. `size` counts the cells taken so far, those of enclosing blocks included. -/
structure Table where
  scope : Scope
  size : Size
  vars : NameMap Variable
  deriving DecidableEq

inductive DeclareError where
  | duplicate (name : String)
  | overflow (operation : Overflow)
  deriving DecidableEq, Repr

namespace DeclareError

def message : DeclareError → String
  | duplicate name => s!"`{name}` is already declared in this scope"
  | overflow operation => operation.message

end DeclareError

/-- A request to add one name to a table. -/
inductive Declaration where
  | int (name : String)
  | array (name : String) (length : Size)
  | param (name : String) (ty : VarType)
  deriving DecidableEq, Repr

namespace Table

def new (scope : Scope) : Table :=
  ⟨scope, 0, .empty⟩

/-- A block nested in `parent`: its cells start where those of `parent` end. -/
def nested (parent : Table) : Table :=
  ⟨.block, parent.size, .empty⟩

def get? (t : Table) (name : String) : Option Variable :=
  t.vars.get? name

/-- Gives `name` the next `cells` cells, unless the table already declares it. -/
def allocate (t : Table) (name : String) (ty : VarType) (offset cells : Size) :
    Except DeclareError (Variable × Table) :=
  if t.vars.contains name then .error (.duplicate name)
  else
    let symbol := ⟨t.scope, ty, offset⟩
    match t.size.add cells with
    | .ok size => .ok (symbol, ⟨t.scope, size, t.vars.insert name symbol⟩)
    | .error operation => .error (.overflow operation)

def declareParam (t : Table) (name : String) (ty : VarType) :
    Except DeclareError (Variable × Table) :=
  t.allocate name ty t.size 1

def declareInt (t : Table) (name : String) : Except DeclareError (Variable × Table) :=
  match t.scope with
  | .param => t.declareParam name .int
  | .global | .block => t.allocate name .int t.size 1

/-- A scalar lies at `base - 1 - offset` and an array starts at `base - offset`, so an array gets the
offset after the one that a scalar would get. -/
def declareArray (t : Table) (name : String) (length : Size) :
    Except DeclareError (Variable × Table) :=
  match t.scope with
  | .param => t.declareParam name .array
  | .global | .block =>
    match t.size.add 1 with
    | .ok offset => t.allocate name .array offset length
    | .error operation => .error (.overflow operation)

def declare (t : Table) : Declaration → Except DeclareError (Variable × Table)
  | .int name => t.declareInt name
  | .array name length => t.declareArray name length
  | .param name ty => t.declareParam name ty

def declareAll (t : Table) : List Declaration → Except DeclareError Table
  | [] => .ok t
  | d :: rest =>
    match t.declare d with
    | .ok (_, t) => t.declareAll rest
    | .error e => .error e

end Table

/-- What a caller has to know of a function. -/
structure Signature where
  returns : ReturnType
  params : Table
  deriving DecidableEq

namespace Signature

def paramCount (f : Signature) : Size :=
  f.params.size

end Signature

/-- The scopes that are visible at some point, innermost first. -/
abbrev Scopes := List Table

namespace Scopes

/-- The innermost declaration of a name wins. -/
def lookup (name : String) (scopes : Scopes) : Option Variable :=
  scopes.findSome? (·.get? name)

end Scopes

end CMinus
