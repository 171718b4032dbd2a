import CMinus.Tree

namespace CMinus

namespace Scope

def name : Scope → String
  | global => "Global"
  | block => "Local"
  | param => "Param"

def all : List Scope := [global, block, param]

end Scope

namespace VarType

def name : VarType → String
  | int => "Int"
  | array => "Array"

def all : List VarType := [int, array]

end VarType

namespace ReturnType

def name : ReturnType → String
  | int => "Int"
  | array => "Array"
  | void => "Void"

def all : List ReturnType := [int, array, void]

end ReturnType

namespace BinaryOp

def name : BinaryOp → String
  | add => "Add"
  | sub => "Sub"
  | mul => "Mul"
  | div => "Div"
  | equal => "Equal"
  | notEqual => "NotEqual"
  | lessThan => "LessThan"
  | greaterThan => "GreaterThan"
  | lessOrEqual => "LessOrEqual"
  | greaterOrEqual => "GreaterOrEqual"

def all : List BinaryOp :=
  [add, sub, mul, div, equal, notEqual, lessThan, greaterThan, lessOrEqual, greaterOrEqual]

end BinaryOp

end CMinus
