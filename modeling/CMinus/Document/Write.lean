import CMinus.Document.Name
import CMinus.Json.Writer

namespace CMinus

open Json

namespace Document

def writeName (name : String) : List Char :=
  Text.encode name

def writeSize (size : Size) : List Char :=
  Writer.integer size.toNat

def writeNames {α : Type} (item : α → List Char) (m : NameMap α) : List Char :=
  Writer.object (m.entries.map fun (name, value) => (name, item value))

def writeOption {α : Type} (item : α → List Char) : Option α → List Char
  | none => Writer.null
  | some value => item value

end Document

open Document

namespace Scope

def write (s : Scope) : List Char :=
  writeName s.name

end Scope

namespace VarType

def write (t : VarType) : List Char :=
  writeName t.name

end VarType

namespace ReturnType

def write (t : ReturnType) : List Char :=
  writeName t.name

end ReturnType

namespace BinaryOp

def write (op : BinaryOp) : List Char :=
  writeName op.name

end BinaryOp

namespace Variable

def write (v : Variable) : List Char :=
  Writer.object [("scope", v.scope.write), ("ty", v.ty.write), ("offset", writeSize v.offset)]

end Variable

namespace Table

def write (t : Table) : List Char :=
  Writer.object
    [("scope", t.scope.write), ("size", writeSize t.size),
     ("vars", writeNames Variable.write t.vars)]

end Table

namespace Signature

def write (f : Signature) : List Char :=
  Writer.object [("return_type", f.returns.write), ("params", f.params.write)]

end Signature

namespace Node

mutual

def write : Node → List Char
  | function name returns body =>
    Writer.variant "FunctionDecl" <| Writer.object
      [("name", writeName name), ("return_type", returns.write), ("body", body.write)]
  | compound table statements =>
    Writer.variant "Compound" <| Writer.list
      [writeOption Table.write table, Writer.list (writeEach statements)]
  | branch test thenPart elsePart =>
    Writer.variant "If" <| Writer.list [test.write, thenPart.write, writeOptional elsePart]
  | loop test body => Writer.variant "While" <| Writer.list [test.write, body.write]
  | ret returns value =>
    Writer.variant "Return" <| Writer.list [returns.write, writeOptional value]
  | number value => Writer.variant "Number" <| Writer.integer value.toInt
  | var name => Writer.variant "Var" <| writeName name
  | element name index => Writer.variant "ArrayElement" <| Writer.list [writeName name, index.write]
  | assign target value => Writer.variant "Assign" <| Writer.list [target.write, value.write]
  | binary op left right =>
    Writer.variant "Binary" <| Writer.list [op.write, left.write, right.write]
  | call name args =>
    Writer.variant "Call" <| Writer.list [writeName name, Writer.list (writeEach args)]

def writeEach : List Node → List (List Char)
  | [] => []
  | node :: rest => node.write :: writeEach rest

def writeOptional : Option Node → List Char
  | none => Writer.null
  | some node => node.write

end

end Node

namespace Program

def write (p : Program) : List Char :=
  Writer.object
    [("globals", p.globals.write), ("functions", writeNames Signature.write p.functions),
     ("declarations", Writer.list (Node.writeEach p.declarations))]

end Program

end CMinus
