import CMinus.Frame

namespace CMinus

/-- A variable of a block or of the global scope. -/
inductive Item where
  | int (name : String)
  | array (name : String) (length : Size)

namespace Item

def name : Item → String
  | int name => name
  | array name _ => name

def cells : Item → Nat
  | int _ => 1
  | array _ length => length.toNat

def declaration : Item → Declaration
  | int name => .int name
  | array name length => .array name length

/-- The cells that a list of variables takes. -/
def extent : List Item → Nat
  | [] => 0
  | item :: rest => item.cells + extent rest

end Item

/-- A statement. Expressions hold no declarations, so they are as in a tree. -/
inductive Stmt where
  | expression (e : Node)
  | block (items : Option (List Item)) (body : List Stmt)
  | branch (test : Node) (thenPart : Stmt) (elsePart : Option Stmt)
  | loop (test : Node) (body : Stmt)
  | ret (value : Option Node)

namespace Stmt

/-- The table that a block starts from. -/
def root : Option Table → Table
  | none => .new .block
  | some outer => outer.nested

mutual

/-- The tree of a statement in a function that returns `returns`, inside blocks of which `outer` is
the innermost one with a table. -/
def layout (returns : ReturnType) (outer : Option Table) : Stmt → Except DeclareError Node
  | expression e => .ok e
  | block none body => do return .compound none (← layoutAll returns outer body)
  | block (some items) body => do
    let table ← (root outer).declareAll (items.map Item.declaration)
    return .compound (some table) (← layoutAll returns (some table) body)
  | branch test thenPart elsePart => do
    let thenPart ← thenPart.layout returns outer
    let elsePart ← layoutOptional returns outer elsePart
    return .branch test thenPart elsePart
  | loop test body => do return .loop test (← body.layout returns outer)
  | ret value => .ok (.ret returns value)

def layoutAll (returns : ReturnType) (outer : Option Table) :
    List Stmt → Except DeclareError (List Node)
  | [] => .ok []
  | stmt :: rest => do
    let node ← stmt.layout returns outer
    return node :: (← layoutAll returns outer rest)

def layoutOptional (returns : ReturnType) (outer : Option Table) :
    Option Stmt → Except DeclareError (Option Node)
  | none => .ok none
  | some stmt => do return some (← stmt.layout returns outer)

end

mutual

/-- The cells that a statement needs in its function's frame, when the blocks around it take the
first `outer` ones. -/
def frame (outer : Nat) : Stmt → Nat
  -- An expression holds no block, so this is 0.
  | expression e => e.frameSize.toNat
  | block none body => frameAll outer body
  | block (some items) body =>
    max (frameAll (outer + Item.extent items) body) (outer + Item.extent items)
  | branch _ thenPart elsePart => max (thenPart.frame outer) (frameOptional outer elsePart)
  | loop _ body => body.frame outer
  | ret _ => 0

def frameAll (outer : Nat) : List Stmt → Nat
  | [] => 0
  | stmt :: rest => max (stmt.frame outer) (frameAll outer rest)

def frameOptional (outer : Nat) : Option Stmt → Nat
  | none => 0
  | some stmt => stmt.frame outer

end

end Stmt

structure Function where
  name : String
  params : List (String × VarType)
  returns : ReturnType
  body : Stmt

namespace Function

/-- A parameter takes one cell whichever way it is declared. -/
def table (f : Function) : Except DeclareError Table :=
  (Table.new .param).declareAll (f.params.map fun param => .param param.1 param.2)

def layout (f : Function) : Except DeclareError Node := do
  return .function f.name f.returns (← f.body.layout f.returns none)

def layoutAll : List Function → Except DeclareError (List Node)
  | [] => .ok []
  | f :: rest => do
    let node ← f.layout
    return node :: (← layoutAll rest)

end Function

/-- A program with its variables by name only. -/
structure Source where
  globals : List Item
  functions : List Function

namespace Source

def function? (s : Source) (name : String) : Option Function :=
  s.functions.find? (·.name = name)

/-- The program `p` is the tree of `s`. It may know the signatures of further functions. -/
structure Lays (s : Source) (p : Program) : Prop where
  globals : (Table.new .global).declareAll (s.globals.map Item.declaration) = .ok p.globals
  signatures : ∀ f ∈ s.functions, ∃ table, f.table = .ok table ∧
    p.signature? f.name = some ⟨f.returns, table⟩
  declarations : Function.layoutAll s.functions = .ok p.declarations

end Source

end CMinus
