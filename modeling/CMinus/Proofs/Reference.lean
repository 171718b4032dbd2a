import CMinus.Proofs.Source

namespace CMinus

/-- Why the interpreter stops early. -/
inductive Stop where
  | inputExhausted
  | divisionByZero
  | quotientOverflow
  /-- A variable is read before anything is assigned to it. -/
  | unset
  | outOfRange
  /-- An array stands for a number or a number for an array, or a call or a return does not fit its
  function. -/
  | illTyped
  /-- A function that has a result ends without a return. -/
  | noResult
  | noRoom
  | outOfFuel
  deriving DecidableEq

inductive Binding where
  | scalar (cell : Nat)
  | array (first length : Nat)

/-- The variable has the cells from number `n` on. -/
def Item.binding (n : Nat) : Item → Binding
  | .int _ => .scalar n
  | .array _ length => .array n length.toNat

/-- The visible variables; the first binding of a name counts. -/
abbrev Bindings := List (String × Binding)

namespace Bindings

def scalar (env : Bindings) (name : String) : Except Stop Nat :=
  match env.lookup name with
  | some (.scalar cell) => .ok cell
  | _ => .error .illTyped

def array (env : Bindings) (name : String) : Except Stop (Nat × Nat) :=
  match env.lookup name with
  | some (.array first length) => .ok (first, length)
  | _ => .error .illTyped

/-- Gives variables the cells from number `n` on. -/
def ofItems : Nat → List Item → Bindings
  | _, [] => []
  | n, item :: rest => (item.name, item.binding n) :: ofItems (n + item.cells) rest

end Bindings

/-- Cells that nothing was assigned to are empty. -/
structure Store where
  cells : List (Option Word)
  input : List Word
  output : List Word

namespace Store

def read (σ : Store) (cell : Nat) : Except Stop Word :=
  match σ.cells[cell]? with
  | some (some w) => .ok w
  | _ => .error .unset

def write (σ : Store) (cell : Nat) (w : Word) : Store :=
  { σ with cells := σ.cells.set cell (some w) }

def allocate (σ : Store) (cells : List (Option Word)) : Store :=
  { σ with cells := σ.cells ++ cells }

/-- Drops all cells but the first `n`. -/
def release (σ : Store) (n : Nat) : Store :=
  { σ with cells := σ.cells.take n }

end Store

/-- An argument is a number, or the cells of an array. -/
inductive Argument where
  | word (w : Word)
  | array (first length : Nat)

namespace Argument

/-- The kind of parameter that takes the argument. -/
def ty : Argument → VarType
  | word _ => .int
  | array .. => .array

def contents : Argument → List (Option Word)
  | word w => [some w]
  | array .. => []

/-- A scalar parameter gets the cell with number `n`; an array parameter shares those of its
argument. -/
def binding (n : Nat) : Argument → Binding
  | word _ => .scalar n
  | array first length => .array first length

end Argument

/-- Binds parameters to arguments, with cells from number `n` on. -/
def Bindings.ofArguments : Nat → List (String × VarType) → List Argument → Bindings
  | n, param :: params, arg :: args =>
    (param.1, arg.binding n) :: ofArguments (n + arg.contents.length) params args
  | _, _, _ => []

namespace BinaryOp

def truth (b : Bool) : Word :=
  if b then 1 else 0

/-- Sums, differences and products wrap and a quotient is rounded toward zero. Comparisons look at
the sign of the wrapped difference. -/
def value (op : BinaryOp) (a b : Word) : Except Stop Word :=
  match op with
  | add => .ok (a + b)
  | sub => .ok (a - b)
  | mul => .ok (a * b)
  | div => if b = 0 then .error .divisionByZero else (a.div b).mapError fun _ => .quotientOverflow
  | equal => .ok (truth (a - b = 0))
  | notEqual => .ok (truth (a - b ≠ 0))
  | lessThan => .ok (truth (a - b < 0))
  | greaterThan => .ok (truth (0 < a - b))
  | lessOrEqual => .ok (truth (a - b ≤ 0))
  | greaterOrEqual => .ok (truth (0 ≤ a - b))

end BinaryOp

/-- How a statement ends. -/
inductive Flow where
  | next
  | returned (value : Option Word)

namespace Flow

/-- What a call of a function gives, by the way its body ends. -/
def result (returns : ReturnType) (flow : Flow) : Except Stop (Option Word) :=
  match returns, flow with
  | .void, .next | .void, .returned none => .ok none
  | .int, .returned (some w) | .array, .returned (some w) => .ok (some w)
  | .int, .next | .array, .next => .error .noResult
  | _, _ => .error .illTyped

end Flow

/-- Makes sure that `n` more stack cells can be used. -/
def need (room n : Nat) : Except Stop Unit :=
  if n ≤ room then .ok () else .error .noRoom

namespace Source

variable (s : Source) (globals : Bindings)

mutual

/-- The value of an expression. A value that waits for the next one takes a stack cell. -/
def eval (fuel : Nat) (env : Bindings) (room : Nat) (node : Node) (σ : Store) :
    Except Stop (Word × Store) :=
  match fuel with
  | 0 => .error .outOfFuel
  | fuel + 1 =>
    match node with
    | .number value => .ok (value, σ)
    | .var name => do
      let cell ← env.scalar name
      let w ← σ.read cell
      return (w, σ)
    | .element name index => do
      let (cell, σ) ← element fuel env room name index σ
      let w ← σ.read cell
      return (w, σ)
    | .assign (.var name) value => do
      let cell ← env.scalar name
      need room 1
      let (w, σ) ← eval fuel env (room - 1) value σ
      return (w, σ.write cell w)
    | .assign (.element name index) value => do
      let (cell, σ) ← element fuel env room name index σ
      need room 1
      let (w, σ) ← eval fuel env (room - 1) value σ
      return (w, σ.write cell w)
    | .binary op left right => do
      let (a, σ) ← eval fuel env room left σ
      need room 1
      let (b, σ) ← eval fuel env (room - 1) right σ
      let w ← op.value a b
      return (w, σ)
    | .call name args => do
      let (result, σ) ← invoke fuel env room name args σ
      match result with
      | some w => return (w, σ)
      | none => throw .illTyped
    | _ => .error .illTyped

def element (fuel : Nat) (env : Bindings) (room : Nat) (name : String) (index : Node) (σ : Store) :
    Except Stop (Nat × Store) :=
  match fuel with
  | 0 => .error .outOfFuel
  | fuel + 1 => do
    let (first, length) ← env.array name
    need room 1
    let (i, σ) ← eval fuel env (room - 1) index σ
    if 0 ≤ i.toInt ∧ i.toInt < length then return (first + i.toInt.toNat, σ)
    else throw .outOfRange

/-- The arguments of a call. The last one is evaluated first. -/
def arguments (fuel : Nat) (env : Bindings) (room : Nat) (params : List VarType)
    (args : List Node) (σ : Store) : Except Stop (List Argument × Store) :=
  match fuel with
  | 0 => .error .outOfFuel
  | fuel + 1 =>
    match params, args with
    | [], [] => .ok ([], σ)
    | .int :: params, arg :: args => do
      let (rest, σ) ← arguments fuel env room params args σ
      let (w, σ) ← eval fuel env (room - rest.length) arg σ
      need room (rest.length + 1)
      return (.word w :: rest, σ)
    | .array :: params, .var name :: args => do
      let (rest, σ) ← arguments fuel env room params args σ
      let (first, length) ← env.array name
      need room (rest.length + 1)
      return (.array first length :: rest, σ)
    | _, _ => .error .illTyped

/-- A call. Beside its arguments it takes a stack cell for the return address, and a declared
function takes one more for the caller's frame base, and its frame. -/
def invoke (fuel : Nat) (env : Bindings) (room : Nat) (name : String) (args : List Node)
    (σ : Store) : Except Stop (Option Word × Store) :=
  match fuel with
  | 0 => .error .outOfFuel
  | fuel + 1 =>
    if name = "input" then do
      let (_, σ) ← arguments fuel env room [] args σ
      need room 1
      match σ.input with
      | [] => throw .inputExhausted
      | w :: rest => return (some w, { σ with input := rest })
    else if name = "output" then do
      let (args, σ) ← arguments fuel env room [.int] args σ
      need room 2
      match args with
      | [.word w] => return (none, { σ with output := σ.output ++ [w] })
      | _ => throw .illTyped
    else
      match s.function? name with
      | none => .error .illTyped
      | some f => do
        let (args, σ) ← arguments fuel env room (f.params.map (·.2)) args σ
        let taken := args.length + 2 + f.body.frame 0
        need room taken
        let env := Bindings.ofArguments σ.cells.length f.params args ++ globals
        let cells := args.flatMap Argument.contents
        let (flow, σ') ← exec fuel f.returns env (room - taken) f.body (σ.allocate cells)
        let result ← flow.result f.returns
        return (result, σ'.release σ.cells.length)

/-- Runs a statement of a function that returns `returns`. -/
def exec (fuel : Nat) (returns : ReturnType) (env : Bindings) (room : Nat) (stmt : Stmt)
    (σ : Store) : Except Stop (Flow × Store) :=
  match fuel with
  | 0 => .error .outOfFuel
  | fuel + 1 =>
    match stmt with
    | .expression (.call name args) => do
      let (_, σ) ← invoke fuel env room name args σ
      return (.next, σ)
    | .expression e => do
      let (_, σ) ← eval fuel env room e σ
      return (.next, σ)
    | .block none body => execAll fuel returns env room body σ
    | .block (some items) body => do
      let inner := Bindings.ofItems σ.cells.length items ++ env
      let cells := List.replicate (Item.extent items) none
      let (flow, σ') ← execAll fuel returns inner room body (σ.allocate cells)
      return (flow, σ'.release σ.cells.length)
    | .branch test thenPart elsePart => do
      let (w, σ) ← eval fuel env room test σ
      if w = 0 then
        match elsePart with
        | none => return (.next, σ)
        | some stmt => exec fuel returns env room stmt σ
      else exec fuel returns env room thenPart σ
    | .loop test body => do
      let (w, σ) ← eval fuel env room test σ
      if w = 0 then return (.next, σ)
      else
        let (flow, σ) ← exec fuel returns env room body σ
        match flow with
        | .next => exec fuel returns env room (.loop test body) σ
        | .returned value => return (.returned value, σ)
    | .ret value =>
      match returns, value with
      | .void, none => .ok (.returned none, σ)
      | .int, some e | .array, some e => do
        let (w, σ) ← eval fuel env room e σ
        return (.returned (some w), σ)
      | _, _ => .error .illTyped

def execAll (fuel : Nat) (returns : ReturnType) (env : Bindings) (room : Nat) (body : List Stmt)
    (σ : Store) : Except Stop (Flow × Store) :=
  match fuel with
  | 0 => .error .outOfFuel
  | fuel + 1 =>
    match body with
    | [] => .ok (.next, σ)
    | stmt :: rest => do
      let (flow, σ) ← exec fuel returns env room stmt σ
      match flow with
      | .next => execAll fuel returns env room rest σ
      | .returned value => return (.returned value, σ)

end

/-- The output of a program. Global variables start as 0, in the cells below the last one of the
machine's memory; the stack gets what is left. -/
def run (fuel : Nat) (input : List Word) : Except Stop (List Word) := do
  let size := Item.extent s.globals
  need 1023 size
  let σ : Store := ⟨List.replicate size (some 0), input, []⟩
  let (_, σ) ← invoke s (.ofItems 0 s.globals) fuel [] (1023 - size) "main" [] σ
  return σ.output

end Source

end CMinus
