import CMinus.Sequence
import CMinus.Generate.Failure

namespace CMinus

/-- A function whose code has begun. -/
structure Entry where
  address : Nat
  params : Size
  deriving DecidableEq

/-- What is known at a point of a function body. -/
structure Env where
  functions : NameMap Signature
  entries : NameMap Entry
  scopes : Scopes

namespace Env

def resolve (env : Env) (name : String) : Except Failure Variable :=
  match env.scopes.lookup name with
  | some v => .ok v
  | none => .error (.rejected (.unknownVariable name))

/-- A function can be called once its code has begun. -/
def entry (env : Env) (name : String) : Except Failure Entry :=
  match env.entries.get? name with
  | some entry => .ok entry
  | none =>
    if env.functions.contains name then .error (.rejected (.unresolvedFunction name))
    else .error (.rejected (.unknownFunction name))

/-- Opens the scope of a compound statement, if it has one. -/
def enter (env : Env) (table : Option Table) : Env :=
  match table with
  | some t => { env with scopes := t :: env.scopes }
  | none => env

end Env

/-- What a reference to a variable or an array element leaves behind. -/
inductive Access where
  /-- the value in `ax` -/
  | value
  /-- the address in `bx` -/
  | address
  deriving DecidableEq, Repr

namespace Generate

/-- Leaves the address of the variable `name` in `bx`. -/
def address (env : Env) (name : String) (s : Stream) : Except Failure (Variable × Stream) := do
  let v ← env.resolve name
  let lines ← (Sequence.address v).mapError .ofOverflow
  return (v, ← s.write lines)

mutual

def expression (env : Env) (access : Access) (node : Node) (s : Stream) :
    Except Failure Stream :=
  match node with
  | .number value => s.write [.memory .ldc .ax value .ax "store number"]
  | .var name => do
    let (v, s) ← address env name s
    match access with
    | .value => s.write (Sequence.load v)
    | .address => return s
  | .element name index => do
    let (_, s) ← address env name (s.comment "-> array element")
    let s ← s.write (Sequence.push .bx "protect array address")
    let s ← expression env .value index s
    let s ← s.write (Sequence.pop .bx "recover array address" ++
      [.registers .sub .bx .bx .ax "get address of array element"])
    let s ← match access with
      | .value => s.write [.memory .ld .ax 0 .bx "get value of array element"]
      | .address => pure s
    return s.comment "<- array element"
  | .assign target value => do
    if target.isPlace then
      let s ← expression env .address target (s.comment "-> assign")
      let s ← s.write (Sequence.push .bx "protect bx")
      let s ← expression env .value value s
      let s ← s.write (Sequence.pop .bx "recover bx" ++
        [.memory .st .ax 0 .bx "assign: store"])
      return s.comment "<- assign"
    else throw (.rejected (.unexpectedNode target.kind .assignmentTarget))
  | .binary op left right => do
    let s ← expression env .value left (s.comment "-> op")
    let s ← s.write (Sequence.push .ax "op: protect left")
    let s ← expression env .value right s
    let s ← s.write (Sequence.pop .bx "op: recover left" ++ Sequence.apply op)
    return s.comment "<- op"
  | .call name args => do
    let entry ← env.entry name
    let s ← arguments env args (s.comment "-> call")
    let s ← s.write (Sequence.call entry.address entry.params)
    return s.comment "<- call"
  | other => .error (.rejected (.unexpectedNode other.kind .expression))

/-- Pushes the arguments from right to left, so the first one ends up on top. -/
def arguments (env : Env) (args : List Node) (s : Stream) : Except Failure Stream :=
  match args with
  | [] => .ok s
  | arg :: rest => do
    let s ← arguments env rest s
    let s ← expression env .value arg s
    s.write (Sequence.push .ax "push parameters")

end

mutual

/-- A jump whose target lies ahead gets a skipped slot, which is filled when the target is known. -/
def statement (env : Env) (node : Node) (s : Stream) : Except Failure Stream :=
  match node with
  | .function .. => .error (.rejected (.unexpectedNode node.kind .functionBody))
  | .compound table body => do
    let s ← statements (env.enter table) body (s.comment "-> compound")
    return s.comment "<- compound"
  | .branch test thenPart elsePart => do
    let s ← expression env .value test (s.comment "-> if")
    let toElse := s.cursor
    let s ← s.skip 1
    let s ← statement env thenPart (s.comment "jump to else")
    let toEnd := s.cursor
    let s ← s.skip 1
    let s := s.comment "jump to end"
    let s ← s.patch toElse [.memory .jeq .ax (Word.low s.cursor) .zero "if: jmp to else"]
    let s ← optional env elsePart s
    let s ← s.patch toEnd [.memory .lda .pc (Word.low s.cursor) .zero "jmp to end"]
    return s.comment "<- if"
  | .loop test body => do
    let s := s.comment "-> while"
    let start := s.cursor
    let s ← expression env .value test (s.comment "jump here after body")
    let toEnd := s.cursor
    let s ← s.skip 1
    let s ← statement env body (s.comment "jump to end if test fails")
    let s ← s.write [.memory .lda .pc (Word.low start) .zero "jump to test"]
    let s ← s.patch toEnd [.memory .jeq .ax (Word.low s.cursor) .zero "jump to end"]
    return s.comment "<- while"
  | .ret returns value => do
    let s := s.comment "-> return"
    let s ← match returns, value with
      | .void, _ => pure s
      | _, none => pure s
      | _, some value => expression env .value value s
    let s ← s.write Sequence.epilogue
    return s.comment "<- return"
  | expr => expression env .value expr s

def statements (env : Env) (nodes : List Node) (s : Stream) : Except Failure Stream :=
  match nodes with
  | [] => .ok s
  | node :: rest => do
    let s ← statement env node s
    statements env rest s

def optional (env : Env) (node : Option Node) (s : Stream) : Except Failure Stream :=
  match node with
  | none => .ok s
  | some node => statement env node s

end

end Generate

end CMinus
