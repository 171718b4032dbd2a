import CMinus.Generate.Program

namespace CMinus

theorem bind_eq_ok {ε α β : Type} {x : Except ε α} {f : α → Except ε β} {b : β} :
    (x >>= f) = .ok b ↔ ∃ a, x = .ok a ∧ f a = .ok b := by
  cases x with
  | error e => exact ⟨fun h => (nomatch h), fun ⟨_, h, _⟩ => (nomatch h)⟩
  | ok a =>
    refine ⟨fun h => ⟨a, rfl, h⟩, ?_⟩
    rintro ⟨a', h, h'⟩
    cases h
    exact h'

@[simp]
theorem ok_bind {ε α β : Type} (a : α) (f : α → Except ε β) : (Except.ok a >>= f) = f a := rfl

@[simp]
theorem error_bind {ε α β : Type} (e : ε) (f : α → Except ε β) :
    (Except.error e >>= f) = .error e := rfl

@[simp]
theorem mapError_ok {ε ε' α : Type} (a : α) (f : ε → ε') :
    (Except.ok a : Except ε α).mapError f = .ok a := rfl

@[simp]
theorem mapError_error {ε ε' α : Type} (e : ε) (f : ε → ε') :
    (Except.error e : Except ε α).mapError f = .error (f e) := rfl

theorem mapError_eq_ok {ε ε' α : Type} {x : Except ε α} {f : ε → ε'} {a : α} :
    x.mapError f = .ok a ↔ x = .ok a := by
  cases x with
  | error e => exact ⟨fun h => (nomatch h), fun h => (nomatch h)⟩
  | ok a' => exact ⟨fun h => by cases h; rfl, fun h => by cases h; rfl⟩

theorem pure_eq {ε α : Type} (a : α) : (pure a : Except ε α) = .ok a := rfl

theorem pure_eq_ok {ε α : Type} {a b : α} : (pure a : Except ε α) = .ok b ↔ a = b :=
  ⟨fun h => by cases h; rfl, fun h => by cases h; rfl⟩

theorem eq_ok_of_toOption {ε α : Type} {x : Except ε α} {a : α} (h : x.toOption = some a) :
    x = .ok a := by
  cases x with
  | ok b => exact congrArg Except.ok (Option.some.inj h)
  | error e => cases h

/-- Every failure of `r` satisfies `Q`. -/
def Fails {ε α : Type} (Q : ε → Prop) (r : Except ε α) : Prop :=
  ∀ e, r = .error e → Q e

namespace Fails

variable {ε α β : Type} {Q : ε → Prop}

theorem ok (a : α) : Fails Q (.ok a) := by
  rintro e ⟨⟩

theorem error {e : ε} (h : Q e) : Fails Q (.error e : Except ε α) := by
  rintro e ⟨⟩
  exact h

theorem bind {x : Except ε α} {f : α → Except ε β} (hx : Fails Q x) (hf : ∀ a, Fails Q (f a)) :
    Fails Q (x >>= f) := by
  cases x with
  | error e => exact error (hx e rfl)
  | ok a => exact hf a

theorem map {x : Except ε α} (hx : Fails Q x) (f : α → β) : Fails Q (x.map f) := by
  cases x with
  | error e => exact error (hx e rfl)
  | ok a => exact ok (f a)

end Fails

namespace Node

mutual

def count : Node → Nat
  | function _ _ body => body.count + 1
  | compound _ statements => countAll statements + 1
  | branch test thenPart elsePart => test.count + thenPart.count + countOptional elsePart + 1
  | loop test body => test.count + body.count + 1
  | ret _ value => countOptional value + 1
  | number _ => 1
  | var _ => 1
  | element _ index => index.count + 1
  | assign target value => target.count + value.count + 1
  | binary _ left right => left.count + right.count + 1
  | call _ args => countAll args + 1

def countAll : List Node → Nat
  | [] => 0
  | node :: rest => node.count + countAll rest

def countOptional : Option Node → Nat
  | none => 0
  | some node => node.count

end

end Node

namespace Operation

def registers (opcode : Opcode) (r s t : Register) : Operation :=
  ⟨opcode, .registers r s t⟩

def memory (opcode : Opcode) (r : Register) (d : Word) (s : Register) : Operation :=
  ⟨opcode, .memory r d s⟩

end Operation

namespace Compile

def push (r : Register) : List Operation :=
  [.memory .lda .sp (-1) .sp, .memory .st r 0 .sp]

def pop (r : Register) : List Operation :=
  [.memory .lda .sp 1 .sp, .memory .ld r (-1) .sp]

def prologue (locals : Size) : Except Overflow (List Operation) := do
  let displacement ← locals.low.neg
  return push .bp ++ [.memory .lda .bp 0 .sp, .memory .lda .sp displacement .sp]

def epilogue : List Operation :=
  [.memory .lda .sp 0 .bp, .memory .lda .sp 2 .sp, .memory .ld .bp (-2) .sp,
   .memory .ld .pc (-1) .sp]

def call (entry : Entry) : List Operation :=
  [.memory .lda .ax 3 .pc] ++ push .ax ++
    [.memory .ldc .pc (Word.low entry.address) .ax, .memory .lda .sp entry.params.low .sp]

/-- Leaves 1 or 0 in `ax`: whether the sign of `bx - ax` lets the jump be taken. -/
def compare (jump : Opcode) : List Operation :=
  [.registers .sub .ax .bx .ax, .memory jump .ax 2 .pc, .memory .ldc .ax 0 .ax,
   .memory .lda .pc 1 .pc, .memory .ldc .ax 1 .ax]

/-- Applies an operator to the left operand in `bx` and the right operand in `ax`. -/
def apply : BinaryOp → List Operation
  | .add => [.registers .add .ax .bx .ax]
  | .sub => [.registers .sub .ax .bx .ax]
  | .mul => [.registers .mul .ax .bx .ax]
  | .div => [.registers .div .ax .bx .ax]
  | .equal => compare .jeq
  | .notEqual => compare .jne
  | .lessThan => compare .jlt
  | .greaterThan => compare .jgt
  | .lessOrEqual => compare .jle
  | .greaterOrEqual => compare .jge

def jumpIfZero (target : Nat) : Operation :=
  .memory .jeq .ax (Word.low target) .zero

def jump (target : Nat) : Operation :=
  .memory .lda .pc (Word.low target) .zero

def address (v : Variable) : Except Overflow (List Operation) := do
  let location ← v.locate
  return [.memory location.opcode .bx location.displacement location.base]

/-- What a reference to a variable does once its address is in `bx`. -/
def loadVariable (v : Variable) : Access → List Operation
  | .value =>
    match v.ty with
    | .array => [.memory .lda .ax 0 .bx]
    | .int => [.memory .ld .ax 0 .bx]
  | .address => []

/-- What a reference to an array element does once its address is in `bx`. -/
def loadElement : Access → List Operation
  | .value => [.memory .ld .ax 0 .bx]
  | .address => []

/-- Leaves the address of the variable `name` in `bx`. -/
def place (env : Env) (name : String) : Except Failure (Variable × List Operation) := do
  let v ← env.resolve name
  let code ← (address v).mapError .ofOverflow
  return (v, code)

mutual

/-- The code of an expression does not depend on where it starts. -/
def expression (env : Env) (access : Access) (node : Node) : Except Failure (List Operation) :=
  match node with
  | .number value => .ok [.memory .ldc .ax value .ax]
  | .var name => do
    let (v, target) ← place env name
    return target ++ loadVariable v access
  | .element name index => do
    let (_, target) ← place env name
    let index ← expression env .value index
    return target ++ push .bx ++ index ++ pop .bx ++ [.registers .sub .bx .bx .ax] ++
      loadElement access
  | .assign target value => do
    if target.isPlace then
      let target ← expression env .address target
      let value ← expression env .value value
      return target ++ push .bx ++ value ++ pop .bx ++ [.memory .st .ax 0 .bx]
    else throw (.rejected (.unexpectedNode target.kind .assignmentTarget))
  | .binary op left right => do
    let left ← expression env .value left
    let right ← expression env .value right
    return left ++ push .ax ++ right ++ pop .bx ++ apply op
  | .call name args => do
    let entry ← env.entry name
    let args ← arguments env args
    return args ++ call entry
  | other => .error (.rejected (.unexpectedNode other.kind .expression))

/-- The last argument comes first. -/
def arguments (env : Env) (args : List Node) : Except Failure (List Operation) :=
  match args with
  | [] => .ok []
  | arg :: rest => do
    let rest ← arguments env rest
    let arg ← expression env .value arg
    return rest ++ arg ++ push .ax

end

/-- The value of a return statement. A function without a result has none, whatever is written. -/
def returned (env : Env) : ReturnType → Option Node → Except Failure (List Operation)
  | .void, _ => .ok []
  | .int, none | .array, none => .ok []
  | .int, some value | .array, some value => expression env .value value

mutual

/-- The code of a statement that starts at the address `base`. A jump gets its target from `base` and
the lengths of the parts. -/
def statement (env : Env) (base : Nat) (node : Node) : Except Failure (List Operation) :=
  match node with
  | .function .. => .error (.rejected (.unexpectedNode node.kind .functionBody))
  | .compound table body => statements (env.enter table) base body
  | .branch test thenPart elsePart => do
    let test ← expression env .value test
    let thenBase := base + test.length + 1
    let thenPart ← statement env thenBase thenPart
    let elseBase := thenBase + thenPart.length + 1
    let elsePart ← optional env elseBase elsePart
    let finish := elseBase + elsePart.length
    return test ++ [jumpIfZero elseBase] ++ thenPart ++ [jump finish] ++ elsePart
  | .loop test body => do
    let test ← expression env .value test
    let bodyBase := base + test.length + 1
    let body ← statement env bodyBase body
    let finish := bodyBase + body.length + 1
    return test ++ [jumpIfZero finish] ++ body ++ [jump base]
  | .ret returns value => do
    let value ← returned env returns value
    return value ++ epilogue
  | expr => expression env .value expr

def statements (env : Env) (base : Nat) (nodes : List Node) : Except Failure (List Operation) :=
  match nodes with
  | [] => .ok []
  | node :: rest => do
    let node ← statement env base node
    let rest ← statements env (base + node.length) rest
    return node ++ rest

def optional (env : Env) (base : Nat) (node : Option Node) : Except Failure (List Operation) :=
  match node with
  | none => .ok []
  | some node => statement env base node

end

theorem length_place {env : Env} {name : String} {v : Variable} {code : List Operation}
    (h : place env name = .ok (v, code)) : code.length = 1 := by
  simp only [place, address, bind_eq_ok, mapError_eq_ok, pure_eq_ok, Prod.mk.injEq] at h
  obtain ⟨_, _, _, ⟨location, _, rfl⟩, _, rfl⟩ := h
  rfl

theorem length_loadVariable (v : Variable) (access : Access) :
    (loadVariable v access).length ≤ 1 := by
  cases access with
  | value => rw [loadVariable]; split <;> exact Nat.le_refl _
  | address => exact Nat.zero_le _

theorem length_loadElement (access : Access) : (loadElement access).length ≤ 1 := by
  cases access <;> decide

theorem length_apply (op : BinaryOp) : (apply op).length ≤ 5 := by
  cases op <;> decide

mutual

/-- No node adds more than eleven instructions to the code of its parts. -/
theorem length_expression {env : Env} {access : Access} {ops : List Operation} :
    (node : Node) → expression env access node = .ok ops → ops.length + 2 ≤ 11 * node.count
  | .number value, h => by
    cases h
    simp [Node.count]
  | .var name, h => by
    simp only [expression, bind_eq_ok, pure_eq_ok] at h
    obtain ⟨⟨v, target⟩, hplace, rfl⟩ := h
    have := length_place hplace
    have := length_loadVariable v access
    simp [Node.count]
    omega
  | .element name index, h => by
    simp only [expression, bind_eq_ok, pure_eq_ok] at h
    obtain ⟨⟨v, target⟩, hplace, idx, hindex, rfl⟩ := h
    have := length_place hplace
    have := length_expression index hindex
    have := length_loadElement access
    simp [Node.count, push, pop]
    omega
  | .assign target value, h => by
    rw [expression] at h
    split at h
    · simp only [bind_eq_ok, pure_eq_ok] at h
      obtain ⟨t, htarget, v, hvalue, rfl⟩ := h
      have := length_expression target htarget
      have := length_expression value hvalue
      simp [Node.count, push, pop]
      omega
    · cases h
  | .binary op left right, h => by
    simp only [expression, bind_eq_ok, pure_eq_ok] at h
    obtain ⟨l, hleft, r, hright, rfl⟩ := h
    have := length_expression left hleft
    have := length_expression right hright
    have := length_apply op
    simp [Node.count, push, pop]
    omega
  | .call name args, h => by
    simp only [expression, bind_eq_ok, pure_eq_ok] at h
    obtain ⟨entry, _, ops, hargs, rfl⟩ := h
    have := length_arguments args hargs
    simp [Node.count, call, push]
    omega
  | .function .., h | .compound .., h | .branch .., h | .loop .., h | .ret .., h => by cases h

theorem length_arguments {env : Env} {ops : List Operation} :
    (args : List Node) → arguments env args = .ok ops → ops.length ≤ 11 * Node.countAll args
  | [], h => by
    cases h
    exact Nat.zero_le _
  | arg :: rest, h => by
    simp only [arguments, bind_eq_ok, pure_eq_ok] at h
    obtain ⟨r, hrest, a, harg, rfl⟩ := h
    have := length_expression arg harg
    have := length_arguments rest hrest
    simp [Node.countAll, push]
    omega

end

theorem length_returned {env : Env} {returns : ReturnType} {value : Option Node}
    {ops : List Operation} (h : returned env returns value = .ok ops) :
    ops.length ≤ 11 * Node.countOptional value := by
  cases value with
  | none => cases returns <;> cases h <;> exact Nat.zero_le _
  | some value =>
    cases returns with
    | void =>
      cases h
      exact Nat.zero_le _
    | int | array =>
      have := length_expression value h
      rw [Node.countOptional]
      omega

mutual

theorem length_statement {env : Env} {base : Nat} {ops : List Operation} :
    (node : Node) → statement env base node = .ok ops → ops.length ≤ 11 * node.count
  | .function .., h => nomatch h
  | .compound table body, h => by
    have := length_statements body h
    rw [Node.count]
    omega
  | .branch test thenPart elsePart, h => by
    simp only [statement, bind_eq_ok, pure_eq_ok] at h
    obtain ⟨t, htest, a, hthen, b, helse, rfl⟩ := h
    have := length_expression test htest
    have := length_statement thenPart hthen
    have := length_optional elsePart helse
    simp [Node.count]
    omega
  | .loop test body, h => by
    simp only [statement, bind_eq_ok, pure_eq_ok] at h
    obtain ⟨t, htest, b, hbody, rfl⟩ := h
    have := length_expression test htest
    have := length_statement body hbody
    simp [Node.count]
    omega
  | .ret returns value, h => by
    simp only [statement, bind_eq_ok, pure_eq_ok] at h
    obtain ⟨v, hvalue, rfl⟩ := h
    have := length_returned hvalue
    simp [Node.count, epilogue]
    omega
  | .number _, h | .var _, h | .element _ _, h | .assign _ _, h | .binary _ _ _, h
  | .call _ _, h => by
    have := length_expression _ h
    omega

theorem length_statements {env : Env} {base : Nat} {ops : List Operation} :
    (nodes : List Node) → statements env base nodes = .ok ops →
      ops.length ≤ 11 * Node.countAll nodes
  | [], h => by
    cases h
    exact Nat.zero_le _
  | node :: rest, h => by
    simp only [statements, bind_eq_ok, pure_eq_ok] at h
    obtain ⟨a, hnode, b, hrest, rfl⟩ := h
    have := length_statement node hnode
    have := length_statements rest hrest
    simp [Node.countAll]
    omega

theorem length_optional {env : Env} {base : Nat} {ops : List Operation} :
    (node : Option Node) → optional env base node = .ok ops →
      ops.length ≤ 11 * Node.countOptional node
  | none, h => by
    cases h
    exact Nat.zero_le _
  | some node, h => length_statement node h

end

end Compile

/-- The code of a declared function: its prologue, its body, and an epilogue if it returns no
value. -/
structure Routine where
  name : String
  entry : Entry
  opening : List Operation
  body : List Operation
  closing : List Operation

namespace Routine

def code (r : Routine) : List Operation :=
  r.opening ++ r.body ++ r.closing

end Routine

/-- The code of a program, part by part. -/
structure Image where
  prelude : List Operation
  main : Entry
  routines : List Routine

namespace Compile

def preamble (globals : Size) : Except Overflow (List Operation) := do
  let displacement ← globals.low.neg
  return [.memory .ld .gp 0 .zero, .memory .st .zero 0 .zero, .memory .lda .sp displacement .gp]

def halt : List Operation :=
  [.registers .halt .ax .ax .ax]

def input : List Operation :=
  [.registers .input .ax .ax .ax] ++ pop .pc

def output : List Operation :=
  [.memory .ld .ax 1 .sp, .registers .output .ax .ax .ax] ++ pop .pc

/-- Where `input` starts: after a prelude of three, a call of five and a halt. -/
def inputEntry : Entry := ⟨9, 0⟩

def outputEntry : Entry := ⟨12, 1⟩

/-- Where the first declared function starts. -/
def routinesBase : Nat := 16

def intrinsics : NameMap Entry :=
  (NameMap.empty.insert "input" inputEntry).insert "output" outputEntry

def closing : ReturnType → List Operation
  | .void => epilogue
  | .int | .array => []

/-- The code of one function. Its entry is known before its body is compiled, so it can call
itself. -/
def routine (p : Program) (entries : NameMap Entry) (base : Nat) (name : String)
    (returns : ReturnType) (body : Node) : Except Failure (NameMap Entry × Routine) := do
  let some signature := p.signature? name | throw (.rejected (.unknownFunction name))
  if entries.contains name then throw (.rejected (.duplicateFunction name))
  else
    let entry := ⟨base, signature.paramCount⟩
    let entries := entries.insert name entry
    let opening ← (prologue body.frameSize).mapError .ofOverflow
    let env : Env := ⟨p.functions, entries, [signature.params, p.globals]⟩
    let body ← statement env (base + opening.length) body
    return (entries, ⟨name, entry, opening, body, closing returns⟩)

def declaration (p : Program) (entries : NameMap Entry) (base : Nat) :
    Node → Except Failure (NameMap Entry × Routine)
  | .function name returns body => routine p entries base name returns body
  | other => .error (.rejected (.unexpectedNode other.kind .topLevel))

def declarations (p : Program) (entries : NameMap Entry) (base : Nat) :
    List Node → Except Failure (NameMap Entry × List Routine)
  | [] => .ok (entries, [])
  | node :: rest => do
    let (entries, r) ← declaration p entries base node
    let (entries, routines) ← declarations p entries (base + r.code.length) rest
    return (entries, r :: routines)

theorem length_prologue {locals : Size} {ops : List Operation} (h : prologue locals = .ok ops) :
    ops.length = 4 := by
  simp only [prologue, bind_eq_ok, pure_eq_ok] at h
  obtain ⟨displacement, _, rfl⟩ := h
  rfl

theorem length_closing (returns : ReturnType) : (closing returns).length ≤ 4 := by
  cases returns <;> decide

theorem declaration_eq_ok {p : Program} {entries entries' : NameMap Entry} {base : Nat}
    {node : Node} {r : Routine} (h : declaration p entries base node = .ok (entries', r)) :
    ∃ name returns body signature opening code,
      node = .function name returns body ∧ p.signature? name = some signature ∧
      entries.contains name = false ∧ entries' = entries.insert name ⟨base, signature.paramCount⟩ ∧
      prologue body.frameSize = .ok opening ∧
      statement ⟨p.functions, entries', [signature.params, p.globals]⟩ (base + opening.length)
        body = .ok code ∧
      r = ⟨name, ⟨base, signature.paramCount⟩, opening, code, closing returns⟩ := by
  cases node with
  | function name returns body =>
    rw [declaration, routine] at h
    split at h
    · next signature hsignature =>
      split at h
      · cases h
      · next hnew =>
        simp only [bind_eq_ok, mapError_eq_ok, pure_eq_ok, Prod.mk.injEq] at h
        obtain ⟨opening, hopening, code, hcode, rfl, rfl⟩ := h
        exact ⟨name, returns, body, signature, opening, code, rfl, hsignature,
          Bool.eq_false_iff.2 hnew, rfl, hopening, hcode, rfl⟩
    · cases h
  | _ => cases h

theorem length_declaration {p : Program} {entries entries' : NameMap Entry} {base : Nat}
    {node : Node} {r : Routine} (h : declaration p entries base node = .ok (entries', r)) :
    r.code.length ≤ 11 * node.count := by
  obtain ⟨name, returns, body, signature, opening, code, rfl, _, _, _, hopening, hcode, rfl⟩ :=
    declaration_eq_ok h
  have := length_prologue hopening
  have := length_statement body hcode
  have := length_closing returns
  simp only [Routine.code, List.length_append, Node.count]
  omega

theorem declarations_cons_eq_ok {p : Program} {entries entries' : NameMap Entry} {base : Nat}
    {node : Node} {rest : List Node} {routines : List Routine}
    (h : declarations p entries base (node :: rest) = .ok (entries', routines)) :
    ∃ entries₁ r routines₁, declaration p entries base node = .ok (entries₁, r) ∧
      declarations p entries₁ (base + r.code.length) rest = .ok (entries', routines₁) ∧
      routines = r :: routines₁ := by
  simp only [declarations, bind_eq_ok, pure_eq_ok] at h
  obtain ⟨⟨entries₁, r⟩, hnode, ⟨entries₂, routines₁⟩, hrest, heq⟩ := h
  cases heq
  exact ⟨entries₁, r, routines₁, hnode, hrest, rfl⟩

/-- After all declarations a name is bound as before them or to the one routine of that name. -/
theorem entries_declarations {p : Program} {entries entries' : NameMap Entry} {base : Nat}
    {nodes : List Node} {routines : List Routine}
    (h : declarations p entries base nodes = .ok (entries', routines)) (name : String) :
    entries'.get? name =
      (entries.get? name).or ((routines.find? (·.name = name)).map Routine.entry) := by
  induction nodes generalizing entries base routines with
  | nil =>
    cases h
    exact Option.or_none.symm
  | cons node rest ih =>
    obtain ⟨entries₁, r, routines₁, hnode, hrest, rfl⟩ := declarations_cons_eq_ok h
    obtain ⟨key, returns, body, signature, opening, code, -, -, hnew, rfl, -, -, rfl⟩ :=
      declaration_eq_ok hnode
    rw [ih hrest, NameMap.get?_insert]
    have hnone : entries.get? key = none := by
      simpa [NameMap.contains] using hnew
    by_cases hname : name = key
    · subst hname
      simp [hnone]
    · simp [hname, Ne.symm hname]

end Compile

namespace Image

/-- The instruction at each address from 0 on. -/
def operations (i : Image) : List Operation :=
  i.prelude ++ Compile.call i.main ++ Compile.halt ++ Compile.input ++ Compile.output ++
    i.routines.flatMap Routine.code

def entry? (i : Image) (name : String) : Option Entry :=
  if name = "input" then some Compile.inputEntry
  else if name = "output" then some Compile.outputEntry
  else (i.routines.find? (·.name = name)).map Routine.entry

theorem entry?_eq_get? {p : Program} {entries : NameMap Entry} {base : Nat} {nodes : List Node}
    (i : Image)
    (h : Compile.declarations p Compile.intrinsics base nodes = .ok (entries, i.routines))
    (name : String) : i.entry? name = entries.get? name := by
  rw [Compile.entries_declarations h, entry?, Compile.intrinsics, NameMap.get?_insert,
    NameMap.get?_insert, NameMap.get?_empty]
  by_cases hinput : name = "input"
  · subst hinput
    rfl
  · by_cases houtput : name = "output"
    · subst houtput
      rfl
    · simp only [if_neg hinput, if_neg houtput, Option.none_or]

end Image

namespace Program

/-- The code of a program, compiled without a stream. -/
def compile (p : Program) : Except Failure Image := do
  let prelude ← (Compile.preamble p.globals.size).mapError .ofOverflow
  let (entries, routines) ←
    Compile.declarations p Compile.intrinsics Compile.routinesBase p.declarations
  let main ← (⟨p.functions, entries, []⟩ : Env).entry "main"
  return ⟨prelude, main, routines⟩

end Program

end CMinus
