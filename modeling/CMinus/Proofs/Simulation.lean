import CMinus.Proofs.Related

namespace CMinus

/-- The code of a function stands at its entry. -/
structure Hosted (p : Program) (code : Code) (entries : NameMap Entry) (f : Function) (e : Entry)
    (body : Node) (table : Table) (opening ops : List Operation) : Prop where
  laid : f.body.layout f.returns none = .ok body
  tabled : f.table = .ok table
  counted : e.params = table.size
  opened : Compile.prologue body.frameSize = .ok opening
  compiled : ∃ known : NameMap Entry,
    (∀ name e, known.get? name = some e → entries.get? name = some e) ∧
    Compile.statement ⟨p.functions, known, [table, p.globals]⟩ (e.address + 4) body = .ok ops
  holds : code.Holds e.address (opening ++ ops ++ Compile.closing f.returns)

/-- The code of all functions stands where the entries say. -/
structure Linked (s : Source) (p : Program) (code : Code) (entries : NameMap Entry) : Prop where
  size : code.size < 2147483648
  input : ∀ e, entries.get? "input" = some e →
    e = Compile.inputEntry ∧ code.Holds e.address Compile.input
  output : ∀ e, entries.get? "output" = some e →
    e = Compile.outputEntry ∧ code.Holds e.address Compile.output
  function : ∀ name f e, s.function? name = some f → entries.get? name = some e →
    ∃ body table opening ops, Hosted p code entries f e body table opening ops

/-- Calls go to entries that the whole program has. -/
def Env.Within (env : Env) (entries : NameMap Entry) : Prop :=
  ∀ name e, env.entries.get? name = some e → entries.get? name = some e

theorem Env.Within.enter {env : Env} {entries : NameMap Entry} (h : env.Within entries)
    (table : Option Table) : (env.enter table).Within entries := by
  cases table <;> exact h

/-- The machine is at `k` with the address of a cell in `bx`. -/
structure Addressed (addrs : List Nat) (sp : Nat) (u : View) (k : Nat) (x : Nat × Store) (v : View) :
    Prop where
  pc : v.get .pc = Word.low k
  bx : ∃ a, addrs[x.1]? = some a ∧ v.get .bx = Word.low a
  keeps : u.Keeps addrs sp v
  agrees : x.2.Agrees addrs v

/-- The machine is at `k` after a call. -/
structure Called (addrs : List Nat) (sp : Nat) (u : View) (k : Nat) (x : Option Word × Store)
    (v : View) : Prop where
  pc : v.get .pc = Word.low k
  ax : ∀ w, x.1 = some w → v.get .ax = w
  keeps : u.Keeps addrs sp v
  agrees : x.2.Agrees addrs v

/-- A word on the stack stands for an argument. -/
def Argument.Passed (addrs : List Nat) (w : Word) : Argument → Prop
  | .word x => w = x
  | .array first length => ArrayAt addrs first length w

/-- The machine is at `k` with arguments on top of the stack, the first one at the top. -/
structure Pushed (addrs : List Nat) (sp : Nat) (types : List VarType) (u : View) (k : Nat)
    (x : List Argument × Store) (v : View) : Prop where
  pc : v.get .pc = Word.low k
  types : x.1.map Argument.ty = types
  length : x.1.length ≤ sp
  top : v.get .sp = Word.low (sp - x.1.length)
  bp : v.get .bp = u.get .bp
  gp : v.get .gp = u.get .gp
  zero : v.get .zero = u.get .zero
  mem : ∀ a, sp ≤ a → a ∉ addrs → v.mem a = u.mem a
  passed : ∀ (i : Nat) (arg : Argument), x.1[i]? = some arg →
    arg.Passed addrs (v.mem (sp - x.1.length + i))
  agrees : x.2.Agrees addrs v

/-- The frame with the base `bp` holds `taken` cells of blocks. The word at `bp` is the caller's base
and the word above it the return address. -/
structure Framed (addrs : List Nat) (bp taken : Nat) (v : View) : Prop where
  base : v.get .bp = Word.low bp
  limit : bp + 1 < 1024
  saved : bp ∉ addrs ∧ bp + 1 ∉ addrs
  used : ∀ a ∈ addrs, bp ≤ a + taken
  back : ∃ l, v.mem (bp + 1) = Word.low l

/-- The function with the frame base `bp` has returned. -/
structure Left (addrs : List Nat) (bp : Nat) (u : View) (x : Option Word × Store) (v : View) :
    Prop where
  pc : v.get .pc = u.mem (bp + 1)
  top : v.get .sp = Word.low (bp + 2)
  base : v.get .bp = u.mem bp
  gp : v.get .gp = u.get .gp
  zero : v.get .zero = u.get .zero
  mem : ∀ a, bp ≤ a → a ∉ addrs → v.mem a = u.mem a
  ax : ∀ w, x.1 = some w → v.get .ax = w
  agrees : x.2.Agrees addrs v

/-- The machine is at `k` after a statement, or its function has returned. -/
inductive Finished (addrs : List Nat) (bp : Nat) (u : View) (k : Nat) : Flow × Store → View → Prop
  | next {σ : Store} {v : View} : v.get .pc = Word.low k → u.Keeps addrs bp v →
      σ.Agrees addrs v → Finished addrs bp u k (.next, σ) v
  | returned {value : Option Word} {σ : Store} {v : View} : Left addrs bp u (value, σ) v →
      Finished addrs bp u k (.returned value, σ) v

section Parts

variable (s : Source) (globals : Bindings) (p : Program) (code : Code) (entries : NameMap Entry)
  (fuel : Nat)

def EvalMeets : Prop :=
  ∀ {cenv : Env} {env : Bindings} {addrs : List Nat} {sp floor k room : Nat} {σ : Store} {u : View}
    {node : Node} {ops : List Operation}, cenv.Within entries →
    Compile.expression cenv .value node = .ok ops → code.Holds k ops →
    Matches globals p.globals env cenv.scopes addrs sp floor σ u → room ≤ sp →
    Meets code (s.eval globals fuel env room node σ) (Computed addrs sp u (k + ops.length))
      (u.goto k)

def ElementMeets : Prop :=
  ∀ {cenv : Env} {env : Bindings} {addrs : List Nat} {sp floor k room : Nat} {σ : Store} {u : View}
    {name : String} {index : Node} {var : Variable} {target ops : List Operation},
    cenv.Within entries → Compile.place cenv name = .ok (var, target) →
    Compile.expression cenv .value index = .ok ops →
    code.Holds k (target ++ (Compile.push .bx ++ ops ++ Compile.pop .bx) ++
      [.registers .sub .bx .bx .ax]) →
    Matches globals p.globals env cenv.scopes addrs sp floor σ u → room ≤ sp →
    Meets code (s.element globals fuel env room name index σ)
      (Addressed addrs sp u (k + 6 + ops.length)) (u.goto k)

def ArgumentsMeet : Prop :=
  ∀ {cenv : Env} {env : Bindings} {addrs : List Nat} {sp floor k room : Nat} {σ : Store} {u : View}
    {types : List VarType} {args : List Node} {ops : List Operation}, cenv.Within entries →
    Compile.arguments cenv args = .ok ops → code.Holds k ops →
    Matches globals p.globals env cenv.scopes addrs sp floor σ u → room ≤ sp →
    Meets code (s.arguments globals fuel env room types args σ)
      (Pushed addrs sp types u (k + ops.length)) (u.goto k)

def InvokeMeets : Prop :=
  ∀ {cenv : Env} {env : Bindings} {addrs : List Nat} {sp floor k room : Nat} {σ : Store} {u : View}
    {name : String} {args : List Node} {e : Entry} {ops : List Operation}, cenv.Within entries →
    entries.get? name = some e → Compile.arguments cenv args = .ok ops →
    code.Holds k (ops ++ Compile.call e) →
    Matches globals p.globals env cenv.scopes addrs sp floor σ u → room ≤ sp →
    Meets code (s.invoke globals fuel env room name args σ)
      (Called addrs sp u (k + ops.length + 5)) (u.goto k)

def ExecMeets : Prop :=
  ∀ {cenv : Env} {env : Bindings} {addrs : List Nat} {sp bp k room : Nat} {σ : Store} {u : View}
    {returns : ReturnType} {outer : Option Table} {stmt : Stmt} {node : Node}
    {ops : List Operation}, cenv.Within entries → stmt.layout returns outer = .ok node →
    Compile.statement cenv k node = .ok ops → code.Holds k ops →
    Matches globals p.globals env cenv.scopes addrs sp bp σ u →
    Framed addrs bp (Stmt.taken outer) u → sp + stmt.frame (Stmt.taken outer) ≤ bp → room ≤ sp →
    Meets code (s.exec globals fuel returns env room stmt σ) (Finished addrs bp u (k + ops.length))
      (u.goto k)

def ExecAllMeet : Prop :=
  ∀ {cenv : Env} {env : Bindings} {addrs : List Nat} {sp bp k room : Nat} {σ : Store} {u : View}
    {returns : ReturnType} {outer : Option Table} {body : List Stmt} {nodes : List Node}
    {ops : List Operation}, cenv.Within entries → Stmt.layoutAll returns outer body = .ok nodes →
    Compile.statements cenv k nodes = .ok ops → code.Holds k ops →
    Matches globals p.globals env cenv.scopes addrs sp bp σ u →
    Framed addrs bp (Stmt.taken outer) u → sp + Stmt.frameAll (Stmt.taken outer) body ≤ bp →
    room ≤ sp →
    Meets code (s.execAll globals fuel returns env room body σ)
      (Finished addrs bp u (k + ops.length)) (u.goto k)

end Parts

end CMinus
