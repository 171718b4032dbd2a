import Mathlib.Data.List.Forall2
import CMinus.Proofs.Layout
import CMinus.Proofs.Word

namespace CMinus

/-- A size or an offset that a displacement stands for. -/
inductive Quantity where
  /-- the room for the global cells -/
  | globals (cells : Size)
  /-- the room for the cells of a frame -/
  | frame (cells : Size)
  /-- the parameters that are released after a call -/
  | release (params : Size)
  /-- the place of a variable, counted from its base register -/
  | place (v : Variable)

namespace Quantity

/-- The displacement that the quantity would have if words had no bounds. -/
def value : Quantity → Int
  | globals cells | frame cells => -cells.toNat
  | release params => params.toNat
  | place v =>
    match v.scope, v.ty with
    | .global, .int | .block, .int => -1 - v.offset.toNat
    | .global, .array | .block, .array => -v.offset.toNat
    | .param, _ => 2 + v.offset.toNat

/-- The instruction that holds the quantity, with the displacement `d`. -/
def operation (d : Word) : Quantity → Operation
  | globals _ => .memory .lda .sp d .gp
  | frame _ | release _ => .memory .lda .sp d .sp
  | place v =>
    match v.scope, v.ty with
    | .global, _ => .memory .lda .bx d .gp
    | .block, _ | .param, .int => .memory .lda .bx d .bp
    | .param, .array => .memory .ld .bx d .bp

/-- The displacement that generation computes. -/
def word : Quantity → Except Overflow Word
  | globals cells | frame cells => cells.low.neg
  | release params => .ok params.low
  | place v => do return (← v.locate).displacement

/-- A low word that cannot be negated, or one to which 2 cannot be added. -/
def Overflows : Quantity → Prop
  | globals cells | frame cells => cells.toNat % 4294967296 = 2147483648
  | release _ => False
  | place v =>
    match v.scope, v.ty with
    | .global, .int | .block, .int => False
    | .global, .array | .block, .array => v.offset.toNat % 4294967296 = 2147483648
    | .param, _ =>
      2147483646 ≤ v.offset.toNat % 4294967296 ∧ v.offset.toNat % 4294967296 < 2147483648

end Quantity

theorem bind_pure_fails_iff {ε α β : Type} {x : Except ε α} {f : α → β} :
    (∃ e, (x >>= fun a => pure (f a)) = .error e) ↔ ∃ e, x = .error e := by
  cases x <;> simp [pure_eq]

theorem Word.exact_fails_iff {failure : Overflow} {x : Int} :
    (∃ o, exact failure x = .error o) ↔ ¬ Fits x := by
  rw [exact]
  split <;> simp [*]

namespace Size

theorem low_eq_ofInt (n : Size) : n.low = Int32.ofInt n.toNat :=
  Int32.ofInt_eq_ofNat.symm

theorem toInt_low_cases (n : Size) :
    n.toNat % 4294967296 < 2147483648 ∧ n.low.toInt = (n.toNat % 4294967296 : Nat) ∨
      2147483648 ≤ n.toNat % 4294967296 ∧
        n.low.toInt = (n.toNat % 4294967296 : Nat) - 4294967296 := by
  have hlow : n.low.toInt = (n.toNat : Int).bmod 4294967296 := Int32.toInt_ofNat'
  rw [Int.bmod_def] at hlow
  split at hlow <;> omega

theorem eq_ofInt_of_neg_low {n : Size} {d : Word} (h : n.low.neg = .ok d) :
    d = Int32.ofInt (-n.toNat) := by
  have hd : d.toInt = -n.low.toInt := Word.exact_eq_ok_iff.1 h
  calc d = Int32.ofInt (-n.low.toInt) := by rw [← hd, Int32.ofInt_toInt]
    _ = -n.low := by rw [Int32.ofInt_neg, Int32.ofInt_toInt]
    _ = Int32.ofInt (-n.toNat) := by rw [Int32.ofInt_neg, low_eq_ofInt]

theorem eq_ofInt_of_add_low {n : Size} {d : Word} (h : Word.add 2 n.low = .ok d) :
    d = Int32.ofInt (2 + n.toNat) := by
  have hd : d.toInt = (2 : Word).toInt + n.low.toInt := Word.exact_eq_ok_iff.1 h
  calc d = Int32.ofInt ((2 : Word).toInt + n.low.toInt) := by rw [← hd, Int32.ofInt_toInt]
    _ = 2 + n.low := by rw [Int32.ofInt_add, Int32.ofInt_toInt, Int32.ofInt_toInt]
    _ = Int32.ofInt (2 + n.toNat) := by rw [Int32.ofInt_add, low_eq_ofInt]; rfl

theorem neg_low_fails_iff (n : Size) :
    (∃ o, n.low.neg = .error o) ↔ n.toNat % 4294967296 = 2147483648 := by
  have hlow := n.toInt_low_cases
  rw [Word.neg, Word.exact_fails_iff, Word.Fits]
  omega

theorem add_low_fails_iff (n : Size) :
    (∃ o, Word.add 2 n.low = .error o) ↔
      2147483646 ≤ n.toNat % 4294967296 ∧ n.toNat % 4294967296 < 2147483648 := by
  have hlow := n.toInt_low_cases
  have htwo : (2 : Word).toInt = 2 := rfl
  rw [Word.add, Word.exact_fails_iff, Word.Fits, htwo]
  omega

end Size

namespace Quantity

/-- Where generation computes a displacement at all, it is the low word of the exact integer. -/
theorem eq_ofInt_of_word {q : Quantity} {d : Word} (h : q.word = .ok d) :
    d = Int32.ofInt q.value := by
  cases q with
  | globals cells | frame cells => exact Size.eq_ofInt_of_neg_low h
  | release params =>
    cases h
    exact params.low_eq_ofInt
  | place v =>
    obtain ⟨scope, ty, offset⟩ := v
    simp only [word, Variable.locate, bind_eq_ok, pure_eq_ok] at h
    obtain ⟨location, hlocation, rfl⟩ := h
    cases scope <;> cases ty <;> simp only [bind_eq_ok, pure_eq_ok, Except.ok.injEq] at hlocation
    case global.int | block.int =>
      subst hlocation
      rw [value, Int32.ofInt_sub, ← Size.low_eq_ofInt]
      rfl
    case global.array | block.array =>
      obtain ⟨d, hd, rfl⟩ := hlocation
      exact Size.eq_ofInt_of_neg_low hd
    case param.int | param.array =>
      obtain ⟨d, hd, rfl⟩ := hlocation
      exact Size.eq_ofInt_of_add_low hd

theorem toInt_of_word {q : Quantity} {d : Word} (h : q.word = .ok d) :
    d.toInt = q.value.bmod 4294967296 := by
  rw [eq_ofInt_of_word h]
  exact Int32.toInt_ofInt

theorem toInt_eq_value_iff {q : Quantity} {d : Word} (h : q.word = .ok d) :
    d.toInt = q.value ↔ Word.Fits q.value := by
  refine ⟨fun hd => hd ▸ Word.fits_toInt d, fun hfits => ?_⟩
  rw [eq_ofInt_of_word h, Word.toInt_ofInt_of_fits hfits]

theorem word_fails_iff (q : Quantity) : (∃ o, q.word = .error o) ↔ q.Overflows := by
  cases q with
  | globals cells | frame cells => exact cells.neg_low_fails_iff
  | release params => simp [word, Overflows]
  | place v =>
    obtain ⟨scope, ty, offset⟩ := v
    rw [word, bind_pure_fails_iff, Variable.locate]
    cases scope <;> cases ty
    case global.int | block.int => simp [Overflows]
    case global.array | block.array =>
      rw [bind_pure_fails_iff]
      exact offset.neg_low_fails_iff
    case param.int | param.array =>
      rw [bind_pure_fails_iff]
      exact offset.add_low_fails_iff

end Quantity

/-- The displacement does not depend on sizes and offsets: it is a literal or the address of a
function, both loaded by `ldc`, the target of a jump, counted from `zero`, or one of a few
constants. -/
def Operation.Fixed (op : Operation) : Prop :=
  match op.operands with
  | .registers .. => True
  | .memory _ d base => op.opcode = .ldc ∨ base = .zero ∨ -2 ≤ d.toInt ∧ d.toInt ≤ 3

instance (op : Operation) : Decidable op.Fixed :=
  match op with
  | ⟨_, .registers ..⟩ => inferInstanceAs (Decidable True)
  | ⟨_, .memory ..⟩ => inferInstanceAs (Decidable (_ ∨ _ ∨ _))

/-- A step of code generation. -/
inductive Demand where
  /-- writes an instruction whose displacement does not depend on sizes and offsets -/
  | fixed
  /-- writes the instruction that holds a quantity -/
  | displaced (q : Quantity)
  /-- gives up -/
  | rejected (reason : Rejection)

namespace Demand

/-- How generation fails at a demand. -/
def failure? : Demand → Option Failure
  | fixed => none
  | displaced q =>
    match q.word with
    | .ok _ => none
    | .error o => some (.ofOverflow o)
  | rejected reason => some (.rejected reason)

/-- The instruction that is written for a demand. -/
def MetBy : Demand → Operation → Prop
  | fixed, op => op.Fixed
  | displaced q, op => ∃ d, q.word = .ok d ∧ op = q.operation d
  | rejected _, _ => False

def Met (demands : List Demand) (ops : List Operation) : Prop :=
  List.Forall₂ MetBy demands ops

/-- The first failure counts. -/
def firstFailure? (demands : List Demand) : Option Failure :=
  demands.findSome? failure?

/-- `count` instructions whose displacements do not depend on sizes and offsets. -/
def plain (count : Nat) : List Demand :=
  List.replicate count fixed

def preamble (globals : Size) : List Demand :=
  plain 2 ++ [displaced (.globals globals)]

def call (params : Size) : List Demand :=
  plain 4 ++ [displaced (.release params)]

def prologue (locals : Size) : List Demand :=
  plain 3 ++ [displaced (.frame locals)]

/-- A reference to the variable `name`, up to its address. -/
def reference (env : Env) (name : String) : List Demand :=
  match env.scopes.lookup name with
  | some v => [displaced (.place v)]
  | none => [rejected (.unknownVariable name)]

def unresolved (env : Env) (name : String) : Rejection :=
  if env.functions.contains name then .unresolvedFunction name else .unknownFunction name

/-- A place that is read takes one instruction more than one that is assigned to. -/
def load : Access → List Demand
  | .value => plain 1
  | .address => []

mutual

def expression (env : Env) (access : Access) : Node → List Demand
  | .number _ => plain 1
  | .var name => reference env name ++ load access
  | .element name index =>
    reference env name ++ plain 2 ++ expression env .value index ++ plain 2 ++ plain 1 ++
      load access
  | .assign target value =>
    if target.isPlace then
      expression env .address target ++ plain 2 ++ expression env .value value ++ plain 2 ++
        plain 1
    else [rejected (.unexpectedNode target.kind .assignmentTarget)]
  | .binary op left right =>
    expression env .value left ++ plain 2 ++ expression env .value right ++ plain 2 ++
      plain (Compile.apply op).length
  | .call name args =>
    match env.entries.get? name with
    | some entry => arguments env args ++ call entry.params
    | none => [rejected (unresolved env name)]
  | other => [rejected (.unexpectedNode other.kind .expression)]

/-- The last argument comes first. -/
def arguments (env : Env) : List Node → List Demand
  | [] => []
  | arg :: rest => arguments env rest ++ expression env .value arg ++ plain 2

end

def returned (env : Env) : ReturnType → Option Node → List Demand
  | .void, _ => []
  | .int, none | .array, none => []
  | .int, some value | .array, some value => expression env .value value

mutual

def statement (env : Env) (node : Node) : List Demand :=
  match node with
  | .function .. => [rejected (.unexpectedNode node.kind .functionBody)]
  | .compound table body => statements (env.enter table) body
  | .branch test thenPart elsePart =>
    expression env .value test ++ plain 1 ++ statement env thenPart ++ plain 1 ++
      optional env elsePart
  | .loop test body => expression env .value test ++ plain 1 ++ statement env body ++ plain 1
  | .ret returns value => returned env returns value ++ plain 4
  | expr => expression env .value expr

def statements (env : Env) : List Node → List Demand
  | [] => []
  | node :: rest => statement env node ++ statements env rest

def optional (env : Env) : Option Node → List Demand
  | none => []
  | some node => statement env node

end

/-- The demands of one declaration whose code starts at `base`, and the functions that can be called
after it. -/
def declaration (p : Program) (entries : NameMap Entry) (base : Nat) :
    Node → NameMap Entry × List Demand
  | .function name returns body =>
    match p.signature? name with
    | none => (entries, [rejected (.unknownFunction name)])
    | some signature =>
      if entries.contains name then (entries, [rejected (.duplicateFunction name)])
      else
        let entries := entries.insert name ⟨base, signature.paramCount⟩
        let env : Env := ⟨p.functions, entries, [signature.params, p.globals]⟩
        (entries, prologue body.frameSize ++ statement env body ++
          plain (Compile.closing returns).length)
  | other => (entries, [rejected (.unexpectedNode other.kind .topLevel)])

def declarations (p : Program) (entries : NameMap Entry) (base : Nat) :
    List Node → NameMap Entry × List Demand
  | [] => (entries, [])
  | node :: rest =>
    let (entries, first) := declaration p entries base node
    let (entries, others) := declarations p entries (base + first.length) rest
    (entries, first ++ others)

end Demand

/-- The demands of a program, by address. The call of `main` stands before the routines but is
resolved after them. -/
def Program.demands (p : Program) : List Demand :=
  let (entries, routines) :=
    Demand.declarations p Compile.intrinsics Compile.routinesBase p.declarations
  match entries.get? "main" with
  | some main =>
    Demand.preamble p.globals.size ++ Demand.call main.params ++ Demand.plain 1 ++ Demand.plain 3 ++
      Demand.plain 4 ++ routines
  | none =>
    Demand.preamble p.globals.size ++ routines ++
      [.rejected (Demand.unresolved ⟨p.functions, entries, []⟩ "main")]

/-- The result is an error if there is one to be expected, and otherwise an answer that satisfies
`P`. -/
def Settles {α : Type} (failure? : Option Failure) (P : α → Prop) (x : Except Failure α) : Prop :=
  match x with
  | .ok a => failure? = none ∧ P a
  | .error e => failure? = some e

namespace Settles

variable {α β : Type} {P : α → Prop} {Q : β → Prop} {first? second? : Option Failure}
  {x : Except Failure α}

theorem bind {f : α → Except Failure β} (hx : Settles first? P x)
    (hf : ∀ a, P a → Settles second? Q (f a)) : Settles (first?.or second?) Q (x >>= f) := by
  cases x with
  | error e =>
    change first? = some e at hx
    subst hx
    rfl
  | ok a =>
    obtain ⟨rfl, ha⟩ := hx
    rw [Option.none_or]
    exact hf a ha

theorem bind_pure {f : α → β} (hx : Settles first? P x) (hf : ∀ a, P a → Q (f a)) :
    Settles first? Q (x >>= fun a => pure (f a)) := by
  have h := hx.bind (f := fun a => pure (f a)) fun a ha => (⟨rfl, hf a ha⟩ : Settles none Q (.ok _))
  rwa [Option.or_none] at h

end Settles

namespace Demand

theorem firstFailure?_append (l m : List Demand) :
    firstFailure? (l ++ m) = (firstFailure? l).or (firstFailure? m) :=
  List.findSome?_append

@[simp]
theorem firstFailure?_plain (count : Nat) : firstFailure? (plain count) = none := by
  rw [firstFailure?, List.findSome?_eq_none_iff]
  intro demand h
  rw [List.eq_of_mem_replicate h]
  rfl

namespace Met

variable {l m : List Demand} {ops ops' : List Operation}

theorem append (h : Met l ops) (h' : Met m ops') : Met (l ++ m) (ops ++ ops') :=
  List.rel_append h h'

theorem plain (ops : List Operation) (h : ∀ op ∈ ops, op.Fixed) : Met (plain ops.length) ops := by
  induction ops with
  | nil => exact .nil
  | cons op rest ih =>
    rw [List.forall_mem_cons] at h
    exact .cons h.1 (ih h.2)

theorem exists_operation (h : Met l ops) {a : Nat} {demand : Demand} (ha : l[a]? = some demand) :
    ∃ op, ops[a]? = some op ∧ demand.MetBy op := by
  induction h generalizing a with
  | nil => cases ha
  | cons hfirst _ ih =>
    cases a with
    | zero =>
      cases ha
      exact ⟨_, rfl, hfirst⟩
    | succ a => exact ih ha

theorem exists_demand (h : Met l ops) {a : Nat} {op : Operation} (ha : ops[a]? = some op) :
    ∃ demand, l[a]? = some demand ∧ demand.MetBy op := by
  obtain ⟨hlt, -⟩ := List.getElem?_eq_some_iff.1 ha
  rw [← List.Forall₂.length_eq h] at hlt
  obtain ⟨op', ha', hmet⟩ := h.exists_operation (List.getElem?_eq_getElem hlt)
  cases ha.symm.trans ha'
  exact ⟨_, List.getElem?_eq_getElem hlt, hmet⟩

end Met

/-- Code generation for one part of a program meets its demands in order, up to the first that
fails. -/
def Serves (demands : List Demand) (x : Except Failure (List Operation)) : Prop :=
  Settles (firstFailure? demands) (Met demands) x

theorem serves_reject (reason : Rejection) :
    Serves [rejected reason] (.error (.rejected reason)) := rfl

theorem serves_displaced (q : Quantity) :
    Serves [displaced q] (do return [q.operation (← q.word.mapError .ofOverflow)]) := by
  have hfailure : firstFailure? [displaced q] = failure? (displaced q) := by
    rw [firstFailure?, List.findSome?_cons]
    cases failure? (displaced q) <;> rfl
  rw [Serves, hfailure, failure?]
  cases hword : q.word with
  | error o => exact rfl
  | ok d => exact ⟨rfl, .cons ⟨d, hword, rfl⟩ .nil⟩

theorem address_eq (v : Variable) :
    (Compile.address v).mapError Failure.ofOverflow =
      (do return [(Quantity.place v).operation (← (Quantity.place v).word.mapError .ofOverflow)]) := by
  obtain ⟨scope, ty, offset⟩ := v
  rw [Compile.address, Quantity.word, Variable.locate]
  cases scope <;> cases ty
  case global.int | block.int => rfl
  case global.array | block.array => cases offset.low.neg <;> rfl
  case param.int | param.array => cases Word.add 2 offset.low <;> rfl

theorem settles_place (env : Env) (name : String) :
    Settles (firstFailure? (reference env name)) (fun (_, code) => Met (reference env name) code)
      (Compile.place env name) := by
  rw [Compile.place, Env.resolve, reference]
  cases env.scopes.lookup name with
  | none => exact serves_reject _
  | some v =>
    rw [ok_bind]
    refine Settles.bind_pure ?_ fun ops h => h
    rw [address_eq]
    exact serves_displaced (.place v)

theorem entry_of_get? {env : Env} {name : String} {entry : Entry}
    (h : env.entries.get? name = some entry) : env.entry name = .ok entry := by
  rw [Env.entry, h]

theorem entry_of_get?_none {env : Env} {name : String} (h : env.entries.get? name = none) :
    env.entry name = .error (.rejected (unresolved env name)) := by
  rw [Env.entry, h, unresolved]
  dsimp only
  split <;> rfl

theorem met_push (r : Register) : Met (plain 2) (Compile.push r) :=
  .plain (Compile.push r) (by cases r <;> decide)

theorem met_pop (r : Register) : Met (plain 2) (Compile.pop r) :=
  .plain (Compile.pop r) (by cases r <;> decide)

theorem met_apply (op : BinaryOp) : Met (plain (Compile.apply op).length) (Compile.apply op) :=
  .plain (Compile.apply op) (by cases op <;> decide)

theorem met_loadVariable (v : Variable) (access : Access) :
    Met (load access) (Compile.loadVariable v access) := by
  cases access with
  | address => exact .nil
  | value =>
    rw [Compile.loadVariable]
    cases v.ty with
    | int => exact .plain [_] (by decide)
    | array => exact .plain [_] (by decide)

theorem met_loadElement (access : Access) : Met (load access) (Compile.loadElement access) := by
  cases access with
  | address => exact .nil
  | value => exact .plain [_] (by decide)

@[simp]
theorem firstFailure?_load (access : Access) : firstFailure? (load access) = none := by
  cases access with
  | address => rfl
  | value => exact firstFailure?_plain 1

@[simp]
theorem firstFailure?_call (params : Size) : firstFailure? (call params) = none := by
  rw [call, firstFailure?_append, firstFailure?_plain]
  rfl

theorem met_call (entry : Entry) : Met (call entry.params) (Compile.call entry) := by
  have hjump : Met (plain 1) [.memory .ldc .pc (Word.low entry.address) .ax] :=
    .plain [_] (by simp [Operation.Fixed, Operation.memory])
  have hrelease : Met [displaced (.release entry.params)]
      [.memory .lda .sp entry.params.low .sp] :=
    .cons ⟨entry.params.low, rfl, rfl⟩ .nil
  have hreturn : Met (plain 1) [.memory .lda .ax 3 .pc] := .plain [_] (by decide)
  exact ((hreturn.append (met_push .ax)).append hjump).append hrelease

mutual

theorem serves_expression (env : Env) (access : Access) :
    (node : Node) → Serves (expression env access node) (Compile.expression env access node)
  | .number value =>
    ⟨rfl, .plain [.memory .ldc .ax value .ax] (by simp [Operation.Fixed, Operation.memory])⟩
  | .var name => by
    rw [Compile.expression, expression, Serves, firstFailure?_append, firstFailure?_load,
      Option.or_none]
    exact (settles_place env name).bind_pure fun (v, _) htarget =>
      htarget.append (met_loadVariable v access)
  | .element name index => by
    rw [Compile.expression, expression, Serves]
    simp only [firstFailure?_append, firstFailure?_plain, firstFailure?_load, Option.or_none]
    refine (settles_place env name).bind fun (_, target) htarget => ?_
    refine (serves_expression env .value index).bind_pure fun index hindex => ?_
    exact ((((htarget.append (met_push .bx)).append hindex).append (met_pop .bx)).append
      (.plain [_] (by decide))).append (met_loadElement access)
  | .assign target value => by
    rw [Compile.expression, expression]
    split
    · rw [Serves]
      simp only [firstFailure?_append, firstFailure?_plain, Option.or_none]
      refine (serves_expression env .address target).bind fun target htarget => ?_
      refine (serves_expression env .value value).bind_pure fun value hvalue => ?_
      exact (((htarget.append (met_push .bx)).append hvalue).append (met_pop .bx)).append
        (.plain [_] (by decide))
    · exact serves_reject _
  | .binary op left right => by
    rw [Compile.expression, expression, Serves]
    simp only [firstFailure?_append, firstFailure?_plain, Option.or_none]
    refine (serves_expression env .value left).bind fun left hleft => ?_
    refine (serves_expression env .value right).bind_pure fun right hright => ?_
    exact (((hleft.append (met_push .ax)).append hright).append (met_pop .bx)).append (met_apply op)
  | .call name args => by
    rw [Compile.expression, expression]
    cases hget : env.entries.get? name with
    | some entry =>
      rw [entry_of_get? hget, ok_bind, Serves]
      simp only [firstFailure?_append, firstFailure?_call, Option.or_none]
      exact (serves_arguments env args).bind_pure fun _ hargs => hargs.append (met_call entry)
    | none =>
      rw [entry_of_get?_none hget]
      exact serves_reject _
  | .function .. | .compound .. | .branch .. | .loop .. | .ret .. => serves_reject _

theorem serves_arguments (env : Env) :
    (args : List Node) → Serves (arguments env args) (Compile.arguments env args)
  | [] => ⟨rfl, .nil⟩
  | arg :: rest => by
    rw [Compile.arguments, arguments, Serves]
    simp only [firstFailure?_append, firstFailure?_plain, Option.or_none]
    refine (serves_arguments env rest).bind fun rest hrest => ?_
    refine (serves_expression env .value arg).bind_pure fun arg harg => ?_
    exact (hrest.append harg).append (met_push .ax)

end

theorem serves_returned (env : Env) (returns : ReturnType) (value : Option Node) :
    Serves (returned env returns value) (Compile.returned env returns value) := by
  cases returns with
  | void => exact ⟨rfl, .nil⟩
  | int | array =>
    cases value with
    | none => exact ⟨rfl, .nil⟩
    | some value => exact serves_expression env .value value

theorem met_jumpIfZero (target : Nat) : Met (plain 1) [Compile.jumpIfZero target] :=
  .plain [_] (by simp [Compile.jumpIfZero, Operation.Fixed, Operation.memory])

theorem met_jump (target : Nat) : Met (plain 1) [Compile.jump target] :=
  .plain [_] (by simp [Compile.jump, Operation.Fixed, Operation.memory])

theorem met_epilogue : Met (plain 4) Compile.epilogue :=
  .plain Compile.epilogue (by decide)

mutual

theorem serves_statement (env : Env) (base : Nat) :
    (node : Node) → Serves (statement env node) (Compile.statement env base node)
  | .function .. => serves_reject _
  | .compound table body => serves_statements (env.enter table) base body
  | .branch test thenPart elsePart => by
    rw [Compile.statement, statement, Serves]
    simp only [firstFailure?_append, firstFailure?_plain, Option.or_none, Option.or_assoc]
    refine (serves_expression env .value test).bind fun test htest => ?_
    refine (serves_statement env _ thenPart).bind fun thenPart hthen => ?_
    refine (serves_optional env _ elsePart).bind_pure fun elsePart helse => ?_
    exact (((htest.append (met_jumpIfZero _)).append hthen).append (met_jump _)).append helse
  | .loop test body => by
    rw [Compile.statement, statement, Serves]
    simp only [firstFailure?_append, firstFailure?_plain, Option.or_none]
    refine (serves_expression env .value test).bind fun test htest => ?_
    refine (serves_statement env _ body).bind_pure fun body hbody => ?_
    exact ((htest.append (met_jumpIfZero _)).append hbody).append (met_jump _)
  | .ret returns value => by
    rw [Compile.statement, statement, Serves]
    simp only [firstFailure?_append, firstFailure?_plain, Option.or_none]
    exact (serves_returned env returns value).bind_pure fun _ hvalue => hvalue.append met_epilogue
  | .number value => serves_expression env .value (.number value)
  | .var name => serves_expression env .value (.var name)
  | .element name index => serves_expression env .value (.element name index)
  | .assign target value => serves_expression env .value (.assign target value)
  | .binary op left right => serves_expression env .value (.binary op left right)
  | .call name args => serves_expression env .value (.call name args)

theorem serves_statements (env : Env) (base : Nat) :
    (nodes : List Node) → Serves (statements env nodes) (Compile.statements env base nodes)
  | [] => ⟨rfl, .nil⟩
  | node :: rest => by
    rw [Compile.statements, statements, Serves, firstFailure?_append]
    refine (serves_statement env base node).bind fun node hnode => ?_
    exact (serves_statements env _ rest).bind_pure fun _ hrest => hnode.append hrest

theorem serves_optional (env : Env) (base : Nat) :
    (node : Option Node) → Serves (optional env node) (Compile.optional env base node)
  | none => ⟨rfl, .nil⟩
  | some node => serves_statement env base node

end

theorem serves_after_plain (q : Quantity) {count : Nat} {before : List Operation}
    (h : Met (plain count) before) :
    Serves (plain count ++ [displaced q])
      ((do return before ++ [q.operation (← q.word)]).mapError .ofOverflow) := by
  have hq := serves_displaced q
  rw [Serves] at hq
  rw [Serves, firstFailure?_append, firstFailure?_plain, Option.none_or]
  cases hword : q.word with
  | error o =>
    rw [hword] at hq
    exact hq
  | ok d =>
    rw [hword] at hq
    exact ⟨hq.1, h.append hq.2⟩

theorem serves_preamble (globals : Size) :
    Serves (preamble globals) ((Compile.preamble globals).mapError .ofOverflow) :=
  serves_after_plain (.globals globals)
    (.plain [.memory .ld .gp 0 .zero, .memory .st .zero 0 .zero] (by decide))

theorem serves_prologue (locals : Size) :
    Serves (prologue locals) ((Compile.prologue locals).mapError .ofOverflow) :=
  serves_after_plain (.frame locals)
    (.plain (Compile.push .bp ++ [Operation.memory .lda .bp 0 .sp]) (by decide))

theorem met_closing (returns : ReturnType) :
    Met (plain (Compile.closing returns).length) (Compile.closing returns) :=
  .plain _ (by cases returns <;> decide)

theorem settles_declaration (p : Program) (entries : NameMap Entry) (base : Nat) (node : Node) :
    Settles (firstFailure? (declaration p entries base node).2)
      (fun (entries', r) => entries' = (declaration p entries base node).1 ∧
        Met (declaration p entries base node).2 r.code)
      (Compile.declaration p entries base node) := by
  cases node with
  | function name returns body =>
    rw [Compile.declaration, Compile.routine, declaration]
    cases p.signature? name with
    | none => exact serves_reject _
    | some signature =>
      dsimp only
      split
      · exact serves_reject _
      · simp only [firstFailure?_append, firstFailure?_plain, Option.or_none]
        refine (serves_prologue body.frameSize).bind fun opening hopening => ?_
        refine (serves_statement _ _ body).bind_pure fun code hcode => ?_
        exact ⟨rfl, (hopening.append hcode).append (met_closing returns)⟩
  | _ => exact serves_reject _

theorem settles_declarations (p : Program) (entries : NameMap Entry) (base : Nat)
    (nodes : List Node) :
    Settles (firstFailure? (declarations p entries base nodes).2)
      (fun (entries', routines) => entries' = (declarations p entries base nodes).1 ∧
        Met (declarations p entries base nodes).2 (routines.flatMap Routine.code))
      (Compile.declarations p entries base nodes) := by
  induction nodes generalizing entries base with
  | nil => exact ⟨rfl, rfl, .nil⟩
  | cons node rest ih =>
    rw [Compile.declarations, declarations]
    dsimp only
    rw [firstFailure?_append]
    refine (settles_declaration p entries base node).bind ?_
    rintro ⟨entries₁, r⟩ ⟨rfl, hnode⟩
    -- The next declaration starts at the same address on both sides.
    rw [List.Forall₂.length_eq hnode]
    refine (ih _ _).bind_pure ?_
    rintro ⟨entries₂, routines⟩ ⟨rfl, hrest⟩
    exact ⟨rfl, hnode.append hrest⟩

/-- Compilation meets the demands of a program one by one. -/
theorem settles_compile (p : Program) :
    Settles (firstFailure? p.demands) (fun image => Met p.demands image.operations) p.compile := by
  have hdecls := settles_declarations p Compile.intrinsics Compile.routinesBase p.declarations
  rw [Program.compile, Program.demands]
  -- Which form the demands have depends on the entries that the declarations leave.
  revert hdecls
  generalize declarations p Compile.intrinsics Compile.routinesBase p.declarations = d
  obtain ⟨entries, routines⟩ := d
  intro hdecls
  dsimp only at hdecls ⊢
  cases hget : entries.get? "main" with
  | none =>
    dsimp only
    rw [List.append_assoc, firstFailure?_append, firstFailure?_append]
    refine (serves_preamble p.globals.size).bind fun prelude _ => ?_
    refine hdecls.bind ?_
    rintro ⟨_, code⟩ ⟨rfl, _⟩
    rw [entry_of_get?_none hget]
    exact serves_reject _
  | some main =>
    dsimp only
    simp only [firstFailure?_append, firstFailure?_plain, firstFailure?_call, Option.or_none]
    refine (serves_preamble p.globals.size).bind fun prelude hprelude => ?_
    -- Once `main` is known, its call cannot fail any more.
    have hroutines : firstFailure? routines = (firstFailure? routines).or none :=
      Option.or_none.symm
    rw [hroutines]
    refine hdecls.bind ?_
    rintro ⟨_, code⟩ ⟨rfl, hcode⟩
    rw [entry_of_get? hget]
    refine ⟨rfl, ?_⟩
    exact ((((hprelude.append (met_call main)).append (.plain Compile.halt (by decide))).append
      (.plain Compile.input (by decide))).append (.plain Compile.output (by decide))).append hcode

theorem failure?_displaced_iff {q : Quantity} :
    (∃ f, failure? (displaced q) = some (.fault f)) ↔ q.Overflows := by
  rw [← q.word_fails_iff, failure?]
  cases q.word with
  | ok d => simp
  | error o => exact ⟨fun _ => ⟨o, rfl⟩, fun _ => ⟨_, rfl⟩⟩

theorem firstFailure?_fault_iff {demands : List Demand} :
    (∃ f, firstFailure? demands = some (.fault f)) ↔
      ∃ before q after, demands = before ++ displaced q :: after ∧ q.Overflows ∧
        ∀ reason, rejected reason ∉ before := by
  constructor
  · rintro ⟨f, hf⟩
    obtain ⟨before, demand, after, rfl, hdemand, hbefore⟩ := List.findSome?_eq_some_iff.1 hf
    refine ⟨before, ?_⟩
    cases demand with
    | fixed => cases hdemand
    | rejected reason => cases hdemand
    | displaced q =>
      refine ⟨q, after, rfl, failure?_displaced_iff.1 ⟨f, hdemand⟩, fun reason h => ?_⟩
      cases hbefore _ h
  · rintro ⟨before, q, after, rfl, hq, hbefore⟩
    obtain ⟨f, hf⟩ := failure?_displaced_iff.2 hq
    rw [firstFailure?_append]
    cases hfirst : firstFailure? before with
    | none => exact ⟨f, by rw [Option.none_or, firstFailure?, List.findSome?_cons, hf]⟩
    | some e =>
      -- An earlier quantity may overflow too; what comes first is not a rejection in any case.
      cases e with
      | fault f => exact ⟨f, rfl⟩
      | rejected reason =>
        obtain ⟨_, demand, _, rfl, hdemand, _⟩ := List.findSome?_eq_some_iff.1 hfirst
        cases demand with
        | fixed => cases hdemand
        | rejected reason => exact absurd (by simp) (hbefore reason)
        | displaced q =>
          rw [failure?] at hdemand
          split at hdemand <;> cases hdemand

end Demand

namespace Program

/-- Displacements and the quantities that they stand for. In code that is generated, every
instruction holds the low word of its quantity, which is the quantity itself exactly if that fits a
word, or has a displacement that no size and no offset decides. Generation ends with a fault exactly
if some quantity has a low word that cannot be negated or raised by two, and nothing is rejected
before. A program that is too large for its code to have 64-bit addresses is left out there. -/
theorem displacements_of_generate (p : Program) (trace : Bool) :
    (∀ code, p.generate trace = .ok code →
      code.size = p.demands.length ∧
      (∀ a q, p.demands[a]? = some (.displaced q) →
        ∃ d, (code.get? a).map (·.toOperation) = some (q.operation d) ∧
          d.toInt = q.value.bmod 4294967296 ∧ (d.toInt = q.value ↔ Word.Fits q.value)) ∧
      ∀ a op, (code.get? a).map (·.toOperation) = some op →
        op.Fixed ∨ ∃ q, p.demands[a]? = some (.displaced q)) ∧
    (p.longest < Size.limit →
      ((∃ f, p.generate trace = .error (.fault f)) ↔
        ∃ before q after, p.demands = before ++ .displaced q :: after ∧ q.Overflows ∧
          ∀ reason, .rejected reason ∉ before)) := by
  have hfollows := p.generate_follows trace
  have hsettles := Demand.settles_compile p
  constructor
  · intro code hcode
    rw [hcode] at hfollows
    obtain ⟨image, hcompile, hfills⟩ := hfollows
    rw [hcompile] at hsettles
    obtain ⟨-, hmet⟩ := hsettles
    refine ⟨hfills.size.trans (List.Forall₂.length_eq hmet).symm, ?_, ?_⟩
    · intro a q ha
      obtain ⟨_, hop, d, hd, rfl⟩ := hmet.exists_operation ha
      have hslot := hfills.holds a _ hop
      rw [Nat.zero_add] at hslot
      exact ⟨d, hslot, Quantity.toInt_of_word hd, Quantity.toInt_eq_value_iff hd⟩
    · intro a op ha
      obtain ⟨demand, hdemand, hop⟩ := hmet.exists_demand (hfills.getElem?_of_get? ha)
      cases demand with
      | fixed => exact .inl hop
      | displaced q => exact .inr ⟨q, hdemand⟩
      | rejected reason => cases hop
  · intro hlongest
    rw [← Demand.firstFailure?_fault_iff]
    cases hg : p.generate trace with
    | ok code =>
      rw [hg] at hfollows
      obtain ⟨image, hcompile, -⟩ := hfollows
      rw [hcompile] at hsettles
      simp [hsettles.1]
    | error e =>
      rw [hg] at hfollows
      obtain hcompile | ⟨-, hlong⟩ := hfollows
      · rw [hcompile] at hsettles
        change Demand.firstFailure? p.demands = some e at hsettles
        simp [hsettles]
      · omega

/-- A program without variables whose table of globals claims `cells` cells. -/
def reserving (cells : Size) : Program where
  globals := ⟨.global, cells, .empty⟩
  functions := NameMap.empty.insert "main" ⟨.void, .new .param⟩
  declarations := [.function "main" .void (.compound none [])]

theorem reserving_displacements :
    (reserving 2147483648).longest < Size.limit ∧
    (∃ f, (reserving 2147483648).generate true = .error (.fault f)) ∧
    ∃ code d, (reserving 4294967296).generate true = .ok code ∧
      (code.get? 2).map (·.toOperation) = some (.memory .lda .sp d .gp) ∧ d.toInt = 0 := by
  have hlongest : (reserving 2147483648).longest < Size.limit := by decide
  refine ⟨hlongest, ?_, ?_⟩
  · refine ((displacements_of_generate (reserving 2147483648) true).2 hlongest).2 ?_
    exact ⟨Demand.plain 2, .globals 2147483648, _, rfl, rfl, by simp [Demand.plain]⟩
  · have hok : ((reserving 4294967296).generate true).isOk = true := by decide +kernel
    cases hcode : (reserving 4294967296).generate true with
    | error e => simp [hcode, Except.isOk, Except.toBool] at hok
    | ok code =>
      obtain ⟨-, hdisplaced, -⟩ := (displacements_of_generate _ true).1 code hcode
      obtain ⟨d, hop, hd, -⟩ := hdisplaced 2 (.globals 4294967296) rfl
      exact ⟨code, d, rfl, hop, hd.trans (by decide)⟩

/-- Assigns to two global variables that lie 2^32 cells apart. -/
def distant : Program where
  globals := ⟨.global, 4294967297, (NameMap.empty.insert "near" ⟨.global, .int, 0⟩).insert "far"
    ⟨.global, .int, 4294967296⟩⟩
  functions := NameMap.empty.insert "main" ⟨.void, .new .param⟩
  declarations := [.function "main" .void (.compound none [
    .assign (.var "near") (.number 1), .assign (.var "far") (.number 2)])]

/-- A size of 2^31 has no code, although its negative fits a word, and variables that lie 2^32 cells
apart get one and the same cell. -/
theorem distant_share :
    (reserving 2147483648).generate true = .error (.ofOverflow .neg) ∧
    Word.Fits (Quantity.globals 2147483648).value ∧
    ∃ code, distant.generate true = .ok code ∧
      distant.demands[20]? = some (.displaced (.place ⟨.global, .int, 0⟩)) ∧
      distant.demands[27]? = some (.displaced (.place ⟨.global, .int, 4294967296⟩)) ∧
      (Quantity.place ⟨.global, .int, 4294967296⟩).value = -4294967297 ∧
      (code.get? 20).map (·.toOperation) = some (.memory .lda .bx (-1) .gp) ∧
      (code.get? 27).map (·.toOperation) = some (.memory .lda .bx (-1) .gp) := by
  have hslots : (distant.generate true).toOption.any (fun code =>
      (code.get? 20).map (·.toOperation) = some (.memory .lda .bx (-1) .gp) &&
        (code.get? 27).map (·.toOperation) = some (.memory .lda .bx (-1) .gp)) = true := by
    decide +kernel
  obtain ⟨code, hcode, hslots⟩ := (Option.any_eq_true ..).1 hslots
  rw [Bool.and_eq_true, decide_eq_true_iff, decide_eq_true_iff] at hslots
  exact ⟨rfl, by decide, code, eq_ok_of_toOption hcode, rfl, rfl, rfl, hslots⟩

end Program

end CMinus
