import CMinus.Proofs.Effect
import CMinus.Proofs.Pieces
import Mathlib.Algebra.Ring.Int.Defs

namespace CMinus

namespace Node

mutual

/-- The calls of a tree that code is made for: the name of the function and the number of
arguments. -/
def calls : Node → List (String × Nat)
  | function _ _ body => body.calls
  | compound _ statements => callsAll statements
  | branch test thenPart elsePart => test.calls ++ thenPart.calls ++ callsOptional elsePart
  | loop test body => test.calls ++ body.calls
  -- What a function without a result returns is not looked at.
  | ret .void _ => []
  | ret .int value => callsOptional value
  | ret .array value => callsOptional value
  | number _ => []
  | var _ => []
  | element _ index => index.calls
  | assign target value => target.calls ++ value.calls
  | binary _ left right => left.calls ++ right.calls
  | call name args => (name, args.length) :: callsAll args

def callsAll : List Node → List (String × Nat)
  | [] => []
  | node :: rest => node.calls ++ callsAll rest

def callsOptional : Option Node → List (String × Nat)
  | none => []
  | some node => node.calls

end

end Node

/-- Every call passes as many arguments as its function has parameters. -/
def Program.CallsFit (p : Program) : Prop :=
  ∀ name n, (name, n) ∈ Node.callsAll p.declarations →
    ∀ count, p.paramCount? name = some count → count.toNat = n

namespace Env

/-- Every call releases as many cells as it passes arguments. -/
def Fits (env : Env) (calls : List (String × Nat)) : Prop :=
  ∀ name n, (name, n) ∈ calls → ∀ e, env.entries.get? name = some e → e.params.low.toInt = n

variable {env : Env} {calls calls' : List (String × Nat)}

theorem Fits.left (h : env.Fits (calls ++ calls')) : env.Fits calls := by
  intro name n hmem
  exact h name n (List.mem_append_left _ hmem)

theorem Fits.right (h : env.Fits (calls ++ calls')) : env.Fits calls' := by
  intro name n hmem
  exact h name n (List.mem_append_right _ hmem)

theorem Fits.enter (h : env.Fits calls) (table : Option Table) : (env.enter table).Fits calls := by
  cases table <;> exact h

end Env

namespace Compile

/-- The first operation of an epilogue. It forgets how high the stack was. -/
def dropFrame : Operation :=
  .memory .lda .sp 0 .bp

/-- How much higher the stack is when control gets to the next address. Nothing follows an epilogue,
so its first operation makes up for the others. -/
def climb (op : Operation) : Int :=
  if op = dropFrame then 2 else -(op.gain.getD 0)

def climbs (ops : List Operation) : Int :=
  (ops.map climb).sum

@[simp]
theorem climbs_nil : climbs [] = 0 := rfl

@[simp]
theorem climbs_cons (op : Operation) (ops : List Operation) :
    climbs (op :: ops) = climb op + climbs ops := by
  rw [climbs, List.map_cons, List.sum_cons, climbs]

@[simp]
theorem climbs_append (ops ops' : List Operation) :
    climbs (ops ++ ops') = climbs ops + climbs ops' := by
  rw [climbs, List.map_append, List.sum_append, climbs, climbs]

theorem climb_top (d : Word) : climb (.memory .lda .sp d .sp) = -d.toInt := by
  simp [climb, dropFrame, Operation.memory, Operation.gain, Operation.raise]

theorem climb_of_fills {op : Operation} (htop : op.fills ≠ some .sp)
    (hcall : op.opcode = .ldc → op.fills ≠ some .pc) : climb op = 0 := by
  have hdrop : op ≠ dropFrame := by
    intro hop
    exact htop (by rw [hop]; rfl)
  have hraise : op.raise = some 0 := by
    unfold Operation.raise
    split
    · exact absurd rfl htop
    · rw [if_neg htop]
  have hgain : op.gain = op.raise := by
    apply Operation.gain_eq_raise
    rintro d s rfl
    exact hcall rfl rfl
  rw [climb, if_neg hdrop, hgain, hraise]
  rfl

/-- `ops` take the stack from height `x` to height `y`, and never below height 0. -/
structure Moves (x y : Int) (ops : List Operation) : Prop where
  total : x + climbs ops = y
  above : ∀ j, 0 ≤ x + climbs (ops.take j)

namespace Moves

variable {x y z : Int} {op : Operation} {ops ops' : List Operation}

theorem nil (hx : 0 ≤ x) : Moves x x [] := by
  constructor
  · rw [climbs_nil, Int.add_zero]
  · intro j
    rw [List.take_nil, climbs_nil, Int.add_zero]
    exact hx

theorem cons (hx : 0 ≤ x) (hop : x + climb op = y) (h : Moves y z ops) : Moves x z (op :: ops) := by
  constructor
  · rw [climbs_cons, ← Int.add_assoc, hop, h.total]
  · intro j
    cases j with
    | zero =>
      rw [List.take_zero, climbs_nil, Int.add_zero]
      exact hx
    | succ j =>
      rw [List.take_succ_cons, climbs_cons, ← Int.add_assoc, hop]
      exact h.above j

theorem append (h : Moves x y ops) (h' : Moves y z ops') : Moves x z (ops ++ ops') := by
  constructor
  · rw [climbs_append, ← Int.add_assoc, h.total, h'.total]
  · intro j
    rw [List.take_append, climbs_append, ← Int.add_assoc]
    by_cases hj : j ≤ ops.length
    · rw [Nat.sub_eq_zero_of_le hj, List.take_zero, climbs_nil, Int.add_zero]
      exact h.above j
    · rw [List.take_of_length_le (by omega), h.total]
      exact h'.above _

/-- Operations that climb nothing stay at one height. -/
theorem still (hx : 0 ≤ x) (h : ∀ op ∈ ops, climb op = 0) : Moves x x ops := by
  induction ops with
  | nil => exact nil hx
  | cons op ops ih =>
    have hop : x + climb op = x := by
      rw [h op List.mem_cons_self, Int.add_zero]
    exact cons hx hop (ih fun op hmem => h op (List.mem_cons_of_mem _ hmem))

theorem single (hx : 0 ≤ x) (htop : op.fills ≠ some .sp)
    (hcall : op.opcode = .ldc → op.fills ≠ some .pc) : Moves x x [op] := by
  refine still hx ?_
  intro op' hop
  rw [List.mem_singleton.1 hop]
  exact climb_of_fills htop hcall

end Moves

section Pieces

variable {x : Int}

theorem moves_push (hx : 0 ≤ x) {r : Register} : Moves x (x + 1) (push r) := by
  refine .cons hx (y := x + 1) ?_ (.single (by omega) nofun nofun)
  rw [climb_top]
  rfl

theorem moves_pop (hx : 0 ≤ x) : Moves (x + 1) x (pop .bx) := by
  refine .cons (by omega) (y := x) ?_ (.single hx nofun nofun)
  rw [climb_top]
  change x + 1 + -1 = x
  omega

theorem moves_call (hx : 0 ≤ x) {e : Entry} {n : Nat} (hn : e.params.low.toInt = n) :
    Moves (x + n) x (call e) := by
  have hjump : climb (.memory .ldc .pc (Word.low e.address) .ax) = -1 := by
    simp [climb, dropFrame, Operation.memory, Operation.gain]
  have hreturn : Moves (x + n) (x + n) [.memory .lda .ax 3 .pc] :=
    .single (by omega) (by decide) (by decide)
  refine (hreturn.append (moves_push (by omega))).append ?_
  refine .cons (by omega) (y := x + n) ?_ (.cons (by omega) (y := x) ?_ (.nil hx))
  · rw [hjump]
    omega
  · rw [climb_top, hn]
    omega

theorem moves_place (hx : 0 ≤ x) {env : Env} {name : String} {v : Variable}
    {ops : List Operation} (h : place env name = .ok (v, ops)) : Moves x x ops := by
  simp only [place, address, bind_eq_ok, mapError_eq_ok, pure_eq_ok, Prod.mk.injEq] at h
  obtain ⟨_, _, _, ⟨location, hlocate, rfl⟩, _, rfl⟩ := h
  obtain ⟨hopcode, -⟩ := locate_eq_ok hlocate
  simp only [List.mem_cons, List.not_mem_nil, or_false] at hopcode
  rcases hopcode with hopcode | hopcode <;>
  · rw [hopcode]
    exact .single hx nofun nofun

theorem moves_loadVariable (hx : 0 ≤ x) (v : Variable) (access : Access) :
    Moves x x (loadVariable v access) := by
  obtain ⟨scope, ty, offset⟩ := v
  cases access with
  | address => exact .nil hx
  | value => cases ty <;> exact .single hx nofun nofun

theorem moves_loadElement (hx : 0 ≤ x) (access : Access) : Moves x x (loadElement access) := by
  cases access with
  | address => exact .nil hx
  | value => exact .single hx nofun nofun

theorem moves_apply (hx : 0 ≤ x) (op : BinaryOp) : Moves x x (apply op) := by
  refine .still hx ?_
  cases op <;> decide

end Pieces

mutual

/-- An expression leaves the stack as high as it finds it. -/
theorem moves_expression {env : Env} {access : Access} {ops : List Operation} {x : Int}
    (hx : 0 ≤ x) : (node : Node) → env.Fits node.calls → expression env access node = .ok ops →
      Moves x x ops
  | .number value, _, h => by
    cases h
    exact .single hx nofun nofun
  | .var name, _, h => by
    simp only [expression, bind_eq_ok, pure_eq_ok] at h
    obtain ⟨⟨v, target⟩, hplace, rfl⟩ := h
    exact (moves_place hx hplace).append (moves_loadVariable hx v access)
  | .element name index, hfit, h => by
    simp only [expression, bind_eq_ok, pure_eq_ok] at h
    obtain ⟨⟨v, target⟩, hplace, i, hindex, rfl⟩ := h
    have hindex := moves_expression (x := x + 1) (by omega) index hfit hindex
    have hsub : Moves x x [.registers .sub .bx .bx .ax] := .single hx nofun nofun
    exact (((((moves_place hx hplace).append (moves_push hx)).append hindex).append
      (moves_pop hx)).append hsub).append (moves_loadElement hx access)
  | .assign target value, hfit, h => by
    rw [expression] at h
    split at h
    · simp only [bind_eq_ok, pure_eq_ok] at h
      obtain ⟨t, htarget, v, hvalue, rfl⟩ := h
      have htarget := moves_expression hx target hfit.left htarget
      have hvalue := moves_expression (x := x + 1) (by omega) value hfit.right hvalue
      have hstore : Moves x x [.memory .st .ax 0 .bx] := .single hx nofun nofun
      exact (((htarget.append (moves_push hx)).append hvalue).append (moves_pop hx)).append hstore
    · cases h
  | .binary op left right, hfit, h => by
    simp only [expression, bind_eq_ok, pure_eq_ok] at h
    obtain ⟨l, hleft, r, hright, rfl⟩ := h
    have hleft := moves_expression hx left hfit.left hleft
    have hright := moves_expression (x := x + 1) (by omega) right hfit.right hright
    exact (((hleft.append (moves_push hx)).append hright).append (moves_pop hx)).append
      (moves_apply hx op)
  | .call name args, hfit, h => by
    simp only [expression, bind_eq_ok, pure_eq_ok] at h
    obtain ⟨e, hentry, a, hargs, rfl⟩ := h
    have hcount := hfit name args.length List.mem_cons_self e (get?_of_entry hentry)
    have hargs := moves_arguments hx args
      (fun name n hmem => hfit name n (List.mem_cons_of_mem _ hmem)) hargs
    exact hargs.append (moves_call hx hcount)
  | .function .., _, h | .compound .., _, h | .branch .., _, h | .loop .., _, h
  | .ret .., _, h => by cases h

theorem moves_arguments {env : Env} {ops : List Operation} {x : Int} (hx : 0 ≤ x) :
    (args : List Node) → env.Fits (Node.callsAll args) → arguments env args = .ok ops →
      Moves x (x + args.length) ops
  | [], _, h => by
    cases h
    rw [List.length_nil, Int.natCast_zero, Int.add_zero]
    exact .nil hx
  | arg :: rest, hfit, h => by
    simp only [arguments, bind_eq_ok, pure_eq_ok] at h
    obtain ⟨r, hrest, a, harg, rfl⟩ := h
    have hrest := moves_arguments hx rest hfit.right hrest
    have harg := moves_expression (x := x + rest.length) (by omega) arg hfit.left harg
    rw [List.length_cons, Int.natCast_add, ← Int.add_assoc]
    exact (hrest.append harg).append (moves_push (by omega))

end

theorem moves_returned {env : Env} {returns : ReturnType} {value : Option Node}
    {ops : List Operation} (hfit : env.Fits (Node.ret returns value).calls)
    (h : returned env returns value = .ok ops) : Moves 0 0 ops := by
  cases value with
  | none => cases returns <;> cases h <;> exact .nil (Int.le_refl 0)
  | some value =>
    cases returns with
    | void =>
      cases h
      exact .nil (Int.le_refl 0)
    | int | array => exact moves_expression (Int.le_refl 0) value hfit h

/-- Code that starts and ends at the height of the empty frame, made of whole pieces. -/
structure Level (ops : List Operation) : Prop where
  moves : Moves 0 0 ops
  assembled : Assembled BodyPiece ops

namespace Level

variable {ops ops' : List Operation}

theorem nil : Level [] :=
  ⟨.nil (Int.le_refl 0), .nil⟩

theorem append (h : Level ops) (h' : Level ops') : Level (ops ++ ops') :=
  ⟨h.moves.append h'.moves, h.assembled.append h'.assembled⟩

theorem jumpIfZero (t : Nat) : Level [jumpIfZero t] :=
  ⟨.single (Int.le_refl 0) nofun nofun, .single (.jumpIfZero t)⟩

theorem jump (t : Nat) : Level [jump t] :=
  ⟨.single (Int.le_refl 0) nofun nofun, .single (.jump t)⟩

theorem leave : Level epilogue := by
  refine ⟨⟨by decide, ?_⟩, .single .leave⟩
  intro j
  match j with
  | 0 | 1 | 2 | 3 => decide
  | j + 4 =>
    rw [List.take_of_length_le (by change 4 ≤ j + 4; omega)]
    decide

theorem expression {env : Env} {access : Access} {node : Node} (hfit : env.Fits node.calls)
    (h : Compile.expression env access node = .ok ops) : Level ops :=
  ⟨moves_expression (Int.le_refl 0) node hfit h, assembled_value h⟩

end Level

mutual

theorem level_statement {env : Env} {base : Nat} {ops : List Operation} :
    (node : Node) → env.Fits node.calls → statement env base node = .ok ops → Level ops
  | .function .., _, h => nomatch h
  | .compound table body, hfit, h => level_statements body (hfit.enter table) h
  | .branch test thenPart elsePart, hfit, h => by
    simp only [statement, bind_eq_ok, pure_eq_ok] at h
    obtain ⟨t, htest, a, hthen, b, helse, rfl⟩ := h
    have htest := Level.expression hfit.left.left htest
    have hthen := level_statement thenPart hfit.left.right hthen
    have helse := level_optional elsePart hfit.right helse
    exact (((htest.append (.jumpIfZero _)).append hthen).append (.jump _)).append helse
  | .loop test body, hfit, h => by
    simp only [statement, bind_eq_ok, pure_eq_ok] at h
    obtain ⟨t, htest, b, hbody, rfl⟩ := h
    have htest := Level.expression hfit.left htest
    have hbody := level_statement body hfit.right hbody
    exact ((htest.append (.jumpIfZero _)).append hbody).append (.jump _)
  | .ret returns value, hfit, h => by
    simp only [statement, bind_eq_ok, pure_eq_ok] at h
    obtain ⟨v, hvalue, rfl⟩ := h
    exact Level.append ⟨moves_returned hfit hvalue, assembled_returned hvalue⟩ .leave
  | .number _, hfit, h | .var _, hfit, h | .element _ _, hfit, h | .assign _ _, hfit, h
  | .binary _ _ _, hfit, h | .call _ _, hfit, h => .expression hfit h

theorem level_statements {env : Env} {base : Nat} {ops : List Operation} :
    (nodes : List Node) → env.Fits (Node.callsAll nodes) → statements env base nodes = .ok ops →
      Level ops
  | [], _, h => by
    cases h
    exact .nil
  | node :: rest, hfit, h => by
    simp only [statements, bind_eq_ok, pure_eq_ok] at h
    obtain ⟨a, hnode, b, hrest, rfl⟩ := h
    have hnode := level_statement node hfit.left hnode
    exact hnode.append (level_statements rest hfit.right hrest)

theorem level_optional {env : Env} {base : Nat} {ops : List Operation} :
    (node : Option Node) → env.Fits (Node.callsOptional node) → optional env base node = .ok ops →
      Level ops
  | none, _, h => by
    cases h
    exact .nil
  | some node, hfit, h => level_statement node hfit h

end

end Compile

end CMinus
