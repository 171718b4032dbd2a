import CMinus.Proofs.Transfer

namespace CMinus.Compile

/-- A row of pieces. -/
inductive Assembled (piece : List Operation → Prop) : List Operation → Prop
  | nil : Assembled piece []
  | join {part rest : List Operation} : piece part → Assembled piece rest →
      Assembled piece (part ++ rest)

namespace Assembled

variable {piece : List Operation → Prop} {ops ops' : List Operation}

theorem single (h : piece ops) : Assembled piece ops := by
  have := Assembled.join h .nil
  rwa [List.append_nil] at this

theorem append (h : Assembled piece ops) (h' : Assembled piece ops') :
    Assembled piece (ops ++ ops') := by
  induction h with
  | nil => exact h'
  | join hpart _ ih =>
    rw [List.append_assoc]
    exact .join hpart ih

theorem mono {piece' : List Operation → Prop} (h : Assembled piece ops)
    (hpiece : ∀ part, piece part → piece' part) : Assembled piece' ops := by
  induction h with
  | nil => exact .nil
  | join hpart _ ih => exact .join (hpiece _ hpart) ih

theorem flatMap {α : Type} {f : α → List Operation} {items : List α}
    (h : ∀ item ∈ items, Assembled piece (f item)) : Assembled piece (items.flatMap f) := by
  induction items with
  | nil => exact .nil
  | cons item items ih =>
    obtain ⟨hitem, hitems⟩ := List.forall_mem_cons.1 h
    rw [List.flatMap_cons]
    exact hitem.append (ih hitems)

/-- What holds of every operation in its piece, and stays true when more code is put around the
piece, holds of every operation. -/
theorem everywhere {P : List Operation → Nat → Operation → Prop} (h : Assembled piece ops)
    (hpiece : ∀ part, piece part → ∀ i op, part[i]? = some op → P part i op)
    (hembed : ∀ before part after i op, P part i op →
      P (before ++ part ++ after) (before.length + i) op) :
    ∀ i op, ops[i]? = some op → P ops i op := by
  induction h with
  | nil =>
    intro i op hget
    cases hget
  | @join part rest hpart _ ih =>
    intro i op hget
    rw [List.getElem?_append] at hget
    split at hget
    · have := hembed [] part rest i op (hpiece part hpart i op hget)
      rwa [List.nil_append, List.length_nil, Nat.zero_add] at this
    · next hi =>
      have := hembed part rest [] _ op (ih _ op hget)
      rwa [List.append_nil, Nat.add_sub_cancel' (Nat.le_of_not_lt hi)] at this

theorem forall_mem {P : Operation → Prop} (h : Assembled piece ops)
    (hpiece : ∀ part, piece part → ∀ op ∈ part, P op) : ∀ op ∈ ops, P op := by
  intro op hop
  obtain ⟨i, hi⟩ := List.getElem?_of_mem hop
  exact h.everywhere (P := fun _ _ op => P op)
    (fun part hpart _ op hget => hpiece part hpart op (List.mem_of_getElem? hget))
    (fun _ _ _ _ _ hop => hop) i op hi

end Assembled

inductive ExpressionPiece : List Operation → Prop
  | number (value : Word) : ExpressionPiece [.memory .ldc .ax value .ax]
  | place {v : Variable} {location : Location} : v.locate = .ok location →
      ExpressionPiece [.memory location.opcode .bx location.displacement location.base]
  | loadVariable (v : Variable) (access : Access) : ExpressionPiece (loadVariable v access)
  | loadElement (access : Access) : ExpressionPiece (loadElement access)
  | push {r : Register} : r ∈ [.ax, .bx] → ExpressionPiece (push r)
  | pop : ExpressionPiece (pop .bx)
  | index : ExpressionPiece [.registers .sub .bx .bx .ax]
  | store : ExpressionPiece [.memory .st .ax 0 .bx]
  | apply (op : BinaryOp) : ExpressionPiece (apply op)
  | call (e : Entry) : ExpressionPiece (call e)

inductive BodyPiece : List Operation → Prop
  | expression {ops : List Operation} : ExpressionPiece ops → BodyPiece ops
  | jumpIfZero (t : Nat) : BodyPiece [jumpIfZero t]
  | jump (t : Nat) : BodyPiece [jump t]
  | leave : BodyPiece epilogue

theorem locate_eq_ok {v : Variable} {location : Location} (h : v.locate = .ok location) :
    location.opcode ∈ [.lda, .ld] ∧ location.base ∈ [.gp, .bp] := by
  rw [Variable.locate] at h
  split at h
  case h_2 | h_4 =>
    cases h
    simp
  all_goals
    simp only [bind_eq_ok, pure_eq_ok] at h
    obtain ⟨_, _, rfl⟩ := h
    simp

inductive Plain : Operation → Prop
  | constant (d : Word) : Plain (.memory .ldc .ax d .ax)
  | place {opcode : Opcode} {d : Word} {base : Register} : opcode ∈ [.lda, .ld] →
      base ∈ [.gp, .bp] → Plain (.memory opcode .bx d base)
  | through {opcode : Opcode} : opcode ∈ [.lda, .ld, .st] → Plain (.memory opcode .ax 0 .bx)
  | top (d : Word) : Plain (.memory .lda .sp d .sp)
  | save {r : Register} : r ∈ [.ax, .bx] → Plain (.memory .st r 0 .sp)
  | restore : Plain (.memory .ld .bx (-1) .sp)
  | compute {opcode : Opcode} {r : Register} : opcode ∈ [.add, .sub, .mul, .div] →
      r ∈ [.ax, .bx] → Plain (.registers opcode r .bx .ax)
  | test {opcode : Opcode} : opcode.isJump = true → Plain (.memory opcode .ax 2 .pc)
  | pass : Plain (.memory .lda .pc 1 .pc)
  | returnAddress : Plain (.memory .lda .ax 3 .pc)
  | enter (d : Word) : Plain (.memory .ldc .pc d .ax)

theorem plain_push {r : Register} (hr : r ∈ [.ax, .bx]) : ∀ op ∈ push r, Plain op := by
  simpa [push] using ⟨.top (-1), .save hr⟩

theorem plain_pop : ∀ op ∈ pop .bx, Plain op := by
  simpa [pop] using ⟨.top 1, .restore⟩

theorem plain_compare {opcode : Opcode} (h : opcode.isJump = true) :
    ∀ op ∈ compare opcode, Plain op := by
  have hsub : Plain (.registers .sub .ax .bx .ax) := .compute (by simp) (by simp)
  simpa [compare] using ⟨hsub, .test h, .constant 0, .pass, .constant 1⟩

/-- The pieces of expressions are made of plain operations. -/
theorem plain_of_piece {part : List Operation} (h : ExpressionPiece part) :
    ∀ op ∈ part, Plain op := by
  intro op hop
  cases h with
  | number value =>
    cases List.mem_singleton.1 hop
    exact .constant value
  | place hlocate =>
    cases List.mem_singleton.1 hop
    obtain ⟨hopcode, hbase⟩ := locate_eq_ok hlocate
    exact .place hopcode hbase
  | loadVariable v access =>
    obtain ⟨scope, ty, offset⟩ := v
    cases access with
    | address => cases hop
    | value =>
      cases ty <;>
      · cases List.mem_singleton.1 hop
        exact .through (by simp)
  | loadElement access =>
    cases access with
    | address => cases hop
    | value =>
      cases List.mem_singleton.1 hop
      exact .through (by simp)
  | push hr => exact plain_push hr op hop
  | pop => exact plain_pop op hop
  | index =>
    cases List.mem_singleton.1 hop
    exact .compute (by simp) (by simp)
  | store =>
    cases List.mem_singleton.1 hop
    exact .through (by simp)
  | apply binary =>
    cases binary with
    | add | sub | mul | div =>
      cases List.mem_singleton.1 hop
      exact .compute (by simp) (by simp)
    | equal | notEqual | lessThan | greaterThan | lessOrEqual | greaterOrEqual =>
      exact plain_compare rfl op hop
  | call e =>
    have hpush := plain_push (r := .ax) (by simp)
    have hcall : ∀ op ∈ call e, Plain op := by
      simpa [call, or_imp, forall_and] using ⟨.returnAddress, hpush, .enter _, .top _⟩
    exact hcall op hop

variable {env : Env}

theorem assembled_place {name : String} {v : Variable} {ops : List Operation}
    (h : place env name = .ok (v, ops)) : Assembled ExpressionPiece ops := by
  simp only [place, address, bind_eq_ok, mapError_eq_ok, pure_eq_ok, Prod.mk.injEq] at h
  obtain ⟨_, _, _, ⟨location, hlocate, rfl⟩, _, rfl⟩ := h
  exact .single (.place hlocate)

mutual

theorem assembled_expression {access : Access} {ops : List Operation} :
    (node : Node) → expression env access node = .ok ops → Assembled ExpressionPiece ops
  | .number value, h => by
    cases h
    exact .single (.number value)
  | .var name, h => by
    simp only [expression, bind_eq_ok, pure_eq_ok] at h
    obtain ⟨⟨v, target⟩, hplace, rfl⟩ := h
    exact (assembled_place hplace).append (.single (.loadVariable v access))
  | .element name index, h => by
    simp only [expression, bind_eq_ok, pure_eq_ok] at h
    obtain ⟨⟨v, target⟩, hplace, i, hindex, rfl⟩ := h
    have hindex := assembled_expression index hindex
    exact (((((assembled_place hplace).append (.single (.push (by simp)))).append hindex).append
      (.single .pop)).append (.single .index)).append (.single (.loadElement access))
  | .assign target value, h => by
    rw [expression] at h
    split at h
    · simp only [bind_eq_ok, pure_eq_ok] at h
      obtain ⟨t, htarget, v, hvalue, rfl⟩ := h
      have htarget := assembled_expression target htarget
      have hvalue := assembled_expression value hvalue
      exact (((htarget.append (.single (.push (by simp)))).append hvalue).append
        (.single .pop)).append (.single .store)
    · cases h
  | .binary op left right, h => by
    simp only [expression, bind_eq_ok, pure_eq_ok] at h
    obtain ⟨l, hleft, r, hright, rfl⟩ := h
    have hleft := assembled_expression left hleft
    have hright := assembled_expression right hright
    exact (((hleft.append (.single (.push (by simp)))).append hright).append
      (.single .pop)).append (.single (.apply op))
  | .call name args, h => by
    simp only [expression, bind_eq_ok, pure_eq_ok] at h
    obtain ⟨e, _, a, hargs, rfl⟩ := h
    exact (assembled_arguments args hargs).append (.single (.call e))
  | .function .., h | .compound .., h | .branch .., h | .loop .., h | .ret .., h => by cases h

theorem assembled_arguments {ops : List Operation} :
    (args : List Node) → arguments env args = .ok ops → Assembled ExpressionPiece ops
  | [], h => by
    cases h
    exact .nil
  | arg :: rest, h => by
    simp only [arguments, bind_eq_ok, pure_eq_ok] at h
    obtain ⟨r, hrest, a, harg, rfl⟩ := h
    have hrest := assembled_arguments rest hrest
    exact (hrest.append (assembled_expression arg harg)).append (.single (.push (by simp)))

end

theorem assembled_value {access : Access} {node : Node} {ops : List Operation}
    (h : expression env access node = .ok ops) : Assembled BodyPiece ops :=
  (assembled_expression node h).mono fun _ => .expression

theorem assembled_returned {returns : ReturnType} {value : Option Node} {ops : List Operation}
    (h : returned env returns value = .ok ops) : Assembled BodyPiece ops := by
  cases value with
  | none => cases returns <;> cases h <;> exact .nil
  | some value =>
    cases returns with
    | void =>
      cases h
      exact .nil
    | int | array => exact assembled_value h

mutual

theorem assembled_statement {env : Env} {base : Nat} {ops : List Operation} :
    (node : Node) → statement env base node = .ok ops → Assembled BodyPiece ops
  | .function .., h => nomatch h
  | .compound table body, h => assembled_statements body h
  | .branch test thenPart elsePart, h => by
    simp only [statement, bind_eq_ok, pure_eq_ok] at h
    obtain ⟨t, htest, a, hthen, b, helse, rfl⟩ := h
    have hthen := assembled_statement thenPart hthen
    have helse := assembled_optional elsePart helse
    exact ((((assembled_value htest).append (.single (.jumpIfZero _))).append hthen).append
      (.single (.jump _))).append helse
  | .loop test body, h => by
    simp only [statement, bind_eq_ok, pure_eq_ok] at h
    obtain ⟨t, htest, b, hbody, rfl⟩ := h
    have hbody := assembled_statement body hbody
    exact (((assembled_value htest).append (.single (.jumpIfZero _))).append hbody).append
      (.single (.jump _))
  | .ret returns value, h => by
    simp only [statement, bind_eq_ok, pure_eq_ok] at h
    obtain ⟨v, hvalue, rfl⟩ := h
    exact (assembled_returned hvalue).append (.single .leave)
  | .number _, h | .var _, h | .element _ _, h | .assign _ _, h | .binary _ _ _, h
  | .call _ _, h => assembled_value h

theorem assembled_statements {env : Env} {base : Nat} {ops : List Operation} :
    (nodes : List Node) → statements env base nodes = .ok ops → Assembled BodyPiece ops
  | [], h => by
    cases h
    exact .nil
  | node :: rest, h => by
    simp only [statements, bind_eq_ok, pure_eq_ok] at h
    obtain ⟨a, hnode, b, hrest, rfl⟩ := h
    exact (assembled_statement node hnode).append (assembled_statements rest hrest)

theorem assembled_optional {env : Env} {base : Nat} {ops : List Operation} :
    (node : Option Node) → optional env base node = .ok ops → Assembled BodyPiece ops
  | none, h => by
    cases h
    exact .nil
  | some node, h => assembled_statement node h

end

inductive ProgramPiece : List Operation → Prop
  | body {ops : List Operation} : BodyPiece ops → ProgramPiece ops
  | prelude {globals : Size} {ops : List Operation} : preamble globals = .ok ops →
      ProgramPiece ops
  | opening {locals : Size} {ops : List Operation} : prologue locals = .ok ops → ProgramPiece ops
  | halt : ProgramPiece halt
  | input : ProgramPiece input
  | output : ProgramPiece output

theorem assembled_routine {p : Program} {entries : NameMap Entry} {returns : ReturnType}
    {body : Node} {r : Routine} (h : Realizes p entries returns body r) :
    Assembled ProgramPiece r.code := by
  obtain ⟨_, _, _, _, _, hbody⟩ := h.params
  have hclosing : Assembled BodyPiece r.closing := by
    rw [h.closing]
    cases returns with
    | void => exact .single .leave
    | int | array => exact .nil
  have hopening : Assembled ProgramPiece r.opening := .single (.opening h.opening)
  have hbody := (assembled_statement body hbody).append hclosing
  rw [Routine.code, List.append_assoc]
  exact hopening.append (hbody.mono fun _ => .body)

theorem assembled_operations {p : Program} {image : Image} (h : p.compile = .ok image) :
    Assembled ProgramPiece image.operations := by
  obtain ⟨hprelude, entries, hdecls, -⟩ := Program.compile_eq_ok h
  have hcall : Assembled ProgramPiece (call image.main) :=
    .single (.body (.expression (.call image.main)))
  have hfront : Assembled ProgramPiece image.front :=
    ((((Assembled.single (.prelude hprelude)).append hcall).append (.single .halt)).append
      (.single .input)).append (.single .output)
  rw [image.operations_eq]
  refine hfront.append (Assembled.flatMap fun r hr => ?_)
  obtain ⟨before, after, heq⟩ := List.append_of_mem hr
  rw [heq] at hdecls
  obtain ⟨_, returns, body, _, _, _, _, _, hrealizes⟩ := declarations_split hdecls
  exact assembled_routine hrealizes

end CMinus.Compile
