import CMinus.Proofs.Layout
import CMinus.Proofs.Step

namespace CMinus

namespace Compile

/-- The operations `part` stand in `ops` from position `k` on. -/
def Stands (ops : List Operation) (k : Nat) (part : List Operation) : Prop :=
  ∃ before after, ops = before ++ part ++ after ∧ before.length = k

theorem Stands.embed {ops part : List Operation} {k : Nat} (h : Stands ops k part)
    (before after : List Operation) :
    Stands (before ++ ops ++ after) (before.length + k) part := by
  obtain ⟨before', after', rfl, rfl⟩ := h
  exact ⟨before ++ before', after' ++ after, by simp, List.length_append⟩

theorem Stands.self (ops : List Operation) : Stands ops 0 ops :=
  ⟨[], [], by simp, rfl⟩

theorem Stands.getElem? {ops part : List Operation} {k : Nat} (h : Stands ops k part) {i : Nat}
    {op : Operation} (hget : part[i]? = some op) : ops[k + i]? = some op := by
  obtain ⟨before, after, rfl, rfl⟩ := h
  have hlt := (List.getElem?_eq_some_iff.1 hget).1
  rw [List.append_assoc, List.getElem?_append_right (Nat.le_add_right ..), Nat.add_sub_cancel_left,
    List.getElem?_append_left hlt, hget]

theorem Stands.length_le {ops part : List Operation} {k : Nat} (h : Stands ops k part) :
    k + part.length ≤ ops.length := by
  obtain ⟨before, after, rfl, rfl⟩ := h
  simp

/-- The role of an operation that writes the counter, at position `i` of the code of a function.
Jumps go to `target` addresses and calls to `callee` entries. -/
inductive Role (target : Nat → Prop) (callee : Entry → Prop) (ops : List Operation) (i : Nat) :
    Operation → Prop
  | jumpIfZero {t : Nat} : target t → Role target callee ops i (jumpIfZero t)
  | jump {t : Nat} : target t → Role target callee ops i (jump t)
  | test {k : Nat} {opcode : Opcode} : opcode.isJump = true → Stands ops k (compare opcode) →
      i = k + 1 → Role target callee ops i (.memory opcode .ax 2 .pc)
  | pass {k : Nat} {opcode : Opcode} : opcode.isJump = true → Stands ops k (compare opcode) →
      i = k + 3 → Role target callee ops i (.memory .lda .pc 1 .pc)
  | call {k : Nat} {e : Entry} : callee e → Stands ops k (call e) → i = k + 3 →
      Role target callee ops i (.memory .ldc .pc (Word.low e.address) .ax)
  | leave {k : Nat} : Stands ops k epilogue → i = k + 3 →
      Role target callee ops i (.memory .ld .pc (-1) .sp)

/-- Every operation that writes the counter has a role. -/
def Routed (target : Nat → Prop) (callee : Entry → Prop) (ops : List Operation) : Prop :=
  ∀ i op, ops[i]? = some op → op.writesPc = true → Role target callee ops i op

section Routing

variable {target : Nat → Prop} {callee callee' : Entry → Prop} {ops : List Operation}

theorem Role.embed {i : Nat} {op : Operation} (h : Role target callee ops i op)
    (hcallee : ∀ e, callee e → callee' e) (before after : List Operation) :
    Role target callee' (before ++ ops ++ after) (before.length + i) op := by
  cases h with
  | jumpIfZero ht => exact .jumpIfZero ht
  | jump ht => exact .jump ht
  | test hop hs hi => exact .test hop (hs.embed before after) (by omega)
  | pass hop hs hi => exact .pass hop (hs.embed before after) (by omega)
  | call he hs hi => exact .call (hcallee _ he) (hs.embed before after) (by omega)
  | leave hs hi => exact .leave (hs.embed before after) (by omega)

theorem Routed.mono (h : Routed target callee ops) (hcallee : ∀ e, callee e → callee' e) :
    Routed target callee' ops := by
  intro i op hget hw
  simpa using (h i op hget hw).embed hcallee [] []

theorem Routed.append {ops' : List Operation} (h : Routed target callee ops)
    (h' : Routed target callee ops') : Routed target callee (ops ++ ops') := by
  intro i op hget hw
  rw [List.getElem?_append] at hget
  split at hget
  · simpa using (h i op hget hw).embed (fun _ => id) [] ops'
  · next hi =>
    have := (h' _ op hget hw).embed (fun _ => id) ops []
    rwa [List.append_nil, Nat.add_sub_cancel' (Nat.le_of_not_lt hi)] at this

theorem Routed.of_quiet (h : ∀ op ∈ ops, op.writesPc = false) : Routed target callee ops := by
  intro i op hget hw
  rw [h op (List.mem_of_getElem? hget)] at hw
  cases hw

theorem Routed.nil : Routed target callee [] :=
  .of_quiet fun _ h => (nomatch h)

theorem routed_prologue {locals : Size} (h : prologue locals = .ok ops) :
    Routed target callee ops := by
  simp only [prologue, bind_eq_ok, pure_eq_ok] at h
  obtain ⟨w, _, rfl⟩ := h
  exact .of_quiet (by simp [push, Operation.memory, Operation.writesPc, Opcode.isJump])

theorem routed_jumpIfZero {t : Nat} (h : target t) : Routed target callee [jumpIfZero t] := by
  intro i op hget _
  obtain ⟨-, rfl⟩ := List.getElem?_eq_some_iff.1 hget
  rw [List.getElem_singleton]
  exact .jumpIfZero h

theorem routed_jump {t : Nat} (h : target t) : Routed target callee [jump t] := by
  intro i op hget _
  obtain ⟨-, rfl⟩ := List.getElem?_eq_some_iff.1 hget
  rw [List.getElem_singleton]
  exact .jump h

theorem routed_push {r : Register} : Routed target callee (push r) :=
  .of_quiet (by simp [push, Operation.memory, Operation.writesPc, Opcode.isJump])

theorem routed_pop {r : Register} (h : r ≠ .pc) : Routed target callee (pop r) :=
  .of_quiet (by simp [pop, Operation.memory, Operation.writesPc, h])

theorem routed_compare {opcode : Opcode} (h : opcode.isJump = true) :
    Routed target callee (compare opcode) := by
  intro i op hget hw
  match i, hget with
  | 0, hget | 2, hget | 4, hget =>
    cases hget
    cases hw
  | 1, hget =>
    cases hget
    exact .test h (.self _) rfl
  | 3, hget =>
    cases hget
    exact .pass h (.self _) rfl

theorem routed_apply (op : BinaryOp) : Routed target callee (apply op) := by
  cases op with
  | add | sub | mul | div => exact .of_quiet (by simp [apply, Operation.registers, Operation.writesPc])
  | _ => exact routed_compare rfl

theorem routed_call {e : Entry} (h : callee e) : Routed target callee (call e) := by
  intro i op hget hw
  match i, hget with
  | 0, hget | 1, hget | 2, hget | 4, hget =>
    cases hget
    cases hw
  | 3, hget =>
    cases hget
    exact .call h (.self _) rfl

theorem routed_epilogue : Routed target callee epilogue := by
  intro i op hget hw
  match i, hget with
  | 0, hget | 1, hget | 2, hget =>
    cases hget
    cases hw
  | 3, hget =>
    cases hget
    exact .leave (.self _) rfl

end Routing

section Bodies

variable {target : Nat → Prop} {env : Env}

/-- An entry that calls in an environment can go to. -/
def Callee (env : Env) (e : Entry) : Prop :=
  ∃ name, env.entries.get? name = some e

theorem routed_place {callee : Entry → Prop} {name : String} {v : Variable}
    {ops : List Operation} (h : place env name = .ok (v, ops)) : Routed target callee ops := by
  simp only [place, address, bind_eq_ok, mapError_eq_ok, pure_eq_ok, Prod.mk.injEq] at h
  obtain ⟨_, _, _, ⟨location, hlocate, rfl⟩, _, rfl⟩ := h
  refine .of_quiet fun op hop => ?_
  rw [List.mem_singleton] at hop
  subst hop
  have hopcode : location.opcode = .lda ∨ location.opcode = .ld := by
    rw [Variable.locate] at hlocate
    split at hlocate
    case h_2 | h_4 =>
      cases hlocate
      exact .inl rfl
    all_goals
      simp only [bind_eq_ok, pure_eq_ok] at hlocate
      obtain ⟨_, _, rfl⟩ := hlocate
      simp
  rcases hopcode with h | h <;> simp [Operation.memory, Operation.writesPc, h]

theorem routed_loadVariable {callee : Entry → Prop} (v : Variable) (access : Access) :
    Routed target callee (loadVariable v access) := by
  cases access with
  | value =>
    rw [loadVariable]
    split <;> exact .of_quiet (by simp [Operation.memory, Operation.writesPc])
  | address => exact .nil

theorem routed_loadElement {callee : Entry → Prop} (access : Access) :
    Routed target callee (loadElement access) := by
  cases access with
  | value => exact .of_quiet (by simp [loadElement, Operation.memory, Operation.writesPc])
  | address => exact .nil

mutual

/-- The code of an expression holds comparisons and calls, but no jumps of its own. -/
theorem routed_expression {access : Access} {ops : List Operation} :
    (node : Node) → expression env access node = .ok ops → Routed target (Callee env) ops
  | .number value, h => by
    cases h
    exact .of_quiet (by simp [Operation.memory, Operation.writesPc])
  | .var name, h => by
    simp only [expression, bind_eq_ok, pure_eq_ok] at h
    obtain ⟨⟨v, ops⟩, hplace, rfl⟩ := h
    exact (routed_place hplace).append (routed_loadVariable v access)
  | .element name index, h => by
    simp only [expression, bind_eq_ok, pure_eq_ok] at h
    obtain ⟨⟨v, ops⟩, hplace, i, hindex, rfl⟩ := h
    have hsub : Routed target (Callee env) [.registers .sub .bx .bx .ax] :=
      .of_quiet (by simp [Operation.registers, Operation.writesPc])
    exact (((((routed_place hplace).append routed_push).append
      (routed_expression index hindex)).append (routed_pop (by decide))).append hsub).append
        (routed_loadElement access)
  | .assign place value, h => by
    rw [expression] at h
    split at h
    · simp only [bind_eq_ok, pure_eq_ok] at h
      obtain ⟨t, hplace, v, hvalue, rfl⟩ := h
      have hstore : Routed target (Callee env) [.memory .st .ax 0 .bx] :=
        .of_quiet (by simp [Operation.memory, Operation.writesPc, Opcode.isJump])
      exact ((((routed_expression place hplace).append routed_push).append
        (routed_expression value hvalue)).append (routed_pop (by decide))).append hstore
    · cases h
  | .binary op left right, h => by
    simp only [expression, bind_eq_ok, pure_eq_ok] at h
    obtain ⟨l, hleft, r, hright, rfl⟩ := h
    exact ((((routed_expression left hleft).append routed_push).append
      (routed_expression right hright)).append (routed_pop (by decide))).append (routed_apply op)
  | .call name args, h => by
    simp only [expression, bind_eq_ok, pure_eq_ok] at h
    obtain ⟨e, hentry, a, hargs, rfl⟩ := h
    exact (routed_arguments args hargs).append (routed_call ⟨name, get?_of_entry hentry⟩)
  | .function .., h | .compound .., h | .branch .., h | .loop .., h | .ret .., h => by cases h

theorem routed_arguments {ops : List Operation} :
    (args : List Node) → arguments env args = .ok ops → Routed target (Callee env) ops
  | [], h => by
    cases h
    exact .nil
  | arg :: rest, h => by
    simp only [arguments, bind_eq_ok, pure_eq_ok] at h
    obtain ⟨r, hrest, a, harg, rfl⟩ := h
    exact ((routed_arguments rest hrest).append (routed_expression arg harg)).append routed_push

end

theorem routed_returned {returns : ReturnType} {value : Option Node} {ops : List Operation}
    (h : returned env returns value = .ok ops) : Routed target (Callee env) ops := by
  cases value with
  | none => cases returns <;> cases h <;> exact .nil
  | some value =>
    cases returns with
    | void =>
      cases h
      exact .nil
    | int | array => exact routed_expression value h

theorem callee_enter (env : Env) (table : Option Table) : Callee (env.enter table) = Callee env := by
  cases table <;> rfl

mutual

/-- The jumps of a statement stay in its code or go right behind it. -/
theorem routed_statement {env : Env} {base : Nat} {ops : List Operation} :
    (node : Node) → statement env base node = .ok ops →
      (∀ t, base ≤ t → t ≤ base + ops.length → target t) → Routed target (Callee env) ops
  | .function .., h, _ => nomatch h
  | .compound table body, h, htarget => by
    rw [← callee_enter env table]
    exact routed_statements body h htarget
  | .branch test thenPart elsePart, h, htarget => by
    simp only [statement, bind_eq_ok, pure_eq_ok] at h
    obtain ⟨t, htest, a, hthen, b, helse, rfl⟩ := h
    simp only [List.length_append, List.length_singleton] at htarget
    have helseBase := htarget (base + t.length + 1 + a.length + 1) (by omega) (by omega)
    have hthen := routed_statement thenPart hthen
      fun t _ _ => htarget t (by omega) (by omega)
    have hfinish :=
      htarget (base + t.length + 1 + a.length + 1 + b.length) (by omega) (by omega)
    have helse := routed_optional elsePart helse
      fun t _ _ => htarget t (by omega) (by omega)
    exact ((((routed_expression test htest).append (routed_jumpIfZero helseBase)).append
      hthen).append (routed_jump hfinish)).append helse
  | .loop test body, h, htarget => by
    simp only [statement, bind_eq_ok, pure_eq_ok] at h
    obtain ⟨t, htest, b, hbody, rfl⟩ := h
    simp only [List.length_append, List.length_singleton] at htarget
    have hfinish := htarget (base + t.length + 1 + b.length + 1) (by omega) (by omega)
    have hbody := routed_statement body hbody
      fun t _ _ => htarget t (by omega) (by omega)
    have hbase := htarget base (by omega) (by omega)
    exact (((routed_expression test htest).append (routed_jumpIfZero hfinish)).append
      hbody).append (routed_jump hbase)
  | .ret returns value, h, _ => by
    simp only [statement, bind_eq_ok, pure_eq_ok] at h
    obtain ⟨v, hvalue, rfl⟩ := h
    exact (routed_returned hvalue).append routed_epilogue
  | .number _, h, _ | .var _, h, _ | .element _ _, h, _ | .assign _ _, h, _
  | .binary _ _ _, h, _ | .call _ _, h, _ => routed_expression _ h

theorem routed_statements {env : Env} {base : Nat} {ops : List Operation} :
    (nodes : List Node) → statements env base nodes = .ok ops →
      (∀ t, base ≤ t → t ≤ base + ops.length → target t) → Routed target (Callee env) ops
  | [], h, _ => by
    cases h
    exact .nil
  | node :: rest, h, htarget => by
    simp only [statements, bind_eq_ok, pure_eq_ok] at h
    obtain ⟨a, hnode, b, hrest, rfl⟩ := h
    rw [List.length_append] at htarget
    have hnode := routed_statement node hnode fun t _ _ => htarget t (by omega) (by omega)
    have hrest := routed_statements rest hrest fun t _ _ => htarget t (by omega) (by omega)
    exact hnode.append hrest

theorem routed_optional {env : Env} {base : Nat} {ops : List Operation} :
    (node : Option Node) → optional env base node = .ok ops →
      (∀ t, base ≤ t → t ≤ base + ops.length → target t) → Routed target (Callee env) ops
  | none, h, _ => by
    cases h
    exact .nil
  | some node, h, htarget => routed_statement node h htarget

end

end Bodies

end Compile

/-- A declared function owns the addresses from its start to the start of the next function, or to
the end of the code. -/
inductive Program.Owns (p : Program) (code : Code) : ReturnType → Nat → Nat → Prop
  | last {before : List Node} {name : String} {returns : ReturnType} {body : Node} {start : Nat} :
      p.declarations = before ++ [.function name returns body] → code.entry? name = some start →
      Owns p code returns start code.size
  | followed {before after : List Node} {name next : String} {returns returns' : ReturnType}
      {body body' : Node} {start stop : Nat} :
      p.declarations = before ++ .function name returns body :: .function next returns' body' :: after →
      code.entry? name = some start → code.entry? next = some stop →
      Owns p code returns start stop

/-- What an instruction at address `a` that writes the counter can be. -/
inductive Program.Transfer (p : Program) (code : Code) (a : Nat) : Operation → Prop
  /-- A jump of a branch or a loop goes no further than to the end of the body. -/
  | branch {returns : ReturnType} {start stop target : Nat} {opcode : Opcode} {r : Register}
      {d : Word} : p.Owns code returns start stop → start ≤ a → a < stop →
      (opcode, r) ∈ [(.jeq, .ax), (.lda, .pc)] → d.toInt = target → start ≤ target →
      target + (Compile.closing returns).length ≤ stop →
      Transfer p code a (.memory opcode r d .zero)
  /-- The second and the fourth instruction of a comparison jump. -/
  | compare {returns : ReturnType} {start stop k : Nat} {opcode : Opcode} {op : Operation} :
      p.Owns code returns start stop → start ≤ k → k + 5 ≤ stop → opcode.isJump = true →
      code.Holds k (Compile.compare opcode) →
      (a, op) ∈ [(k + 1, .memory opcode .ax 2 .pc), (k + 3, .memory .lda .pc 1 .pc)] →
      Transfer p code a op
  /-- The first instruction of a call yields the address of the fifth. -/
  | call {k address : Nat} {name : String} {params : Size} :
      code.entry? name = some address → p.paramCount? name = some params →
      (Word.low address).toInt = address → params.low.toInt = params.toNat →
      code.Holds k (Compile.call ⟨address, params⟩) →
      (∀ m : Machine, (m.get .pc).toInt = k →
        ∃ m', m.step code = .ok (.running m') ∧ (m'.get .ax).toInt = k + 4) →
      a = k + 3 → Transfer p code a (.memory .ldc .pc (Word.low address) .ax)
  | leave {returns : ReturnType} {start stop k : Nat} :
      p.Owns code returns start stop → start ≤ k → k + 4 ≤ stop →
      code.Holds k Compile.epilogue → a = k + 3 →
      Transfer p code a (.memory .ld .pc (-1) .sp)
  | leaveIntrinsic {name : String} {ops : List Operation} {k : Nat} :
      (name, ops) ∈ [("input", Compile.input), ("output", Compile.output)] →
      code.entry? name = some k → code.Holds k ops → a + 1 = k + ops.length →
      Transfer p code a (.memory .ld .pc (-1) .sp)

theorem Machine.step_returnAddress {code : Code} {k : Nat} {e : Entry} {m : Machine}
    (h : code.Holds k (Compile.call e)) (hk : k + 4 < 2147483648) (hpc : (m.get .pc).toInt = k) :
    ∃ m', m.step code = .ok (.running m') ∧ (m'.get .ax).toInt = k + 4 := by
  have hword : m.get .pc = Word.low k := by
    rw [← Word.toInt_low (n := k) (by omega)] at hpc
    exact Word.ext hpc
  have hlow : (Word.low (k + 1)).toInt = (k + 1 : Nat) := Word.toInt_low (by omega)
  have hfits : Word.Fits ((3 : Word).toInt + (Word.low (k + 1)).toInt) := by
    rw [hlow]
    exact ⟨by simp; omega, by simp; omega⟩
  obtain ⟨w, hadd, hw⟩ := Word.add_isOk hfits
  refine ⟨((m.set .pc (Word.low (k + 1))).set .ax w), ?_, ?_⟩
  · rw [step_eq hword (by omega) (h 0 _ rfl)]
    simp only [perform, Operation.memory, runMemory, checked, get_set, if_pos, hadd, mapError_ok,
      ok_bind]
    rfl
  · rw [get_set, if_pos rfl, hw, hlow]
    simp
    omega

/-- From the start of a routine to the end of its body. -/
def Routine.Covers (r : Routine) (t : Nat) : Prop :=
  r.entry.address ≤ t ∧ t + r.closing.length ≤ r.entry.address + r.code.length

namespace Program

open Compile

variable {p : Program} {image : Image} {code : Code}

theorem entry?_of_routine (h : p.compile = .ok image) (hfills : image.Fills code)
    {r : Routine} (hr : r ∈ image.routines) : code.entry? r.name = some r.entry.address := by
  obtain ⟨-, entries, hdecls, -⟩ := compile_eq_ok h
  rw [hfills.entry, image.entry?_eq_get? hdecls]
  obtain ⟨before, after, heq⟩ := List.append_of_mem hr
  rw [heq] at hdecls
  obtain ⟨_, _, _, _, _, _, _, _, hrealizes⟩ := declarations_split hdecls
  rw [hrealizes.entry, Option.map_some]

theorem owns_declaration (h : p.compile = .ok image) (hfills : image.Fills code)
    {before after : List Routine} {r : Routine} (hr : image.routines = before ++ r :: after)
    {earlier later : List Node} {returns : ReturnType} {body : Node}
    (hnodes : p.declarations = earlier ++ .function r.name returns body :: later)
    (hearlier : earlier.length = before.length) :
    p.Owns code returns r.entry.address (r.entry.address + r.code.length) := by
  obtain ⟨-, entries, hdecls, -⟩ := compile_eq_ok h
  have haddress := address_routine h hr
  have hstart := entry?_of_routine h hfills (hr ▸ List.mem_append_right _ List.mem_cons_self)
  have hlater : later.length = after.length := by
    have hlen := length_declarations hdecls
    rw [hnodes, hr, List.length_append, List.length_append, hearlier] at hlen
    simpa using hlen
  cases after with
  | nil =>
    have hstop : r.entry.address + r.code.length = code.size := by
      rw [hfills.size, image.operations_eq, List.length_append, length_front h, hr, haddress]
      simp [Nat.add_assoc]
    rw [List.eq_nil_of_length_eq_zero hlater] at hnodes
    rw [hstop]
    exact .last hnodes hstart
  | cons next after =>
    rw [← List.singleton_append, ← List.append_assoc] at hr
    have hsplit := hdecls
    rw [hr] at hsplit
    obtain ⟨earlier', returns', body', later', hnodes', hearlier', -, haddress', -⟩ :=
      declarations_split hsplit
    have hstop := entry?_of_routine h hfills (hr ▸ List.mem_append_right _ List.mem_cons_self)
    have hnext : later = .function next.name returns' body' :: later' := by
      rw [hnodes, ← List.singleton_append, ← List.append_assoc] at hnodes'
      exact (List.append_inj hnodes' (by simp [hearlier, hearlier'])).2
    have heq : next.entry.address = r.entry.address + r.code.length := by
      rw [haddress', haddress]
      simp [Nat.add_assoc]
    rw [← heq]
    exact .followed (hnext ▸ hnodes) hstart hstop

theorem owns_routine (h : p.compile = .ok image) (hfills : image.Fills code)
    {before after : List Routine} {r : Routine} (hr : image.routines = before ++ r :: after) :
    ∃ entries returns body, Realizes p entries returns body r ∧
      Compile.declarations p intrinsics routinesBase p.declarations =
        .ok (entries, image.routines) ∧
      p.Owns code returns r.entry.address (r.entry.address + r.code.length) := by
  obtain ⟨-, entries, hdecls, -⟩ := compile_eq_ok h
  have hsplit := hdecls
  rw [hr] at hsplit
  obtain ⟨earlier, returns, body, later, hnodes, hearlier, -, -, hrealizes⟩ :=
    declarations_split hsplit
  exact ⟨entries, returns, body, hrealizes, hdecls, owns_declaration h hfills hr hnodes hearlier⟩

theorem exists_routine_of_mem (h : p.compile = .ok image) (hfills : image.Fills code)
    {name : String} {returns : ReturnType} {body : Node}
    (hmem : .function name returns body ∈ p.declarations) :
    ∃ entries before r after, image.routines = before ++ r :: after ∧ r.name = name ∧
      Compile.declarations p intrinsics routinesBase p.declarations =
        .ok (entries, image.routines) ∧
      Realizes p entries returns body r ∧
      p.Owns code returns r.entry.address (r.entry.address + r.code.length) := by
  obtain ⟨-, entries, hdecls, -⟩ := compile_eq_ok h
  obtain ⟨earlier, later, hnodes⟩ := List.append_of_mem hmem
  have hlen := length_declarations hdecls
  rw [hnodes, List.length_append, List.length_cons] at hlen
  have hlt : earlier.length < image.routines.length := by omega
  -- The routine that stands where the declaration stands among the declarations.
  have hr := (List.take_append_drop earlier.length image.routines).symm
  rw [List.drop_eq_getElem_cons hlt] at hr
  have htake : (image.routines.take earlier.length).length = earlier.length := by
    rw [List.length_take]
    omega
  have hsplit := hdecls
  rw [hr] at hsplit
  obtain ⟨earlier', returns', body', later', hnodes', hearlier', -, -, hrealizes⟩ :=
    declarations_split hsplit
  have heq := (List.append_inj (hnodes.symm.trans hnodes') (by rw [hearlier', htake])).2
  cases (List.cons.inj heq).1
  exact ⟨entries, _, _, _, hr, rfl, hdecls, hrealizes,
    owns_declaration h hfills hr hnodes htake.symm⟩

theorem routed_routine {entries : NameMap Entry} {returns : ReturnType} {body : Node} {r : Routine}
    (h : Realizes p entries returns body r) :
    Routed r.Covers (fun e => ∃ name, entries.get? name = some e) r.code := by
  obtain ⟨_, -, -, known, hknown, hbody⟩ := h.params
  refine ((routed_prologue h.opening).append ?_).append ?_
  · refine (routed_statement body hbody ?_).mono fun e ⟨name, he⟩ => ⟨name, hknown name e he⟩
    intro t hlow hhigh
    simp only [Routine.Covers, Routine.code, List.length_append]
    omega
  · rw [h.closing]
    cases returns with
    | void => exact routed_epilogue
    | int | array => exact .nil

theorem paramCount?_lt
    (hparams : ∀ name signature, p.signature? name = some signature →
      signature.paramCount.toNat < 2147483648) {name : String} {count : Size}
    (hcount : p.paramCount? name = some count) : count.toNat < 2147483648 := by
  rw [paramCount?] at hcount
  split at hcount
  · rw [← Option.some.inj hcount]
    decide
  · split at hcount
    · rw [← Option.some.inj hcount]
      decide
    · obtain ⟨signature, hsignature, hcount⟩ := Option.map_eq_some_iff.1 hcount
      rw [← hcount]
      exact hparams name signature hsignature

/-- Before the declared functions, only the call of `main` and the ends of `input` and `output`
write the counter. -/
theorem front_writes (h : p.compile = .ok image) {a : Nat} {op : Operation}
    (hget : image.front[a]? = some op) (hw : op.writesPc = true) :
    a = 6 ∧ op = .memory .ldc .pc (Word.low image.main.address) .ax ∨
      (a = 11 ∨ a = 15) ∧ op = .memory .ld .pc (-1) .sp := by
  obtain ⟨d, hprelude⟩ := prelude_eq h
  rw [Image.front, hprelude] at hget
  have hlt : a < 16 := (List.getElem?_eq_some_iff.1 hget).1
  rcases (by omega : a = 6 ∨ a = 11 ∨ a = 15 ∨ a = 0 ∨ a = 1 ∨ a = 2 ∨ a = 3 ∨ a = 4 ∨ a = 5 ∨
    a = 7 ∨ a = 8 ∨ a = 9 ∨ a = 10 ∨ a = 12 ∨ a = 13 ∨ a = 14) with rfl | rfl | rfl | hquiet
  · cases hget
    exact .inl ⟨rfl, rfl⟩
  · cases hget
    exact .inr ⟨.inl rfl, rfl⟩
  · cases hget
    exact .inr ⟨.inr rfl, rfl⟩
  · rcases hquiet with rfl | rfl | rfl | rfl | rfl | rfl | rfl | rfl | rfl | rfl | rfl | rfl | rfl <;>
    · cases hget
      cases hw

section Bounded

variable (h : p.compile = .ok image) (hfills : image.Fills code) (hsize : code.size < 2147483648)
  (hparams : ∀ name signature, p.signature? name = some signature →
    signature.paramCount.toNat < 2147483648)

include h hfills hsize hparams

theorem transfer_call {entries : NameMap Entry}
    (hdecls : Compile.declarations p intrinsics routinesBase p.declarations =
      .ok (entries, image.routines)) {name : String} {e : Entry}
    (hget : entries.get? name = some e) {k : Nat} (hk : k + 5 ≤ code.size)
    (hcall : code.Holds k (call e)) :
    p.Transfer code (k + 3) (.memory .ldc .pc (Word.low e.address) .ax) := by
  have hentry : code.entry? name = some e.address := by
    rw [hfills.entry, image.entry?_eq_get? hdecls, hget, Option.map_some]
  have hcount := paramCount?_of_entry hdecls hget
  have haddress : e.address < 2147483648 := by
    obtain ⟨-, rfl⟩ | ⟨-, rfl⟩ | ⟨-, -, r, hr, -, rfl⟩ := entry_cases hdecls hget
    · decide
    · decide
    · obtain ⟨before, after, heq⟩ := List.append_of_mem hr
      have := stop_le_size h hfills heq
      omega
  have hlow := paramCount?_lt hparams hcount
  exact .call hentry hcount (Word.toInt_low haddress) (Size.toInt_low hlow) hcall
    (fun m hpc => Machine.step_returnAddress hcall (by omega) hpc) rfl

/-- The role of an operation in its routine says what it is in the whole code. -/
theorem transfer_of_role {before after : List Routine} {r : Routine}
    (hr : image.routines = before ++ r :: after) {j : Nat} {op : Operation}
    (hget : r.code[j]? = some op) (hw : op.writesPc = true) :
    p.Transfer code (r.entry.address + j) op := by
  obtain ⟨entries, returns, body, hrealizes, hdecls, howns⟩ := owns_routine h hfills hr
  have hholds := holds_routine h hfills hr
  have hstop := stop_le_size h hfills hr
  have hj := (List.getElem?_eq_some_iff.1 hget).1
  have hpart {k : Nat} {part : List Operation} (hs : Stands r.code k part) :
      code.Holds (r.entry.address + k) part := by
    intro i op hi
    rw [Nat.add_assoc]
    exact hholds (k + i) op (hs.getElem? hi)
  have htarget {t : Nat} (ht : r.Covers t) : (Word.low t).toInt = t ∧ r.entry.address ≤ t ∧
      t + (closing returns).length ≤ r.entry.address + r.code.length := by
    rw [Routine.Covers, hrealizes.closing] at ht
    exact ⟨Word.toInt_low (by omega), ht⟩
  cases routed_routine hrealizes j op hget hw with
  | jumpIfZero ht =>
    obtain ⟨hlow, hstart, hend⟩ := htarget ht
    exact .branch howns (by omega) (by omega) (by simp) hlow hstart hend
  | jump ht =>
    obtain ⟨hlow, hstart, hend⟩ := htarget ht
    exact .branch howns (by omega) (by omega) (by simp) hlow hstart hend
  | @test k opcode hop hs hi =>
    have hle : k + 5 ≤ r.code.length := hs.length_le
    exact .compare howns (by omega) (by omega) hop (hpart hs) (by simp; omega)
  | @pass k opcode hop hs hi =>
    have hle : k + 5 ≤ r.code.length := hs.length_le
    exact .compare howns (by omega) (by omega) hop (hpart hs) (by simp; omega)
  | @call k e he hs hi =>
    obtain ⟨name, he⟩ := he
    have hle : k + 5 ≤ r.code.length := hs.length_le
    rw [hi, ← Nat.add_assoc]
    exact transfer_call h hfills hsize hparams hdecls he (by omega) (hpart hs)
  | @leave k hs hi =>
    have hle : k + 4 ≤ r.code.length := hs.length_le
    exact .leave howns (by omega) (by omega) (hpart hs) (by omega)

theorem transfer_front {a : Nat} {op : Operation} (hget : image.front[a]? = some op)
    (hw : op.writesPc = true) : p.Transfer code a op := by
  obtain ⟨-, entries, hdecls, hmain⟩ := compile_eq_ok h
  obtain ⟨-, hcall, -, hinput, houtput⟩ := holds_front h hfills
  have hle : routinesBase ≤ code.size := by
    rw [hfills.size, image.operations_eq, List.length_append, length_front h]
    exact Nat.le_add_right ..
  rcases front_writes h hget hw with ⟨rfl, rfl⟩ | ⟨rfl | rfl, rfl⟩
  · exact transfer_call h hfills hsize hparams hdecls (get?_of_entry hmain)
      (Nat.le_trans (by decide) hle) hcall
  · exact .leaveIntrinsic List.mem_cons_self (hfills.entry "input") hinput rfl
  · exact .leaveIntrinsic (List.mem_cons_of_mem _ List.mem_cons_self) (hfills.entry "output")
      houtput rfl

end Bounded

/-- Every control transfer is well-targeted. An instruction that cannot write the counter hands
control to the next address; every other one is a transfer of one of the known kinds. -/
theorem transfer_of_generate {p : Program} {trace : Bool} {code : Code}
    (h : p.generate trace = .ok code) (hsize : code.size < 2147483648)
    (hparams : ∀ name signature, p.signature? name = some signature →
      signature.paramCount.toNat < 2147483648)
    (a : Nat) (i : Instruction) (hget : code.get? a = some i) :
    (i.writesPc = false → ∀ m m' : Machine, (m.get .pc).toInt = a →
      m.step code = .ok (.running m') → (m'.get .pc).toInt = a + 1) ∧
    (i.writesPc = true → p.Transfer code a i.toOperation) := by
  refine ⟨fun hquiet m m' hpc hstep => Machine.step_pc hstep hpc hget hquiet, fun hw => ?_⟩
  have hfollows := p.generate_follows trace
  rw [h] at hfollows
  obtain ⟨image, hcompile, hfills⟩ := hfollows
  have hop : image.operations[a]? = some i.toOperation := by
    apply hfills.getElem?_of_get?
    rw [hget, Option.map_some]
  rw [image.operations_eq, List.getElem?_append] at hop
  split at hop
  · exact transfer_front hcompile hfills hsize hparams hop hw
  · next hlow =>
    obtain ⟨before, r, after, j, hr, hj, hcode⟩ := exists_routine hop
    have ha : a = r.entry.address + j := by
      rw [length_front hcompile] at hj hlow
      rw [address_routine hcompile hr]
      omega
    rw [ha]
    exact transfer_of_role hcompile hfills hsize hparams hr hcode hw

theorem countdown_transfer :
    ∃ code, countdown.generate false = .ok code ∧ code.size < 2147483648 ∧
      (∀ name signature, countdown.signature? name = some signature →
        signature.paramCount.toNat < 2147483648) ∧
      countdown.Transfer code 43 (.memory .jeq .ax 96 .zero) := by
  obtain ⟨code, h⟩ := countdown_isOk false
  have hrun : (countdown.generate false).toOption.map
      (fun code => (decide (code.size < 2147483648), (code.get? 43).map (·.toOperation))) =
        some (true, some (.memory .jeq .ax 96 .zero)) := by decide +kernel
  rw [h, Except.toOption, Option.map_some, Option.some.injEq, Prod.mk.injEq] at hrun
  obtain ⟨hsize, hget⟩ := hrun
  have hsize := of_decide_eq_true hsize
  obtain ⟨i, hi, hop⟩ := Option.map_eq_some_iff.1 hget
  refine ⟨code, h, hsize, countdown_params, ?_⟩
  rw [← hop]
  exact (transfer_of_generate h hsize countdown_params 43 i hi).2 (by rw [hop]; rfl)

end Program

end CMinus
