import CMinus.Proofs.Compile
import CMinus.Proofs.Stream

namespace CMinus

/-- `r` is `s` with the code `c` added, or it fails where `c` fails. Only skipping can fail on its
own account, when the code gets longer than the range of addresses; `n` bounds that length. -/
def Stream.Follows (s : Stream) (n : Nat) (r : Except Failure Stream)
    (c : Except Failure (List Operation)) : Prop :=
  match r with
  | .ok s' => ∃ ops, c = .ok ops ∧ s.Appends s' (ops.map some)
  | .error e => c = .error e ∨ e = .ofOverflow .add ∧ Size.limit ≤ s.cursor + n

namespace Stream.Appends

variable {s s' : Stream} {pre : List (Option Operation)} {k n : Nat}

theorem follows {ops : List Operation} (h : s.Appends s' (ops.map some)) :
    s.Follows k (.ok s') (.ok ops) :=
  ⟨ops, rfl, h⟩

theorem andThen {r : Except Failure Stream} {c : Except Failure (List Operation)}
    {f : Stream → Except Failure Stream} {g : List Operation → Except Failure (List Operation)}
    (h : s.Appends s' pre) (hr : s'.Follows n r c) (hk : pre.length + n ≤ k)
    (next : ∀ s'' ops, c = .ok ops → s.Appends s'' (pre ++ ops.map some) →
      s.Follows k (f s'') (g ops)) :
    s.Follows k (r >>= f) (c >>= g) := by
  cases r with
  | ok s'' =>
    obtain ⟨ops, rfl, happ⟩ := hr
    exact next s'' ops rfl (h.trans happ)
  | error e =>
    rcases hr with rfl | ⟨rfl, hlimit⟩
    · exact .inl rfl
    · refine .inr ⟨rfl, ?_⟩
      rw [h.cursor] at hlimit
      omega

theorem andWrite {lines : List Line} {f : Stream → Except Failure Stream}
    {c : Except Failure (List Operation)} (h : s.Appends s' pre) (hs : s.AtEnd)
    (hl : ∀ line ∈ lines, Proper line)
    (next : ∀ s'', s.Appends s'' (pre ++ filled lines) → s.Follows k (f s'') c) :
    s.Follows k (s'.write lines >>= f) c := by
  obtain ⟨s'', hwrite, happ⟩ := h.write hs lines hl
  rw [hwrite]
  exact next s'' happ

theorem andSkip {f : Stream → Except Failure Stream} {c : Except Failure (List Operation)}
    (h : s.Appends s' pre) (hs : s.AtEnd) (hk : pre.length + 1 ≤ k)
    (next : ∀ s'', s.Appends s'' (pre ++ [none]) → s.Follows k (f s'') c) :
    s.Follows k (s'.skip 1 >>= f) c := by
  by_cases hfit : s'.cursor + 1 < Size.limit
  · obtain ⟨s'', hskip, happ⟩ := h.skip hs 1 hfit
    rw [hskip]
    exact next s'' happ
  · have hskip : s'.skip 1 = .error (.ofOverflow .add) := by
      rw [Stream.skip, reserve, if_neg hfit]
      rfl
    rw [hskip]
    refine .inr ⟨rfl, ?_⟩
    have := h.cursor
    omega

/-- A skipped slot is filled with one line. -/
theorem andPatch {post : List (Option Operation)} {line : Line}
    {f : Stream → Except Failure Stream} {c : Except Failure (List Operation)} {address : Nat}
    (h : s.Appends s' (pre ++ [none] ++ post)) (hs : s.AtEnd) (hl : Proper line)
    (ha : address = s.cursor + pre.length)
    (next : ∀ s'', s.Appends s'' (pre ++ [some line.toOperation] ++ post) →
      s.Follows k (f s'') c) :
    s.Follows k (s'.patch address [line] >>= f) c := by
  obtain ⟨s'', hpatch, happ⟩ := h.patch hs [line] (by simpa using hl) rfl
  rw [ha, hpatch]
  exact next s'' happ

end Stream.Appends

namespace Compile

open CMinus.Stream (filled Proper)

@[simp]
theorem filled_push (r : Register) (remark : String) :
    filled (Sequence.push r remark) = (push r).map some := rfl

@[simp]
theorem filled_pop (r : Register) (remark : String) :
    filled (Sequence.pop r remark) = (pop r).map some := rfl

@[simp]
theorem filled_epilogue : filled Sequence.epilogue = epilogue.map some := rfl

@[simp]
theorem filled_call (address : Nat) (params : Size) :
    filled (Sequence.call address params) = (call ⟨address, params⟩).map some := rfl

@[simp]
theorem filled_apply (op : BinaryOp) :
    filled (Sequence.apply op) = (apply op).map some := by
  cases op <;> rfl

@[simp]
theorem filled_load (v : Variable) :
    filled (Sequence.load v) = (loadVariable v .value).map some := by
  cases h : v.ty <;> simp only [Sequence.load, loadVariable, h] <;> rfl

@[simp]
theorem filled_append (a b : List Line) : filled (a ++ b) = filled a ++ filled b :=
  List.map_append

@[simp]
theorem filled_cons (line : Line) (rest : List Line) :
    filled (line :: rest) = some line.toOperation :: filled rest := rfl

@[simp]
theorem filled_nil : filled [] = [] := rfl

@[simp]
theorem toOperation_memory (opcode : Opcode) (r : Register) (d : Word) (s : Register)
    (remark : String) :
    (Line.memory opcode r d s remark).toOperation = .memory opcode r d s := rfl

@[simp]
theorem toOperation_registers (opcode : Opcode) (r s t : Register) (remark : String) :
    (Line.registers opcode r s t remark).toOperation = .registers opcode r s t := rfl

theorem proper_push (r : Register) (remark : String) :
    ∀ line ∈ Sequence.push r remark, Proper line := by
  simp [Sequence.push, Proper, Line.memory, Opcode.form, Operands.form]

theorem proper_pop (r : Register) (remark : String) :
    ∀ line ∈ Sequence.pop r remark, Proper line := by
  simp [Sequence.pop, Proper, Line.memory, Opcode.form, Operands.form]

theorem proper_memory {opcode : Opcode} (h : opcode.form = .registerMemory) (r : Register)
    (d : Word) (s : Register) (remark : String) : Proper (.memory opcode r d s remark) := h

theorem proper_registers {opcode : Opcode} (h : opcode.form = .registerOnly) (r s t : Register)
    (remark : String) : Proper (.registers opcode r s t remark) := h

theorem proper_epilogue : ∀ line ∈ Sequence.epilogue, Proper line := by
  decide

theorem proper_call (address : Nat) (params : Size) :
    ∀ line ∈ Sequence.call address params, Proper line := by
  simp [Sequence.call, Sequence.push, Proper, Line.memory, Opcode.form, Operands.form]

theorem proper_apply (op : BinaryOp) : ∀ line ∈ Sequence.apply op, Proper line := by
  cases op <;> decide

theorem proper_load (v : Variable) : ∀ line ∈ Sequence.load v, Proper line := by
  rw [Sequence.load]
  split <;> decide

theorem form_locate {v : Variable} {location : Location} (h : v.locate = .ok location) :
    location.opcode.form = .registerMemory := by
  rw [Variable.locate] at h
  split at h <;> simp only [bind_eq_ok, pure_eq_ok, Except.ok.injEq] at h
  case h_2 | h_4 => cases h; rfl
  all_goals
    obtain ⟨_, _, rfl⟩ := h
    rfl

end Compile

namespace Generate

open Compile

theorem address_follows (env : Env) (name : String) {s : Stream} (hs : s.AtEnd) :
    (∃ e, address env name s = .error e ∧ place env name = .error e) ∨
      ∃ v s' ops, address env name s = .ok (v, s') ∧ place env name = .ok (v, ops) ∧
        s.Appends s' (ops.map some) := by
  rw [address, place]
  cases env.resolve name with
  | error e => exact .inl ⟨e, rfl, rfl⟩
  | ok v =>
    simp only [ok_bind, Sequence.address, Compile.address]
    cases h : v.locate with
    | error e => exact .inl ⟨_, rfl, rfl⟩
    | ok location =>
      obtain ⟨s', hwrite, happ⟩ := (Stream.Appends.refl s).write hs
        [.memory location.opcode .bx location.displacement location.base (Sequence.describe v)]
        (by simpa using proper_memory (form_locate h) ..)
      refine .inr ⟨v, s', [.memory location.opcode .bx location.displacement location.base],
        ?_, rfl, happ⟩
      change (s.write _ >>= _) = _
      rw [hwrite]
      rfl

mutual

theorem expression_follows (env : Env) (access : Access) {s : Stream} (hs : s.AtEnd) :
    (node : Node) →
      s.Follows (11 * node.count) (expression env access node s)
        (Compile.expression env access node)
  | .number value => by
    rw [expression, Compile.expression, ← bind_pure (s.write _)]
    refine (Stream.Appends.refl s).andWrite hs (by simpa using proper_memory rfl ..) ?_
    intro s' happ
    exact happ.follows
  | .var name => by
    rw [expression, Compile.expression]
    rcases address_follows env name hs with ⟨e, hg, hc⟩ | ⟨v, s', ops, hg, hc, happ⟩
    · rw [hg, hc]
      exact .inl rfl
    · rw [hg, hc]
      cases access with
      | value =>
        change s.Follows _ (s'.write (Sequence.load v)) (.ok (ops ++ loadVariable v .value))
        rw [← bind_pure (s'.write _)]
        refine happ.andWrite hs (proper_load v) ?_
        intro s'' happ
        exact Stream.Appends.follows (by simpa using happ)
      | address => exact Stream.Appends.follows (by simpa [loadVariable] using happ)
  | .element name index => by
    rw [expression, Compile.expression]
    have hstart := (Stream.Appends.refl s).comment "-> array element"
    rcases address_follows env name (hstart.atEnd hs) with
      ⟨e, hg, hc⟩ | ⟨v, s₁, ops, hg, hc, happ⟩
    · rw [hg, hc]
      exact .inl rfl
    · rw [hg, hc, ok_bind, ok_bind]
      have hops := length_place hc
      refine (hstart.trans happ).andWrite hs (proper_push _ _) ?_
      intro s₂ happ
      refine happ.andThen (expression_follows env .value (happ.atEnd hs) index)
        (by simp [Node.count, push, hops]; omega) ?_
      intro s₃ i hi happ
      refine happ.andWrite hs ?_ ?_
      · simpa [or_imp, forall_and] using ⟨proper_pop .bx "recover array address",
          proper_registers rfl .bx .bx .ax "get address of array element"⟩
      · intro s₄ happ
        cases access with
        | value =>
          refine happ.andWrite hs (by simpa using proper_memory rfl ..) ?_
          intro s₅ happ
          exact Stream.Appends.follows (by simpa [loadElement] using happ.comment "<- array element")
        | address =>
          exact Stream.Appends.follows (by simpa [loadElement] using happ.comment "<- array element")
  | .assign target value => by
    rw [expression, Compile.expression]
    split
    · have hstart := (Stream.Appends.refl s).comment "-> assign"
      refine hstart.andThen (expression_follows env .address (hstart.atEnd hs) target)
        (by simp [Node.count]; omega) ?_
      intro s₁ t ht happ
      refine happ.andWrite hs (proper_push _ _) ?_
      intro s₂ happ
      have := length_expression target ht
      refine happ.andThen (expression_follows env .value (happ.atEnd hs) value)
        (by simp [Node.count, push]; omega) ?_
      intro s₃ v hv happ
      refine happ.andWrite hs ?_ ?_
      · simpa [or_imp, forall_and] using ⟨proper_pop .bx "recover bx",
          proper_memory (show Opcode.st.form = _ from rfl) .ax 0 .bx "assign: store"⟩
      · intro s₄ happ
        exact Stream.Appends.follows (by simpa using happ.comment "<- assign")
    · exact .inl rfl
  | .binary op left right => by
    rw [expression, Compile.expression]
    have hstart := (Stream.Appends.refl s).comment "-> op"
    refine hstart.andThen (expression_follows env .value (hstart.atEnd hs) left)
      (by simp [Node.count]; omega) ?_
    intro s₁ l hl happ
    refine happ.andWrite hs (proper_push _ _) ?_
    intro s₂ happ
    have := length_expression left hl
    refine happ.andThen (expression_follows env .value (happ.atEnd hs) right)
      (by simp [Node.count, push]; omega) ?_
    intro s₃ r hr happ
    refine happ.andWrite hs ?_ ?_
    · simpa [or_imp, forall_and] using ⟨proper_pop .bx "op: recover left", proper_apply op⟩
    · intro s₄ happ
      exact Stream.Appends.follows (by simpa using happ.comment "<- op")
  | .call name args => by
    rw [expression, Compile.expression]
    cases env.entry name with
    | error e => exact .inl rfl
    | ok entry =>
      have hstart := (Stream.Appends.refl s).comment "-> call"
      refine hstart.andThen (arguments_follows env (hstart.atEnd hs) args)
        (by simp only [List.length_nil, Node.count]; omega) ?_
      intro s₁ a ha happ
      refine happ.andWrite hs (proper_call _ _) ?_
      intro s₂ happ
      exact Stream.Appends.follows (by simpa using happ.comment "<- call")
  | .function .. | .compound .. | .branch .. | .loop .. | .ret .. => .inl rfl

theorem arguments_follows (env : Env) {s : Stream} (hs : s.AtEnd) :
    (args : List Node) →
      s.Follows (11 * Node.countAll args) (arguments env args s) (Compile.arguments env args)
  | [] => (Stream.Appends.refl s).follows
  | arg :: rest => by
    rw [arguments, Compile.arguments]
    have hstart := Stream.Appends.refl s
    refine hstart.andThen (arguments_follows env hs rest)
      (by simp only [List.length_nil, Node.countAll]; omega) ?_
    intro s₁ r hr happ
    have := length_arguments rest hr
    refine happ.andThen (expression_follows env .value (happ.atEnd hs) arg)
      (by simp [Node.countAll]; omega) ?_
    intro s₂ a ha happ
    rw [← bind_pure (s₂.write _)]
    refine happ.andWrite hs (proper_push _ _) ?_
    intro s₃ happ
    exact Stream.Appends.follows (by simpa using happ)

end

theorem epilogue_follows {s s' : Stream} {k : Nat} (hs : s.AtEnd) (ops : List Operation)
    (happ : s.Appends s' (ops.map some)) :
    s.Follows k (s'.write Sequence.epilogue >>= fun s => pure (s.comment "<- return"))
      (.ok (ops ++ epilogue)) := by
  refine happ.andWrite hs proper_epilogue ?_
  intro s'' happ
  exact Stream.Appends.follows (by simpa using happ.comment "<- return")

theorem return_follows (env : Env) {s : Stream} (hs : s.AtEnd) (returns : ReturnType)
    (value : Option Node) :
    s.Follows (11 * (Node.ret returns value).count) (statement env (.ret returns value) s)
      (Compile.statement env s.cursor (.ret returns value)) := by
  have hstart := (Stream.Appends.refl s).comment "-> return"
  cases returns with
  | void =>
    simp only [statement, Compile.statement, returned, pure_bind, ok_bind]
    exact epilogue_follows hs [] hstart
  | int | array =>
    cases value with
    | none =>
      simp only [statement, Compile.statement, returned, pure_bind, ok_bind]
      exact epilogue_follows hs [] hstart
    | some value =>
      simp only [statement, Compile.statement, returned]
      refine hstart.andThen (expression_follows env .value (hstart.atEnd hs) value)
        (by simp only [List.length_nil, Node.count, Node.countOptional]; omega) ?_
      intro s₁ v hv happ
      exact epilogue_follows hs v happ

mutual

theorem statement_follows (env : Env) {s : Stream} (hs : s.AtEnd) :
    (node : Node) →
      s.Follows (11 * node.count) (statement env node s) (Compile.statement env s.cursor node)
  | .function .. => .inl rfl
  | .compound table body => by
    rw [statement, Compile.statement, ← bind_pure (Compile.statements ..)]
    have hstart := (Stream.Appends.refl s).comment "-> compound"
    have hbody := statements_follows (env.enter table) (hstart.atEnd hs) body
    rw [hstart.cursor] at hbody
    refine hstart.andThen hbody (by simp only [List.length_nil, Node.count]; omega) ?_
    intro s₁ b hb happ
    exact Stream.Appends.follows (by simpa using happ.comment "<- compound")
  | .branch test thenPart elsePart => by
    rw [statement, Compile.statement]
    have hstart := (Stream.Appends.refl s).comment "-> if"
    refine hstart.andThen (expression_follows env .value (hstart.atEnd hs) test)
      (by simp [Node.count]; omega) ?_
    intro s₁ t ht happ₁
    have := length_expression test ht
    refine happ₁.andSkip hs (by simp [Node.count]; omega) ?_
    intro s₂ happ₂
    have happ₂ := happ₂.comment "jump to else"
    have hthen := statement_follows env (happ₂.atEnd hs) thenPart
    have hthenBase : (s₂.comment "jump to else").cursor = s.cursor + t.length + 1 := by
      have := happ₂.cursor
      simp at this ⊢
      omega
    rw [hthenBase] at hthen
    refine happ₂.andThen hthen (by simp [Node.count]; omega) ?_
    intro s₃ a ha happ₃
    have := length_statement thenPart ha
    refine happ₃.andSkip hs (by simp [Node.count]; omega) ?_
    intro s₄ happ₄
    have happ₄ := happ₄.comment "jump to end"
    have helseBase : (s₄.comment "jump to end").cursor =
        s.cursor + t.length + 1 + a.length + 1 := by
      have := happ₄.cursor
      simp at this ⊢
      omega
    rw [List.nil_append, List.append_assoc] at happ₄
    refine happ₄.andPatch hs (proper_memory rfl ..) (by simp [happ₁.cursor]) ?_
    intro s₅ happ₅
    have helse := optional_follows env (happ₅.atEnd hs) elsePart
    have hcursor : s₅.cursor = s.cursor + t.length + 1 + a.length + 1 := by
      have := happ₅.cursor
      simp at this ⊢
      omega
    rw [hcursor] at helse
    rw [helseBase, toOperation_memory] at happ₅
    refine happ₅.andThen helse (by simp [Node.count]; omega) ?_
    intro s₆ b hb happ₆
    have hfinish : s₆.cursor = s.cursor + t.length + 1 + a.length + 1 + b.length := by
      have := happ₆.cursor
      simp at this ⊢
      omega
    rw [← List.append_assoc _ (a.map some)] at happ₆
    refine happ₆.andPatch hs (proper_memory rfl ..) (by simp [happ₃.cursor]) ?_
    intro s₇ happ₇
    rw [hfinish, toOperation_memory] at happ₇
    exact Stream.Appends.follows (by simpa [jumpIfZero, jump] using happ₇.comment "<- if")
  | .loop test body => by
    rw [statement, Compile.statement]
    have hstart := ((Stream.Appends.refl s).comment "-> while").comment "jump here after body"
    refine hstart.andThen (expression_follows env .value (hstart.atEnd hs) test)
      (by simp [Node.count]; omega) ?_
    intro s₁ t ht happ₁
    have := length_expression test ht
    refine happ₁.andSkip hs (by simp [Node.count]; omega) ?_
    intro s₂ happ₂
    have happ₂ := happ₂.comment "jump to end if test fails"
    have hbody := statement_follows env (happ₂.atEnd hs) body
    have hbodyBase : (s₂.comment "jump to end if test fails").cursor =
        s.cursor + t.length + 1 := by
      have := happ₂.cursor
      simp at this ⊢
      omega
    rw [hbodyBase] at hbody
    refine happ₂.andThen hbody (by simp [Node.count]; omega) ?_
    intro s₃ b hb happ₃
    refine happ₃.andWrite hs (by simpa using proper_memory rfl ..) ?_
    intro s₄ happ₄
    have hfinish : s₄.cursor = s.cursor + t.length + 1 + b.length + 1 := by
      have := happ₄.cursor
      simp at this ⊢
      omega
    rw [List.nil_append, List.append_assoc] at happ₄
    refine happ₄.andPatch hs (proper_memory rfl ..) (by simp [happ₁.cursor]) ?_
    intro s₅ happ₅
    rw [hfinish, toOperation_memory] at happ₅
    exact Stream.Appends.follows (by simpa [jumpIfZero, jump] using happ₅.comment "<- while")
  | .ret returns value => return_follows env hs returns value
  | .number value => expression_follows env .value hs (.number value)
  | .var name => expression_follows env .value hs (.var name)
  | .element name index => expression_follows env .value hs (.element name index)
  | .assign target value => expression_follows env .value hs (.assign target value)
  | .binary op left right => expression_follows env .value hs (.binary op left right)
  | .call name args => expression_follows env .value hs (.call name args)

theorem statements_follows (env : Env) {s : Stream} (hs : s.AtEnd) :
    (nodes : List Node) →
      s.Follows (11 * Node.countAll nodes) (statements env nodes s)
        (Compile.statements env s.cursor nodes)
  | [] => (Stream.Appends.refl s).follows
  | node :: rest => by
    rw [statements, Compile.statements]
    have hstart := Stream.Appends.refl s
    refine hstart.andThen (statement_follows env hs node)
      (by simp only [List.length_nil, Node.countAll]; omega) ?_
    intro s₁ a ha happ
    have := length_statement node ha
    have hrest := statements_follows env (happ.atEnd hs) rest
    rw [happ.cursor, List.nil_append, List.length_map] at hrest
    rw [← bind_pure (statements env rest _)]
    refine happ.andThen hrest (by simp [Node.countAll]; omega) ?_
    intro s₂ b hb happ
    exact Stream.Appends.follows (by simpa using happ)

theorem optional_follows (env : Env) {s : Stream} (hs : s.AtEnd) :
    (node : Option Node) →
      s.Follows (11 * Node.countOptional node) (optional env node s)
        (Compile.optional env s.cursor node)
  | none => (Stream.Appends.refl s).follows
  | some node => statement_follows env hs node

end

end Generate

end CMinus
