import CMinus.Proofs.Climb

namespace CMinus

namespace Compile

/-- A place in code where the frame is empty, between two pieces. -/
def Cut (ops : List Operation) (j : Nat) : Prop :=
  ∃ before after, ops = before ++ after ∧ before.length = j ∧ Level before

namespace Cut

variable {ops ops' : List Operation} {j : Nat}

theorem zero (ops : List Operation) : Cut ops 0 :=
  ⟨[], ops, rfl, rfl, .nil⟩

theorem finish (h : Level ops) : Cut ops ops.length :=
  ⟨ops, [], by simp, rfl, h⟩

theorem left (h : Cut ops j) (ops' : List Operation) : Cut (ops ++ ops') j := by
  obtain ⟨before, after, rfl, hlen, hlevel⟩ := h
  exact ⟨before, after ++ ops', by simp, hlen, hlevel⟩

theorem right (hops : Level ops) (h : Cut ops' j) : Cut (ops ++ ops') (ops.length + j) := by
  obtain ⟨before, after, rfl, rfl, hlevel⟩ := h
  exact ⟨ops ++ before, after, by simp, by simp, hops.append hlevel⟩

theorem le_length (h : Cut ops j) : j ≤ ops.length := by
  obtain ⟨before, after, rfl, rfl, _⟩ := h
  simp

theorem climbs_take (h : Cut ops j) : climbs (ops.take j) = 0 := by
  obtain ⟨before, after, rfl, rfl, hlevel⟩ := h
  rw [List.take_left, ← Int.zero_add (climbs before), hlevel.moves.total]

end Cut

theorem Plain.ne_dropFrame {op : Operation} (h : Plain op) : op ≠ dropFrame := by
  intro heq
  cases h <;> cases heq

theorem Plain.base_ne_zero {op : Operation} (h : Plain op) {opcode : Opcode} {r : Register}
    {d : Word} : op ≠ .memory opcode r d .zero := by
  intro heq
  cases h with
  | place _ hbase =>
    cases heq
    simp at hbase
  | _ => cases heq

/-- Jumps between statements leave from cuts, for `target` addresses, and epilogues start at
cuts. -/
structure Steady (target : Nat → Prop) (ops : List Operation) : Prop where
  jumps : ∀ i opcode r d, ops[i]? = some (.memory opcode r d .zero) →
    Cut ops i ∧ ∃ t, target t ∧ d = Word.low t
  leaves : ∀ i, ops[i]? = some dropFrame → Cut ops i

section Steady

variable {target : Nat → Prop} {ops ops' : List Operation}

theorem Steady.append (h : Steady target ops) (hops : Level ops) (h' : Steady target ops') :
    Steady target (ops ++ ops') := by
  constructor
  · intro i opcode r d hget
    rw [List.getElem?_append] at hget
    split at hget
    · obtain ⟨hcut, ht⟩ := h.jumps i opcode r d hget
      exact ⟨hcut.left ops', ht⟩
    · next hi =>
      obtain ⟨hcut, ht⟩ := h'.jumps _ opcode r d hget
      have := hcut.right hops
      rw [Nat.add_sub_cancel' (Nat.le_of_not_lt hi)] at this
      exact ⟨this, ht⟩
  · intro i hget
    rw [List.getElem?_append] at hget
    split at hget
    · exact (h.leaves i hget).left ops'
    · next hi =>
      have := (h'.leaves _ hget).right hops
      rwa [Nat.add_sub_cancel' (Nat.le_of_not_lt hi)] at this

theorem Steady.nil : Steady target [] :=
  ⟨fun _ _ _ _ hget => (nomatch hget), fun _ hget => (nomatch hget)⟩

theorem Steady.of_assembled (h : Assembled ExpressionPiece ops) : Steady target ops := by
  have hplain := h.forall_mem fun _ => plain_of_piece
  constructor
  · intro i opcode r d hget
    exact absurd rfl (hplain _ (List.mem_of_getElem? hget)).base_ne_zero
  · intro i hget
    exact absurd rfl (hplain _ (List.mem_of_getElem? hget)).ne_dropFrame

theorem Steady.single {op : Operation} (hdrop : op ≠ dropFrame)
    (h : ∀ opcode r d, op = .memory opcode r d .zero → ∃ t, target t ∧ d = Word.low t) :
    Steady target [op] := by
  constructor
  · intro i opcode r d hget
    obtain ⟨hi, heq⟩ := List.getElem?_eq_some_iff.1 hget
    rw [List.getElem_singleton] at heq
    rw [List.length_singleton, Nat.lt_one_iff] at hi
    rw [hi]
    exact ⟨.zero _, h opcode r d heq⟩
  · intro i hget
    obtain ⟨_, heq⟩ := List.getElem?_eq_some_iff.1 hget
    rw [List.getElem_singleton] at heq
    exact absurd heq hdrop

theorem steady_jumpIfZero {t : Nat} (h : target t) : Steady target [jumpIfZero t] := by
  refine .single (by simp [jumpIfZero, dropFrame, Operation.memory]) ?_
  intro opcode r d heq
  cases heq
  exact ⟨t, h, rfl⟩

theorem steady_jump {t : Nat} (h : target t) : Steady target [jump t] := by
  refine .single (by simp [jump, dropFrame, Operation.memory]) ?_
  intro opcode r d heq
  cases heq
  exact ⟨t, h, rfl⟩

theorem steady_epilogue : Steady target epilogue := by
  constructor
  · intro i opcode r d hget
    have hmem := List.mem_of_getElem? hget
    simp [epilogue, Operation.memory] at hmem
  · intro i hget
    match i, hget with
    | 0, _ => exact .zero _
    | 1, hget | 2, hget | 3, hget => cases hget

theorem steady_returned {env : Env} {returns : ReturnType} {value : Option Node}
    (h : returned env returns value = .ok ops) : Steady target ops := by
  cases value with
  | none => cases returns <;> cases h <;> exact .nil
  | some value =>
    cases returns with
    | void =>
      cases h
      exact .nil
    | int | array => exact .of_assembled (assembled_expression value h)

mutual

/-- The jumps of a statement go to places in it where the frame is empty. -/
theorem steady_statement {env : Env} {base : Nat} {ops : List Operation} :
    (node : Node) → env.Fits node.calls → statement env base node = .ok ops →
      (∀ j, Cut ops j → target (base + j)) → Steady target ops
  | .function .., _, h, _ => nomatch h
  | .compound table body, hfit, h, htarget => steady_statements body (hfit.enter table) h htarget
  | .branch test thenPart elsePart, hfit, h, htarget => by
    simp only [statement, bind_eq_ok, pure_eq_ok] at h
    obtain ⟨t, htest, a, hthen, b, helse, rfl⟩ := h
    have hthere {j k : Nat} (hcut : Cut _ j) (hk : base + j = k) : target k :=
      hk ▸ htarget j hcut
    have hlevelTest := Level.expression hfit.left.left htest
    have hlevelThen := level_statement thenPart hfit.left.right hthen
    have hlevelElse := level_optional elsePart hfit.right helse
    have hlevelSkip := hlevelTest.append (.jumpIfZero (base + t.length + 1 + a.length + 1))
    have hlevelJump := (hlevelSkip.append hlevelThen).append
      (.jump (base + t.length + 1 + a.length + 1 + b.length))
    have hthen := steady_statement thenPart hfit.left.right hthen fun j hcut =>
      hthere (((hcut.right hlevelSkip).left _).left _) (by simp; omega)
    have helseBase := hthere ((Cut.zero b).right hlevelJump)
      (k := base + t.length + 1 + a.length + 1) (by simp; omega)
    have hfinish := hthere ((Cut.finish hlevelElse).right hlevelJump)
      (k := base + t.length + 1 + a.length + 1 + b.length) (by simp; omega)
    have helse := steady_optional elsePart hfit.right helse fun j hcut =>
      hthere (hcut.right hlevelJump) (by simp; omega)
    have htest : Steady target t := .of_assembled (assembled_expression test htest)
    have hskip := htest.append hlevelTest (steady_jumpIfZero helseBase)
    have hjump := (hskip.append hlevelSkip hthen).append (hlevelSkip.append hlevelThen)
      (steady_jump hfinish)
    exact hjump.append hlevelJump helse
  | .loop test body, hfit, h, htarget => by
    simp only [statement, bind_eq_ok, pure_eq_ok] at h
    obtain ⟨t, htest, b, hbody, rfl⟩ := h
    have hthere {j k : Nat} (hcut : Cut _ j) (hk : base + j = k) : target k :=
      hk ▸ htarget j hcut
    have hlevelTest := Level.expression hfit.left htest
    have hlevelBody := level_statement body hfit.right hbody
    have hlevelSkip := hlevelTest.append (.jumpIfZero (base + t.length + 1 + b.length + 1))
    have hlevelJump := (hlevelSkip.append hlevelBody).append (.jump base)
    have hbody := steady_statement body hfit.right hbody fun j hcut =>
      hthere ((hcut.right hlevelSkip).left _) (by simp; omega)
    have hbase := hthere (Cut.zero _) (k := base) rfl
    have hfinish := hthere (Cut.finish hlevelJump)
      (k := base + t.length + 1 + b.length + 1) (by simp; omega)
    have htest : Steady target t := .of_assembled (assembled_expression test htest)
    have hskip := htest.append hlevelTest (steady_jumpIfZero hfinish)
    exact (hskip.append hlevelSkip hbody).append (hlevelSkip.append hlevelBody)
      (steady_jump hbase)
  | .ret returns value, hfit, h, _ => by
    simp only [statement, bind_eq_ok, pure_eq_ok] at h
    obtain ⟨v, hvalue, rfl⟩ := h
    have hlevel : Level v := ⟨moves_returned hfit hvalue, assembled_returned hvalue⟩
    exact (steady_returned hvalue).append hlevel steady_epilogue
  | .number _, _, h, _ | .var _, _, h, _ | .element _ _, _, h, _ | .assign _ _, _, h, _
  | .binary _ _ _, _, h, _ | .call _ _, _, h, _ => .of_assembled (assembled_expression _ h)

theorem steady_statements {env : Env} {base : Nat} {ops : List Operation} :
    (nodes : List Node) → env.Fits (Node.callsAll nodes) → statements env base nodes = .ok ops →
      (∀ j, Cut ops j → target (base + j)) → Steady target ops
  | [], _, h, _ => by
    cases h
    exact .nil
  | node :: rest, hfit, h, htarget => by
    simp only [statements, bind_eq_ok, pure_eq_ok] at h
    obtain ⟨a, hnode, b, hrest, rfl⟩ := h
    have hlevel := level_statement node hfit.left hnode
    have hnode := steady_statement node hfit.left hnode
      fun j hcut => htarget j (hcut.left b)
    have hrest := steady_statements rest hfit.right hrest (by
      intro j hcut
      rw [Nat.add_assoc]
      exact htarget _ (hcut.right hlevel))
    exact hnode.append hlevel hrest

theorem steady_optional {env : Env} {base : Nat} {ops : List Operation} :
    (node : Option Node) → env.Fits (Node.callsOptional node) → optional env base node = .ok ops →
      (∀ j, Cut ops j → target (base + j)) → Steady target ops
  | none, _, h, _ => by
    cases h
    exact .nil
  | some node, hfit, h, htarget => steady_statement node hfit h htarget

end

end Steady

/-- What an operation of a body can be. -/
inductive Part (ops : List Operation) (i : Nat) (op : Operation) : Prop
  | plain : Plain op → Part ops i op
  | jumpIfZero {t : Nat} : op = jumpIfZero t → Part ops i op
  | jump {t : Nat} : op = jump t → Part ops i op
  | leave {k : Nat} : Stands ops k epilogue → k ≤ i → i < k + 4 → Part ops i op

theorem part_of_assembled {ops : List Operation} (h : Assembled BodyPiece ops) {i : Nat}
    {op : Operation} (hget : ops[i]? = some op) : Part ops i op := by
  refine h.everywhere (P := Part) ?_ ?_ i op hget
  · intro part hpart i op hop
    cases hpart with
    | expression hpart => exact .plain (plain_of_piece hpart op (List.mem_of_getElem? hop))
    | jumpIfZero t => exact .jumpIfZero (List.mem_singleton.1 (List.mem_of_getElem? hop))
    | jump t => exact .jump (List.mem_singleton.1 (List.mem_of_getElem? hop))
    | leave =>
      have hi : i < 4 := (List.getElem?_eq_some_iff.1 hop).1
      exact .leave (.self _) (Nat.zero_le i) (by omega)
  · intro before part after i op hpart
    cases hpart with
    | plain hop => exact .plain hop
    | jumpIfZero hop => exact .jumpIfZero hop
    | jump hop => exact .jump hop
    | leave hs hle hlt => exact .leave (hs.embed before after) (by omega) (by omega)

theorem stands_epilogue {ops : List Operation} (h : Assembled BodyPiece ops) {i : Nat}
    (hget : ops[i]? = some dropFrame) : Stands ops i epilogue := by
  cases part_of_assembled h hget with
  | plain hop => exact absurd rfl hop.ne_dropFrame
  | jumpIfZero hop => cases hop
  | jump hop => cases hop
  | @leave k hs hle hlt =>
    obtain ⟨j, rfl⟩ := Nat.exists_eq_add_of_le hle
    match j, hget with
    | 0, _ => exact hs
    | 1, hget => cases (hs.getElem? (i := 1) rfl).symm.trans hget
    | 2, hget => cases (hs.getElem? (i := 2) rfl).symm.trans hget
    | 3, hget => cases (hs.getElem? (i := 3) rfl).symm.trans hget
    | j + 4, _ => omega

theorem Cut.not_inside {ops : List Operation} {j k : Nat} (h : Cut ops j)
    (hs : Stands ops k epilogue) (hk : k < j) : k + 4 ≤ j := by
  obtain ⟨before, after, rfl, rfl, hlevel⟩ := h
  have hget : (before ++ after)[k + 0]? = some dropFrame := hs.getElem? rfl
  rw [Nat.add_zero, List.getElem?_append_left hk] at hget
  exact (stands_epilogue hlevel.assembled hget).length_le

/-- A jump relative to the counter stays in its comparison: it passes over operations `rest` that
leave the stack alone. -/
theorem exists_skipped {target : Nat → Prop} {callee : Entry → Prop} {ops : List Operation}
    (h : Routed target callee ops) {i : Nat} {opcode : Opcode} {r : Register} {d : Word}
    (hget : ops[i]? = some (.memory opcode r d .pc))
    (hjump : opcode.isJump = true ∨ opcode = .lda ∧ r = .pc) :
    ∃ rest, Stands ops i (.memory opcode r d .pc :: rest) ∧ (rest.length : Int) = d.toInt ∧
      climbs (.memory opcode r d .pc :: rest) = 0 ∧
      ∀ op ∈ Operation.memory opcode r d .pc :: rest, op ∉ epilogue := by
  have hw : (Operation.memory opcode r d .pc).writesPc = true := by
    rcases hjump with hjump | ⟨rfl, rfl⟩
    · cases opcode <;> first | rfl | cases hjump
    · rfl
  generalize hop : Operation.memory opcode r d .pc = op at hget hw
  cases h i op hget hw with
  | jumpIfZero | jump | call | leave => cases hop
  | @test k opcode hop' hs hi =>
    cases hop
    obtain ⟨before, after, rfl, rfl⟩ := hs
    have htest : climb (.memory opcode .ax 2 .pc) = 0 := by
      cases opcode <;> exact climb_of_fills nofun nofun
    refine ⟨[.memory .ldc .ax 0 .ax, .memory .lda .pc 1 .pc],
      ⟨before ++ [.registers .sub .ax .bx .ax], .memory .ldc .ax 1 .ax :: after, ?_, ?_⟩, rfl, ?_,
      ?_⟩
    · simp [compare]
    · simp [hi]
    · rw [climbs_cons, htest]
      decide
    · simp [epilogue, Operation.memory]
  | @pass k opcode hop' hs hi =>
    cases hop
    obtain ⟨before, after, rfl, rfl⟩ := hs
    refine ⟨[.memory .ldc .ax 1 .ax], ⟨before ++ (compare opcode).take 3, after, ?_, ?_⟩, rfl,
      by decide, by decide⟩
    · simp [compare]
    · simp [compare, hi]

/-- The statement `inner` stands in the statement `node`. When the code of `node` starts at address
`base` in `env`, that of `inner` starts at address `k` in `env'`. -/
inductive Contains : Env → Nat → Node → Env → Nat → Node → Prop
  | self {env : Env} {base : Nat} {node : Node} : Contains env base node env base node
  | compound {env env' : Env} {base k : Nat} {table : Option Table} {before after : List Node}
      {node inner : Node} {a : List Operation} :
      statements (env.enter table) base before = .ok a →
      Contains (env.enter table) (base + a.length) node env' k inner →
      Contains env base (.compound table (before ++ node :: after)) env' k inner
  | thenPart {env env' : Env} {base k : Nat} {test thenPart inner : Node} {elsePart : Option Node}
      {t : List Operation} : expression env .value test = .ok t →
      Contains env (base + t.length + 1) thenPart env' k inner →
      Contains env base (.branch test thenPart elsePart) env' k inner
  | elsePart {env env' : Env} {base k : Nat} {test thenPart elsePart inner : Node}
      {t a : List Operation} : expression env .value test = .ok t →
      statement env (base + t.length + 1) thenPart = .ok a →
      Contains env (base + t.length + 1 + a.length + 1) elsePart env' k inner →
      Contains env base (.branch test thenPart (some elsePart)) env' k inner
  | body {env env' : Env} {base k : Nat} {test body inner : Node} {t : List Operation} :
      expression env .value test = .ok t →
      Contains env (base + t.length + 1) body env' k inner →
      Contains env base (.loop test body) env' k inner

theorem statements_append_eq_ok {env : Env} {base : Nat} {before after : List Node} {node : Node}
    {ops : List Operation} (h : statements env base (before ++ node :: after) = .ok ops) :
    ∃ a b c, statements env base before = .ok a ∧ statement env (base + a.length) node = .ok b ∧
      ops = a ++ b ++ c := by
  induction before generalizing base ops with
  | nil =>
    simp only [List.nil_append, statements, bind_eq_ok, pure_eq_ok] at h
    obtain ⟨b, hnode, c, hrest, rfl⟩ := h
    exact ⟨[], b, c, rfl, hnode, rfl⟩
  | cons first before ih =>
    simp only [List.cons_append, statements, bind_eq_ok, pure_eq_ok] at h
    obtain ⟨a, hfirst, rest, hrest, rfl⟩ := h
    obtain ⟨a', b, c, hbefore, hnode, rfl⟩ := ih hrest
    refine ⟨a ++ a', b, c, ?_, ?_, by simp⟩
    · simp only [statements, hfirst, ok_bind, hbefore]
      rfl
    · rw [List.length_append, ← Nat.add_assoc]
      exact hnode

theorem callsAll_append (before after : List Node) :
    Node.callsAll (before ++ after) = Node.callsAll before ++ Node.callsAll after := by
  induction before with
  | nil => rfl
  | cons node before ih =>
    rw [List.cons_append, Node.callsAll, ih, Node.callsAll, List.append_assoc]

/-- The operations `part` stand in `ops` from position `j` on, which is a cut. -/
def Sits (ops : List Operation) (j : Nat) (part : List Operation) : Prop :=
  ∃ before after, ops = before ++ part ++ after ∧ before.length = j ∧ Level before

theorem Sits.embed {ops part before : List Operation} {j : Nat} (h : Sits ops j part)
    (hbefore : Level before) (after : List Operation) :
    Sits (before ++ ops ++ after) (before.length + j) part := by
  obtain ⟨before', after', rfl, rfl, hlevel⟩ := h
  exact ⟨before ++ before', after' ++ after, by simp, by simp, hbefore.append hlevel⟩

/-- The code of a statement stands in that of the statements around it, between two cuts. -/
theorem Contains.sits {env env' : Env} {base k : Nat} {node inner : Node} {ops : List Operation}
    (h : Contains env base node env' k inner) (hfit : env.Fits node.calls)
    (hops : statement env base node = .ok ops) :
    ∃ part j, statement env' k inner = .ok part ∧ Level part ∧ Sits ops j part ∧ base + j = k := by
  induction h generalizing ops with
  | @self env base node =>
    exact ⟨ops, 0, hops, level_statement node hfit hops, ⟨[], [], by simp, rfl, .nil⟩, rfl⟩
  | @compound env env' base k table before after node inner a hbefore hcontains ih =>
    have hfit := hfit.enter table
    rw [Node.calls, callsAll_append, Node.callsAll] at hfit
    obtain ⟨a', b, c, hbefore', hnode, rfl⟩ := statements_append_eq_ok hops
    cases hbefore.symm.trans hbefore'
    obtain ⟨part, j, hinner, hpart, hsits, rfl⟩ := ih hfit.right.left hnode
    have hlevel := level_statements before hfit.left hbefore
    exact ⟨part, _, hinner, hpart, hsits.embed hlevel c, by omega⟩
  | @thenPart env env' base k test thenPart inner elsePart t htest hcontains ih =>
    simp only [statement, bind_eq_ok, pure_eq_ok] at hops
    obtain ⟨t', htest', a, hthen, b, helse, rfl⟩ := hops
    cases htest.symm.trans htest'
    obtain ⟨part, j, hinner, hpart, hsits, rfl⟩ := ih hfit.left.right hthen
    have hskip := (Level.expression hfit.left.left htest).append
      (.jumpIfZero (base + t.length + 1 + a.length + 1))
    have hsits := hsits.embed hskip ([jump (base + t.length + 1 + a.length + 1 + b.length)] ++ b)
    rw [← List.append_assoc] at hsits
    exact ⟨part, _, hinner, hpart, hsits, by simp; omega⟩
  | @elsePart env env' base k test thenPart elsePart inner t a htest hthen hcontains ih =>
    simp only [statement, optional, bind_eq_ok, pure_eq_ok] at hops
    obtain ⟨t', htest', a', hthen', b, helse, rfl⟩ := hops
    cases htest.symm.trans htest'
    cases hthen.symm.trans hthen'
    obtain ⟨part, j, hinner, hpart, hsits, rfl⟩ := ih hfit.right helse
    have hskip := (Level.expression hfit.left.left htest).append
      (.jumpIfZero (base + t.length + 1 + a.length + 1))
    have hjump := (hskip.append (level_statement thenPart hfit.left.right hthen)).append
      (.jump (base + t.length + 1 + a.length + 1 + b.length))
    have hsits := hsits.embed hjump []
    rw [List.append_nil] at hsits
    exact ⟨part, _, hinner, hpart, hsits, by simp; omega⟩
  | @body env env' base k test body inner t htest hcontains ih =>
    simp only [statement, bind_eq_ok, pure_eq_ok] at hops
    obtain ⟨t', htest', b, hbody, rfl⟩ := hops
    cases htest.symm.trans htest'
    obtain ⟨part, j, hinner, hpart, hsits, rfl⟩ := ih hfit.right hbody
    have hskip := (Level.expression hfit.left htest).append
      (.jumpIfZero (base + t.length + 1 + b.length + 1))
    exact ⟨part, _, hinner, hpart, hsits.embed hskip [jump base], by simp; omega⟩

end Compile

namespace Code

/-- The address is that of the second to fourth instruction of an epilogue, in code that starts at
`base`. -/
def InEpilogue (code : Code) (base a : Nat) : Prop :=
  ∃ k, base ≤ k ∧ k < a ∧ a < k + 4 ∧ code.Holds k Compile.epilogue

/-- The addresses that have a height: from `base` to `stop`, but not inside epilogues. -/
structure Measured (code : Code) (base stop a : Nat) : Prop where
  low : base ≤ a
  high : a ≤ stop
  outside : ¬ code.InEpilogue base a

/-- The instruction at `a` is `op`, and does not belong to an epilogue. -/
structure Passes (code : Code) (base stop a : Nat) (op : Operation) : Prop where
  measured : code.Measured base stop a
  below : a < stop
  get : (code.get? a).map (·.toOperation) = some op
  stays : ¬ code.Holds a Compile.epilogue

end Code

/-- How far the top of the stack is below the frame base. -/
def Machine.height (m : Machine) : Int :=
  (m.get .bp).toInt - (m.get .sp).toInt

/-- The code from `start` to `stop` is that of a function with `frame` local cells, and `height`
gives the height of the stack at each of its addresses behind the prologue. -/
structure Code.Levelled (code : Code) (start stop frame : Nat) (height : Nat → Int) : Prop where
  /-- The last two instructions of the prologue open the frame. -/
  opened : height (start + 4) = frame ∧
    ∀ m m₁ m₂ : Machine, (m.get .pc).toInt = (start + 2 : Nat) →
      m.step code = .ok (.running m₁) → m₁.step code = .ok (.running m₂) →
      (m₂.get .pc).toInt = (start + 4 : Nat) ∧ m₂.height = frame
  /-- What an instruction does to the stack can be read off it. -/
  effect : ∀ a op, code.Passes (start + 4) stop a op →
    op.fills ≠ some .bp ∧ ∃ rise, op.raise = some rise
  /-- All ways to an address agree on its height. -/
  follows : ∀ a op b rise, code.Passes (start + 4) stop a op → op.Leads a b rise →
    code.Measured (start + 4) stop b ∧ height b = height a - rise
  above : ∀ a, code.Measured (start + 4) stop a → (frame : Int) ≤ height a
  leaves : ∀ a, start + 4 ≤ a → a < stop → code.Holds a Compile.epilogue → height a = frame
  /-- A step of the machine, other than into a called function, keeps to the heights. -/
  runs : ∀ a op, code.Passes (start + 4) stop a op → (∀ d s, op ≠ .memory .ldc .pc d s) →
    ∀ m m' : Machine, (m.get .pc).toInt = a → m.get .zero = 0 → m.height = height a →
      m.step code = .ok (.running m') →
      ∃ b rise, op.Leads a b rise ∧ (m'.get .pc).toInt = b ∧ m'.height = height b

theorem Code.Holds.part {code : Code} {k i : Nat} {ops part : List Operation} (h : code.Holds k ops)
    (hs : Compile.Stands ops i part) : code.Holds (k + i) part := by
  intro j op hget
  rw [Nat.add_assoc]
  exact h (i + j) op (hs.getElem? hget)

theorem Code.Passes.measured_succ {code : Code} {base stop a : Nat} {op : Operation}
    (h : code.Passes base stop a op) : code.Measured base stop (a + 1) := by
  have hlow := h.measured.low
  refine ⟨by omega, h.below, ?_⟩
  rintro ⟨k, hk, hlt, hhigh, hepilogue⟩
  by_cases heq : k = a
  · exact h.stays (heq ▸ hepilogue)
  · exact h.measured.outside ⟨k, hk, by omega, by omega, hepilogue⟩

namespace Compile

theorem Plain.effect {op : Operation} (h : Plain op) :
    op.fills ≠ some .bp ∧ ∃ rise, op.raise = some rise := by
  cases h with
  | place hopcode _ =>
    simp only [List.mem_cons, List.not_mem_nil, or_false] at hopcode
    rcases hopcode with rfl | rfl <;> exact ⟨nofun, 0, rfl⟩
  | through hopcode =>
    simp only [List.mem_cons, List.not_mem_nil, or_false] at hopcode
    rcases hopcode with rfl | rfl | rfl <;> exact ⟨nofun, 0, rfl⟩
  | compute hopcode hr =>
    simp only [List.mem_cons, List.not_mem_nil, or_false] at hopcode hr
    rcases hopcode with rfl | rfl | rfl | rfl <;> rcases hr with rfl | rfl <;>
      exact ⟨nofun, 0, rfl⟩
  | @test opcode hjump => cases opcode <;> exact ⟨nofun, 0, rfl⟩
  | _ => exact ⟨nofun, _, rfl⟩

theorem Plain.destination {op : Operation} (h : Plain op) (hw : op.writesPc = true)
    (hcall : ∀ d s, op ≠ .memory .ldc .pc d s) (a : Nat) :
    ∃ b : Nat, op.destination a = some (b : Int) := by
  cases h with
  | place hopcode _ =>
    simp only [List.mem_cons, List.not_mem_nil, or_false] at hopcode
    rcases hopcode with rfl | rfl <;> cases hw
  | through hopcode =>
    simp only [List.mem_cons, List.not_mem_nil, or_false] at hopcode
    rcases hopcode with rfl | rfl | rfl <;> cases hw
  | compute hopcode hr =>
    simp only [List.mem_cons, List.not_mem_nil, or_false] at hopcode hr
    rcases hopcode with rfl | rfl | rfl | rfl <;> rcases hr with rfl | rfl <;> cases hw
  | test hjump =>
    refine ⟨2 + (a + 1), ?_⟩
    simp [Operation.destination, Operation.memory, hjump]
  | pass =>
    refine ⟨1 + (a + 1), ?_⟩
    simp [Operation.destination, Operation.memory]
  | enter d => exact absurd rfl (hcall d .ax)
  | _ => cases hw

/-- The height of the stack at address `a` of code `ops` that starts at `base`. -/
def heightAt (base frame : Nat) (ops : List Operation) (a : Nat) : Int :=
  frame + climbs (ops.take (a - base))

section Levelled

variable {code : Code} {base frame : Nat} {ops : List Operation}

theorem heightAt_of_cut {j : Nat} (h : Cut ops j) : heightAt base frame ops (base + j) = frame := by
  rw [heightAt, Nat.add_sub_cancel_left, h.climbs_take, Int.add_zero]

/-- The code `ops` stands at `base`. It leaves the stack as high as it finds it, and its jumps stay
in it. -/
structure Placed (code : Code) (base : Nat) (ops : List Operation) : Prop where
  holds : code.Holds base ops
  level : Level ops
  steady : Steady (fun t => ∃ j, Cut ops j ∧ t = base + j) ops
  routed : ∃ target callee, Routed target callee ops
  small : base + ops.length < 2147483648

variable (h : Placed code base ops)
include h

theorem Placed.getElem? {a : Nat} {op : Operation} (hlow : base ≤ a) (hhigh : a < base + ops.length)
    (hget : (code.get? a).map (·.toOperation) = some op) : ops[a - base]? = some op := by
  have hlt : a - base < ops.length := by omega
  have hslot := h.holds (a - base) _ (List.getElem?_eq_getElem hlt)
  rw [Nat.add_sub_cancel' hlow, hget] at hslot
  rw [List.getElem?_eq_getElem hlt, hslot]

theorem Placed.stands {k : Nat} (hlow : base ≤ k) (hhigh : k < base + ops.length)
    (hk : code.Holds k epilogue) : Stands ops (k - base) epilogue :=
  stands_epilogue h.level.assembled (h.getElem? hlow hhigh (hk 0 dropFrame rfl))

theorem Placed.measured_of_cut {j : Nat} (hcut : Cut ops j) :
    code.Measured base (base + ops.length) (base + j) := by
  have hle := hcut.le_length
  refine ⟨Nat.le_add_right base j, by omega, ?_⟩
  rintro ⟨k, hlow, hlt, hhigh, hk⟩
  have hinside := hcut.not_inside (h.stands hlow (by omega) hk) (by omega)
  omega

theorem Placed.cases {a : Nat} {op : Operation}
    (hpass : code.Passes base (base + ops.length) a op) :
    Plain op ∨ (∃ t, op = jumpIfZero t) ∨ ∃ t, op = jump t := by
  have hlow := hpass.measured.low
  have hget := h.getElem? hlow hpass.below hpass.get
  cases part_of_assembled h.level.assembled hget with
  | plain hop => exact .inl hop
  | jumpIfZero hop => exact .inr (.inl ⟨_, hop⟩)
  | jump hop => exact .inr (.inr ⟨_, hop⟩)
  | @leave k hs hle hlt =>
    have hepilogue := h.holds.part hs
    by_cases heq : k = a - base
    · rw [heq, Nat.add_sub_cancel' hlow] at hepilogue
      exact absurd hepilogue hpass.stays
    · exact absurd ⟨base + k, by omega, by omega, by omega, hepilogue⟩ hpass.measured.outside

theorem Placed.effect {a : Nat} {op : Operation}
    (hpass : code.Passes base (base + ops.length) a op) :
    op.fills ≠ some .bp ∧ ∃ rise, op.raise = some rise := by
  rcases h.cases hpass with hop | ⟨t, rfl⟩ | ⟨t, rfl⟩
  · exact hop.effect
  · exact ⟨nofun, 0, rfl⟩
  · exact ⟨nofun, 0, rfl⟩

theorem Placed.height_succ {a : Nat} {op : Operation}
    (hpass : code.Passes base (base + ops.length) a op) :
    heightAt base frame ops (a + 1) = heightAt base frame ops a + climb op := by
  have hlow := hpass.measured.low
  have hget := h.getElem? hlow hpass.below hpass.get
  rw [heightAt, heightAt, Nat.sub_add_comm hlow, List.take_add_one, hget, climbs_append,
    Option.toList_some, climbs_cons, climbs_nil, Int.add_zero, Int.add_assoc]

theorem Placed.jump (frame : Nat) {a : Nat} {opcode : Opcode} {r : Register} {d : Word}
    (hpass : code.Passes base (base + ops.length) a (.memory opcode r d .zero)) :
    heightAt base frame ops a = frame ∧ ∃ j, Cut ops j ∧ d.toInt = (base + j : Nat) := by
  have hlow := hpass.measured.low
  have hget := h.getElem? hlow hpass.below hpass.get
  obtain ⟨hcut, t, ⟨j, hj, rfl⟩, rfl⟩ := h.steady.jumps _ _ _ _ hget
  have hle := hj.le_length
  have hsmall := h.small
  have hheight : heightAt base frame ops (base + (a - base)) = frame := heightAt_of_cut hcut
  rw [Nat.add_sub_cancel' hlow] at hheight
  exact ⟨hheight, j, hj, Word.toInt_low (by omega)⟩

theorem Placed.skip {a b : Nat} {opcode : Opcode} {r : Register} {d : Word}
    (hpass : code.Passes base (base + ops.length) a (.memory opcode r d .pc))
    (hjump : opcode.isJump = true ∨ opcode = .lda ∧ r = .pc) (hb : d.toInt + (a + 1) = b) :
    code.Measured base (base + ops.length) b ∧
      heightAt base frame ops b = heightAt base frame ops a := by
  have hlow := hpass.measured.low
  have hget := h.getElem? hlow hpass.below hpass.get
  obtain ⟨target, callee, hrouted⟩ := h.routed
  obtain ⟨rest, hs, hlen, hclimbs, houter⟩ := exists_skipped hrouted hget hjump
  have hle := hs.length_le
  rw [List.length_cons] at hle
  have hmid := h.holds.part hs
  rw [Nat.add_sub_cancel' hlow] at hmid
  refine ⟨⟨by omega, by omega, ?_⟩, ?_⟩
  · -- The operation before `b` would be one of an epilogue.
    rintro ⟨k, hk, hlt, hhigh, hepilogue⟩
    have hi : b - 1 - k < epilogue.length := by
      change b - 1 - k < 4
      omega
    have hj : rest.length < (Operation.memory opcode r d .pc :: rest).length := Nat.lt_succ_self _
    have hlast := hmid rest.length _ (List.getElem?_eq_getElem hj)
    have hfirst := hepilogue (b - 1 - k) _ (List.getElem?_eq_getElem hi)
    rw [show k + (b - 1 - k) = a + rest.length by omega, hlast] at hfirst
    exact houter _ (List.getElem_mem hj) (Option.some.inj hfirst ▸ List.getElem_mem hi)
  · obtain ⟨before, after, rfl, hbefore⟩ := hs
    have hb : b - base = (before ++ .memory opcode r d .pc :: rest).length := by
      rw [List.length_append, List.length_cons, hbefore]
      omega
    rw [heightAt, heightAt, hb, List.take_left, ← hbefore, List.append_assoc, List.take_left,
      climbs_append, hclimbs, Int.add_zero]

/-- All ways to an address agree on its height. -/
theorem Placed.follows {a b : Nat} {op : Operation} {rise : Int}
    (hpass : code.Passes base (base + ops.length) a op) (hleads : op.Leads a b rise) :
    code.Measured base (base + ops.length) b ∧
      heightAt base frame ops b = heightAt base frame ops a - rise := by
  have hdrop : op ≠ dropFrame := by
    rcases h.cases hpass with hop | ⟨t, rfl⟩ | ⟨t, rfl⟩
    · exact hop.ne_dropFrame
    · nofun
    · nofun
  have hclimb : climb op = -rise := by
    rw [climb, if_neg hdrop, hleads.gain]
    rfl
  cases hleads.continues with
  | next | back =>
    refine ⟨hpass.measured_succ, ?_⟩
    rw [h.height_succ hpass, hclimb, Int.sub_eq_add_neg]
  | jump hb =>
    cases hleads.gain.symm.trans (Operation.gain_of_destination hb)
    rw [Int.sub_zero]
    obtain ⟨opcode, operands⟩ := op
    cases operands with
    | registers r s t => cases hb
    | memory r d s =>
      simp only [Operation.destination] at hb
      split at hb
      · next hjump =>
        split at hb
        · obtain ⟨hheight, j, hcut, hd⟩ := h.jump frame hpass
          have hb : b = base + j := by
            have := Option.some.inj hb
            omega
          rw [hb, hheight, heightAt_of_cut hcut]
          exact ⟨h.measured_of_cut hcut, rfl⟩
        · exact h.skip hpass hjump (Option.some.inj hb)
        · cases hb
      · cases hb

theorem Placed.above {a : Nat} : (frame : Int) ≤ heightAt base frame ops a := by
  have := h.level.moves.above (a - base)
  rw [heightAt]
  omega

theorem Placed.leaves {a : Nat} (hlow : base ≤ a) (hhigh : a < base + ops.length)
    (hepilogue : code.Holds a epilogue) : heightAt base frame ops a = frame := by
  have hget := h.getElem? hlow hhigh (hepilogue 0 dropFrame rfl)
  have hheight : heightAt base frame ops (base + (a - base)) = frame :=
    heightAt_of_cut (h.steady.leaves _ hget)
  rwa [Nat.add_sub_cancel' hlow] at hheight

theorem Placed.runs {a : Nat} {op : Operation}
    (hpass : code.Passes base (base + ops.length) a op) (hcall : ∀ d s, op ≠ .memory .ldc .pc d s)
    {m m' : Machine} (hpc : (m.get .pc).toInt = a) (hzero : m.get .zero = 0)
    (hheight : m.height = heightAt base frame ops a) (hstep : m.step code = .ok (.running m')) :
    ∃ b rise, op.Leads a b rise ∧ (m'.get .pc).toInt = b ∧
      m'.height = heightAt base frame ops b := by
  obtain ⟨hbp, rise, hraise⟩ := h.effect hpass
  have hdirect : op.writesPc = true → ∃ b : Nat, op.destination a = some (b : Int) := by
    intro hw
    rcases h.cases hpass with hop | ⟨t, rfl⟩ | ⟨t, rfl⟩
    · exact hop.destination hw hcall a
    · obtain ⟨-, j, -, hd⟩ := h.jump frame hpass
      exact ⟨base + j, congrArg some hd⟩
    · obtain ⟨-, j, -, hd⟩ := h.jump frame hpass
      exact ⟨base + j, congrArg some hd⟩
  obtain ⟨b, hcontinues, hpc'⟩ := Machine.continues_of_step hstep hpc hpass.get hzero hdirect
  have hgain : op.gain = some rise := by
    rw [Operation.gain_eq_raise hcall, hraise]
  have hget : (code.get? (m.get .pc).toInt.toNat).map (·.toOperation) = some op := by
    rw [hpc, Int.toNat_natCast, hpass.get]
  refine ⟨b, rise, ⟨hcontinues, hgain⟩, hpc', ?_⟩
  rw [(h.follows hpass ⟨hcontinues, hgain⟩).2, ← hheight, Machine.height, Machine.height,
    Machine.sp_step hstep hget hraise, Machine.get_step hstep hget (by decide) hbp]
  omega

end Levelled

end Compile

theorem Machine.step_of_holds {code : Code} {k j : Nat} {ops : List Operation} {op : Operation}
    {m m' : Machine} (hcode : code.Holds k ops) (hop : ops[j]? = some op)
    (hquiet : op.writesPc = false) (hpc : (m.get .pc).toInt = (k + j : Nat))
    (hstep : m.step code = .ok (.running m')) :
    (code.get? (m.get .pc).toInt.toNat).map (·.toOperation) = some op ∧
      (m'.get .pc).toInt = (k + (j + 1) : Nat) := by
  have hget := hcode j op hop
  refine ⟨by rw [hpc, Int.toNat_natCast, hget], ?_⟩
  obtain ⟨i, hi, rfl⟩ := Option.map_eq_some_iff.1 hget
  rw [step_pc hstep hpc hi hquiet]
  omega

theorem Compile.height_of_prologue {code : Code} {start : Nat} {locals : Size}
    {opening : List Operation} (hopening : prologue locals = .ok opening)
    (hlocals : locals.toNat < 2147483648) (hcode : code.Holds start opening) {m m₁ m₂ : Machine}
    (hpc : (m.get .pc).toInt = (start + 2 : Nat)) (hstep : m.step code = .ok (.running m₁))
    (hstep₁ : m₁.step code = .ok (.running m₂)) :
    (m₂.get .pc).toInt = (start + 4 : Nat) ∧ m₂.height = locals.toNat := by
  simp only [prologue, bind_eq_ok, pure_eq_ok] at hopening
  obtain ⟨w, hw, rfl⟩ := hopening
  have hw : w.toInt = -locals.toNat := by
    rw [Word.exact_eq_ok_iff.1 hw, Size.toInt_low hlocals]
  obtain ⟨hbase, hpc₁⟩ := Machine.step_of_holds (j := 2) hcode rfl rfl hpc hstep
  obtain ⟨htop, hpc₂⟩ := Machine.step_of_holds (j := 3) hcode rfl rfl hpc₁ hstep₁
  have hbp := Machine.lda_step hstep hbase (by decide)
  have hsp : (m₁.get .sp).toInt = (m.get .sp).toInt + 0 := Machine.sp_step hstep hbase rfl
  have hbp₁ := Machine.get_step hstep₁ htop (s := .bp) (by decide) fun h => by cases h
  have hsp₁ : (m₂.get .sp).toInt = (m₁.get .sp).toInt + w.toInt :=
    Machine.sp_step hstep₁ htop rfl
  refine ⟨hpc₂, ?_⟩
  rw [Machine.height, hbp₁, hbp, hsp₁, hsp, hw]
  change 0 + _ - _ = _
  omega

namespace Program

open Compile

/-- What is known in the body of the function `name`. -/
structure Knows (p : Program) (code : Code) (name : String) (env : Env) : Prop where
  functions : env.functions = p.functions
  scopes : ∃ signature, p.signature? name = some signature ∧
    env.scopes = [signature.params, p.globals]
  entries : ∀ callee e, env.entries.get? callee = some e →
    code.entry? callee = some e.address ∧ p.paramCount? callee = some e.params

/-- Every address of the function's code has one height of the stack, and every statement of its
body starts and ends with nothing on the stack above the frame. -/
def HasHeights (p : Program) (code : Code) (name : String) (returns : ReturnType) (body : Node) :
    Prop :=
  ∃ start stop height env, code.entry? name = some start ∧ p.Owns code returns start stop ∧
    code.Levelled start stop body.frameSize.toNat height ∧ p.Knows code name env ∧
    ∀ env' k inner, Contains env (start + 4) body env' k inner →
      ∃ part, statement env' k inner = .ok part ∧ code.Holds k part ∧
        height k = body.frameSize.toNat ∧ height (k + part.length) = body.frameSize.toNat

theorem mem_callsAll {nodes : List Node} {node : Node} {c : String × Nat} (hnode : node ∈ nodes)
    (hc : c ∈ node.calls) : c ∈ Node.callsAll nodes := by
  induction nodes with
  | nil => cases hnode
  | cons first rest ih =>
    rw [Node.callsAll]
    cases hnode with
    | head => exact List.mem_append_left _ hc
    | tail _ hrest => exact List.mem_append_right _ (ih hrest)

theorem Knows.fits {p : Program} {code : Code} {name : String} {env : Env}
    (h : p.Knows code name env)
    (hparams : ∀ name signature, p.signature? name = some signature →
      signature.paramCount.toNat < 2147483648)
    (hcalls : p.CallsFit) {node : Node} (hnode : node ∈ p.declarations) : env.Fits node.calls := by
  intro callee n hmem e he
  obtain ⟨-, hcount⟩ := h.entries callee e he
  rw [Size.toInt_low (paramCount?_lt hparams hcount),
    hcalls callee n (mem_callsAll hnode hmem) e.params hcount]

theorem placed_routine {p : Program} {image : Image} {code : Code} (h : p.compile = .ok image)
    (hfills : image.Fills code) (hsize : code.size < 2147483648) {before after : List Routine}
    {r : Routine} (hr : image.routines = before ++ r :: after) {entries : NameMap Entry}
    {returns : ReturnType} {body : Node} (hrealizes : Realizes p entries returns body r)
    {env : Env} (hfit : env.Fits body.calls)
    (hbody : statement env (r.entry.address + 4) body = .ok r.body) :
    Placed code (r.entry.address + 4) (r.body ++ r.closing) := by
  have hlen := length_prologue hrealizes.opening
  have hholds := holds_routine h hfills hr
  have hstop := stop_le_size h hfills hr
  rw [Routine.code, List.append_assoc] at hholds hstop
  have hclosing : Level r.closing := by
    rw [hrealizes.closing]
    cases returns with
    | void => exact .leave
    | int | array => exact .nil
  have hsteady (target : Nat → Prop) : Steady target r.closing := by
    rw [hrealizes.closing]
    cases returns with
    | void => exact steady_epilogue
    | int | array => exact .nil
  have hrouted (target : Nat → Prop) (callee : Entry → Prop) :
      Routed target callee r.closing := by
    rw [hrealizes.closing]
    cases returns with
    | void => exact routed_epilogue
    | int | array => exact .nil
  have hlevel := level_statement body hfit hbody
  refine ⟨hholds.right.cast (by rw [hlen]), hlevel.append hclosing, ?_, ?_, ?_⟩
  · refine (steady_statement body hfit hbody ?_).append hlevel (hsteady _)
    intro j hcut
    exact ⟨j, hcut.left _, rfl⟩
  · exact ⟨fun _ => True, _,
      (routed_statement body hbody fun _ _ _ => trivial).append (hrouted _ _)⟩
  · rw [List.length_append, hlen] at hstop
    omega

/-- The stack has one height at each address of a function's code, whichever way control gets
there. -/
theorem hasHeights_of_generate {p : Program} {trace : Bool} {code : Code}
    (h : p.generate trace = .ok code) (hsize : code.size < 2147483648)
    (hparams : ∀ name signature, p.signature? name = some signature →
      signature.paramCount.toNat < 2147483648)
    (hcalls : p.CallsFit) {name : String} {returns : ReturnType} {body : Node}
    (hmem : .function name returns body ∈ p.declarations)
    (hframe : body.frameSize.toNat < 2147483648) : p.HasHeights code name returns body := by
  have hfollows := p.generate_follows trace
  rw [h] at hfollows
  obtain ⟨image, hcompile, hfills⟩ := hfollows
  obtain ⟨entries, before, r, after, hr, rfl, hdecls, hrealizes, howns⟩ :=
    exists_routine_of_mem hcompile hfills hmem
  obtain ⟨signature, hsignature, -, known, hknown, hbody⟩ := hrealizes.params
  have hlen := length_prologue hrealizes.opening
  rw [hlen] at hbody
  have hknows : p.Knows code r.name ⟨p.functions, known, [signature.params, p.globals]⟩ := by
    refine ⟨rfl, ⟨signature, hsignature, rfl⟩, ?_⟩
    intro callee e he
    have he := hknown callee e he
    refine ⟨?_, paramCount?_of_entry hdecls he⟩
    rw [hfills.entry, image.entry?_eq_get? hdecls, he, Option.map_some]
  have hfit := hknows.fits hparams hcalls hmem
  have hplaced := placed_routine hcompile hfills hsize hr hrealizes hfit hbody
  have hstop : r.entry.address + r.code.length =
      r.entry.address + 4 + (r.body ++ r.closing).length := by
    rw [Routine.code, List.append_assoc, List.length_append, hlen, Nat.add_assoc]
  have hopening := (holds_routine hcompile hfills hr).left.left
  refine ⟨r.entry.address, r.entry.address + r.code.length,
    heightAt (r.entry.address + 4) body.frameSize.toNat (r.body ++ r.closing), _,
    entry?_of_routine hcompile hfills (hr ▸ List.mem_append_right _ List.mem_cons_self), howns, ?_,
    hknows, ?_⟩
  · rw [hstop]
    exact ⟨⟨heightAt_of_cut (Cut.zero _),
        fun _ _ _ => height_of_prologue hrealizes.opening hframe hopening⟩,
      fun _ _ => hplaced.effect, fun _ _ _ _ => hplaced.follows, fun _ _ => hplaced.above,
      fun _ => hplaced.leaves, fun _ _ hpass hcall _ _ => hplaced.runs hpass hcall⟩
  · intro env' k inner hcontains
    obtain ⟨part, j, hinner, hpart, ⟨pre, post, heq, rfl, hlevel⟩, rfl⟩ :=
      hcontains.sits hfit hbody
    rw [heq] at hplaced ⊢
    have hstands : Stands (pre ++ part ++ post ++ r.closing) pre.length part :=
      ⟨pre, post ++ r.closing, by simp, rfl⟩
    have hstart : Cut (pre ++ part ++ post ++ r.closing) pre.length :=
      ⟨pre, part ++ post ++ r.closing, by simp, rfl, hlevel⟩
    have hfinish : Cut (pre ++ part ++ post ++ r.closing) (pre.length + part.length) :=
      ⟨pre ++ part, post ++ r.closing, by simp, by simp, hlevel.append hpart⟩
    refine ⟨part, hinner, hplaced.holds.part hstands, heightAt_of_cut hstart, ?_⟩
    rw [Nat.add_assoc]
    exact heightAt_of_cut hfinish

theorem countdown_hasHeights :
    ∃ code body, countdown.generate false = .ok code ∧ code.size < 2147483648 ∧
      countdown.CallsFit ∧ .function "main" .void body ∈ countdown.declarations ∧
      body.frameSize.toNat = 1 ∧ countdown.HasHeights code "main" .void body := by
  obtain ⟨code, h⟩ := countdown_isOk false
  have hsize : (countdown.generate false).toOption.any (fun code => code.size < 2147483648) =
      true := by decide +kernel
  rw [h, Except.toOption, Option.any_some, decide_eq_true_iff] at hsize
  have hcalls : countdown.CallsFit := by
    intro name n hmem count hcount
    have hlist : Node.callsAll countdown.declarations = [("input", 0), ("output", 1)] := by
      decide +kernel
    rw [hlist] at hmem
    simp only [List.mem_cons, Prod.mk.injEq, List.not_mem_nil, or_false] at hmem
    rcases hmem with ⟨rfl, rfl⟩ | ⟨rfl, rfl⟩
    · rw [← Option.some.inj hcount]
      rfl
    · rw [← Option.some.inj hcount]
      rfl
  refine ⟨code, _, h, hsize, hcalls, List.mem_singleton_self _, by decide +kernel, ?_⟩
  exact hasHeights_of_generate h hsize countdown_params hcalls (List.mem_singleton_self _)
    (by decide +kernel)

end Program

end CMinus
