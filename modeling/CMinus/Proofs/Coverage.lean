import CMinus.Proofs.Cells
import CMinus.Proofs.Run
import CMinus.Proofs.StackHeight
import CMinus.Proofs.WellFormed

namespace CMinus

namespace Watch

/-- Translation beside a list of the tables that were pushed. -/
abbrev Watched := StateT (List Table) (Except Failure)

/-- Opens the scope of a compound statement, and notes its table. -/
def enter (env : Env) (table : Option Table) : Watched Env := do
  modify (· ++ table.toList)
  return env.enter table

mutual

/-- As `Generate.statement`, but noting each table that is pushed. -/
def statement (env : Env) (node : Node) (s : Stream) : Watched Stream :=
  match node with
  | .function .. => throw (.rejected (.unexpectedNode node.kind .functionBody))
  | .compound table body => do
    let env ← enter env table
    let s ← statements env body (s.comment "-> compound")
    return s.comment "<- compound"
  | .branch test thenPart elsePart => do
    let s ← Generate.expression env .value test (s.comment "-> if")
    let toElse := s.cursor
    let s ← s.skip 1
    let s ← statement env thenPart (s.comment "jump to else")
    let toEnd := s.cursor
    let s ← s.skip 1
    let s := s.comment "jump to end"
    let s ← s.patch toElse [.memory .jeq .ax (Word.low s.cursor) .zero "if: jmp to else"]
    let s ← optional env elsePart s
    let s ← s.patch toEnd [.memory .lda .pc (Word.low s.cursor) .zero "jmp to end"]
    return s.comment "<- if"
  | .loop test body => do
    let s := s.comment "-> while"
    let start := s.cursor
    let s ← Generate.expression env .value test (s.comment "jump here after body")
    let toEnd := s.cursor
    let s ← s.skip 1
    let s ← statement env body (s.comment "jump to end if test fails")
    let s ← s.write [.memory .lda .pc (Word.low start) .zero "jump to test"]
    let s ← s.patch toEnd [.memory .jeq .ax (Word.low s.cursor) .zero "jump to end"]
    return s.comment "<- while"
  | .ret returns value => do
    let s := s.comment "-> return"
    let s ← match returns, value with
      | .void, _ => pure s
      | _, none => pure s
      | _, some value => Generate.expression env .value value s
    let s ← s.write Sequence.epilogue
    return s.comment "<- return"
  | expr => Generate.expression env .value expr s

def statements (env : Env) (nodes : List Node) (s : Stream) : Watched Stream :=
  match nodes with
  | [] => return s
  | node :: rest => do
    let s ← statement env node s
    statements env rest s

def optional (env : Env) (node : Option Node) (s : Stream) : Watched Stream :=
  match node with
  | none => return s
  | some node => statement env node s

end

/-- `x` does what `y` does, and notes the tables `ts`. -/
def Notes {α : Type} (x : Watched α) (y : Except Failure α) (ts : List Table) : Prop :=
  ∀ noted, x.run noted = y.map (·, noted ++ ts)

namespace Notes

variable {α β : Type} {x : Watched α} {y : Except Failure α} {ts us : List Table}

theorem pure (a : α) : Notes (Pure.pure a) (.ok a) [] := by
  intro noted
  rw [List.append_nil]
  rfl

theorem throw (e : Failure) (ts : List Table) :
    Notes (MonadExcept.throw e : Watched α) (.error e) ts := by
  intro noted
  rfl

theorem lift (y : Except Failure α) : Notes (liftM y) y [] := by
  intro noted
  rw [List.append_nil]
  cases y <;> rfl

theorem bind {f : α → Watched β} {g : α → Except Failure β} (h : Notes x y ts)
    (hf : ∀ a, Notes (f a) (g a) us) : Notes (x >>= f) (y >>= g) (ts ++ us) := by
  intro noted
  rw [StateT.run_bind, h noted]
  cases y with
  | error e => rfl
  | ok a =>
    rw [← List.append_assoc]
    exact hf a (noted ++ ts)

theorem after {f : α → Watched β} {g : α → Except Failure β} (hf : ∀ a, Notes (f a) (g a) us) :
    Notes (liftM y >>= f) (y >>= g) us :=
  (lift y).bind hf

theorem last {f : α → Watched β} {g : α → Except Failure β} (h : Notes x y ts)
    (hf : ∀ a, Notes (f a) (g a) []) : Notes (x >>= f) (y >>= g) ts := by
  have := h.bind hf
  rwa [List.append_nil] at this

end Notes

theorem notes_enter (env : Env) (table : Option Table) :
    Notes (enter env table) (.ok (env.enter table)) table.toList := by
  intro noted
  rfl

/-- A return statement opens no block, whether its value is looked at or not. -/
theorem notes_return (env : Env) (s : Stream) (returns : ReturnType) (value : Option Node) :
    Notes (statement env (.ret returns value) s) (Generate.statement env (.ret returns value) s)
      [] := by
  have hrest (s : Stream) : Notes
      (liftM (s.write Sequence.epilogue) >>= fun s => Pure.pure (s.comment "<- return"))
      (s.write Sequence.epilogue >>= fun s => .ok (s.comment "<- return")) [] := by
    apply Notes.after
    intro s₁
    exact .pure _
  cases returns with
  | void =>
    simp only [statement, Generate.statement, pure_bind]
    exact hrest _
  | int | array =>
    cases value with
    | none =>
      simp only [statement, Generate.statement, pure_bind]
      exact hrest _
    | some value =>
      simp only [statement, Generate.statement]
      exact .after hrest

mutual

theorem notes_statement (env : Env) (s : Stream) :
    (node : Node) → Notes (statement env node s) (Generate.statement env node s) node.opened
  | .function name returns body => .throw _ _
  | .compound table body => by
    rw [statement, Generate.statement]
    have henter := (notes_enter env table).bind
      (g := fun env => Generate.statements env body (s.comment "-> compound") >>= fun s =>
        Pure.pure (s.comment "<- compound"))
      fun env => (notes_statements env _ body).last fun _ => .pure _
    exact henter
  | .branch test thenPart elsePart => by
    rw [statement, Generate.statement]
    apply Notes.after
    intro s₁
    apply Notes.after
    intro s₂
    apply (notes_statement env _ thenPart).bind
    intro s₃
    apply Notes.after
    intro s₄
    apply Notes.after
    intro s₅
    apply (notes_optional env s₅ elsePart).last
    intro s₆
    apply Notes.after
    intro s₇
    exact .pure _
  | .loop test body => by
    rw [statement, Generate.statement]
    apply Notes.after
    intro s₁
    apply Notes.after
    intro s₂
    apply (notes_statement env _ body).last
    intro s₃
    apply Notes.after
    intro s₄
    apply Notes.after
    intro s₅
    exact .pure _
  | .ret returns value => notes_return env s returns value
  | .number value => .lift _
  | .var name => .lift _
  | .element name index => .lift _
  | .assign target value => .lift _
  | .binary op left right => .lift _
  | .call name args => .lift _

theorem notes_statements (env : Env) (s : Stream) : (nodes : List Node) →
    Notes (statements env nodes s) (Generate.statements env nodes s) (Node.openedAll nodes)
  | [] => .pure s
  | node :: rest => by
    rw [statements, Generate.statements]
    apply (notes_statement env s node).bind
    intro s₁
    exact notes_statements env s₁ rest

theorem notes_optional (env : Env) (s : Stream) : (node : Option Node) →
    Notes (optional env node s) (Generate.optional env node s) (Node.openedOptional node)
  | none => .pure s
  | some node => notes_statement env s node

end

end Watch

theorem Env.scopes_enter (env : Env) (table : Option Table) :
    (env.enter table).scopes = table.toList ++ env.scopes := by
  cases table <;> rfl

theorem Env.resolve_eq_ok {env : Env} {name : String} {v : Variable} :
    env.resolve name = .ok v ↔ env.scopes.lookup name = some v := by
  rw [Env.resolve]
  cases env.scopes.lookup name <;> simp

theorem Node.mem_openedAll {t : Table} {node : Node} {nodes : List Node} (hnode : node ∈ nodes)
    (ht : t ∈ node.opened) : t ∈ openedAll nodes := by
  induction nodes with
  | nil => cases hnode
  | cons first rest ih =>
    rw [openedAll, List.mem_append]
    rcases List.mem_cons.1 hnode with rfl | hnode
    · exact .inl ht
    · exact .inr (ih hnode)

namespace Compile.Contains

variable {env env' : Env} {base k : Nat} {node inner : Node}

/-- The scopes at a statement are those around `node`, behind tables that `node` opens. -/
theorem scopes_eq (h : Contains env base node env' k inner) :
    ∃ pushed, env'.scopes = pushed ++ env.scopes ∧ ∀ t ∈ pushed, t ∈ node.opened := by
  induction h with
  | self => exact ⟨[], rfl, fun t ht => by cases ht⟩
  | @compound env env' base k table before after node inner a hbefore hcontains ih =>
    obtain ⟨pushed, hscopes, hopened⟩ := ih
    refine ⟨pushed ++ table.toList, ?_, ?_⟩
    · rw [hscopes, Env.scopes_enter, List.append_assoc]
    · intro t ht
      rw [Node.opened, List.mem_append]
      rcases List.mem_append.1 ht with ht | ht
      · have hmem : node ∈ before ++ node :: after := List.mem_append_right _ List.mem_cons_self
        exact .inr (Node.mem_openedAll hmem (hopened t ht))
      · exact .inl ht
  | thenPart htest hcontains ih =>
    obtain ⟨pushed, hscopes, hopened⟩ := ih
    exact ⟨pushed, hscopes, fun t ht => List.mem_append_left _ (hopened t ht)⟩
  | elsePart htest hthen hcontains ih =>
    obtain ⟨pushed, hscopes, hopened⟩ := ih
    exact ⟨pushed, hscopes, fun t ht => List.mem_append_right _ (hopened t ht)⟩
  | body htest hcontains ih => exact ih

theorem resolve (h : Contains env base node env' k inner) {name : String} {v : Variable}
    (hv : env'.resolve name = .ok v) :
    (∃ t ∈ node.opened, t.get? name = some v) ∨ env.resolve name = .ok v := by
  obtain ⟨pushed, hscopes, hopened⟩ := h.scopes_eq
  rw [Env.resolve_eq_ok, hscopes, Scopes.lookup, List.findSome?_append, Option.or_eq_some_iff] at hv
  rcases hv with hv | ⟨-, hv⟩
  · obtain ⟨t, ht, hget⟩ := List.exists_of_findSome?_eq_some hv
    exact .inl ⟨t, hopened t ht, hget⟩
  · exact .inr (Env.resolve_eq_ok.2 hv)

end Compile.Contains

namespace Size

theorem le_max_left {a b c : Size} (h : a ≤ b) : a ≤ max b c := by
  rw [UInt64.le_iff_toNat_le] at h ⊢
  rw [Size.toNat_max]
  omega

theorem le_max_right {a b c : Size} (h : a ≤ c) : a ≤ max b c := by
  rw [UInt64.le_iff_toNat_le] at h ⊢
  rw [Size.toNat_max]
  omega

end Size

namespace Node

mutual

theorem size_le_frameSize {t : Table} : (node : Node) → t ∈ node.opened → t.size ≤ node.frameSize
  | compound none statements, h => Size.le_max_left (size_le_largestFrame statements h)
  | compound (some own) statements, h => by
    rcases List.mem_cons.1 h with rfl | h
    · exact Size.le_max_right (UInt64.le_refl _)
    · exact Size.le_max_left (size_le_largestFrame statements h)
  | branch test thenPart elsePart, h => by
    rcases List.mem_append.1 h with h | h
    · exact Size.le_max_left (size_le_frameSize thenPart h)
    · exact Size.le_max_right (size_le_optionalFrame elsePart h)
  | loop test body, h => size_le_frameSize body h
  | function .., h | ret .., h | number .., h | var .., h | element .., h | assign .., h
  | binary .., h | call .., h => by cases h

theorem size_le_largestFrame {t : Table} :
    (nodes : List Node) → t ∈ openedAll nodes → t.size ≤ largestFrame nodes
  | [], h => by cases h
  | node :: rest, h => by
    rcases List.mem_append.1 h with h | h
    · exact Size.le_max_left (size_le_frameSize node h)
    · exact Size.le_max_right (size_le_largestFrame rest h)

theorem size_le_optionalFrame {t : Table} :
    (node : Option Node) → t ∈ openedOptional node → t.size ≤ optionalFrame node
  | none, h => by cases h
  | some node, h => size_le_frameSize node h

end

end Node

namespace Machine

variable {code : Code} {m m' : Machine} {k : Nat}

/-- A prologue leaves `sp` as far below `bp` as the frame is large. -/
theorem sp_of_prologue {locals : Size} {lines : List Line}
    (hlines : Sequence.prologue locals = .ok lines) (hsmall : locals.toNat < 2147483648)
    (hcode : code.Holds k (lines.map (·.toOperation))) (hpc : (m.get .pc).toInt = k)
    (h : Runs code 4 m m') : (m'.get .sp).toInt = (m'.get .bp).toInt - locals.toNat := by
  simp only [Sequence.prologue, bind_eq_ok, pure_eq_ok] at hlines
  obtain ⟨displacement, hneg, rfl⟩ := hlines
  have hopening : Compile.prologue locals = .ok (Compile.push .bp ++
      [.memory .lda .bp 0 .sp, .memory .lda .sp displacement .sp]) := by
    rw [Compile.prologue, hneg]
    rfl
  obtain _ | ⟨hstep₁, _ | ⟨hstep₂, _ | ⟨hstep₃, _ | ⟨hstep₄, h⟩⟩⟩⟩ := h
  cases h
  obtain ⟨-, hpc₁⟩ := step_of_holds (j := 0) hcode rfl rfl hpc hstep₁
  obtain ⟨-, hpc₂⟩ := step_of_holds (j := 1) hcode rfl rfl hpc₁ hstep₂
  obtain ⟨-, hheight⟩ := Compile.height_of_prologue hopening hsmall hcode hpc₂ hstep₃ hstep₄
  rw [height] at hheight
  omega

end Machine

/-- The table was made in an empty block, by declarations of local variables that got `holdings`. -/
def Table.Declares (t : Table) (holdings : List Holding) : Prop :=
  ∃ (outer : Option Table) (declarations : List Declaration),
    (∀ d ∈ declarations, d.suits .block = true) ∧
      (Stmt.root outer).extend declarations = .ok ⟨t, holdings⟩

namespace Table.Declares

variable {t : Table} {holdings : List Holding}

theorem get?_iff (h : t.Declares holdings) (name : String) (v : Variable) :
    t.get? name = some v ↔ ∃ x ∈ holdings, x.name = name ∧ x.symbol = v := by
  obtain ⟨outer, declarations, -, hextend⟩ := h
  obtain ⟨-, -, hget⟩ := get?_extend hextend
  rw [hget, Stmt.get?_root]
  simp

theorem tiles (h : t.Declares holdings) (hsmall : t.size.toNat < 2147483646) :
    ∃ n, Tiles .block n holdings t.size.toNat := by
  obtain ⟨outer, declarations, hsuits, hextend⟩ := h
  obtain ⟨-, htiles⟩ := tiles_extend hextend (Stmt.scope_root outer ▸ hsuits) hsmall
  rw [Stmt.scope_root] at htiles
  exact ⟨_, htiles⟩

end Table.Declares

/-- Translation of a body pushes no table that is larger than the frame of the body, and the frame
is empty or as large as one of the tables. A name that a statement of the body resolves stands in
one of these tables or was visible around the body. So when the tables were made by declarations,
all cells of their variables lie in the frame, at or above where the prologue puts the top of the
stack. -/
theorem Node.frame_covers_opened {env : Env} {body : Node} {s s' : Stream}
    (h : Generate.statement env body s = .ok s') :
    ∃ opened, (Watch.statement env body s).run [] = .ok (s', opened) ∧
      (∀ t ∈ opened, t.size ≤ body.frameSize) ∧
      (body.frameSize = 0 ∨ ∃ t ∈ opened, body.frameSize = t.size) ∧
      (∀ base env' k inner, Compile.Contains env base body env' k inner →
        ∀ name v, env'.resolve name = .ok v →
          (∃ t ∈ opened, t.get? name = some v) ∨ env.resolve name = .ok v) ∧
      ((∀ t ∈ opened, t.size.toNat < 2147483646) →
        ∀ t ∈ opened, ∀ holdings, t.Declares holdings →
          (∀ name v, t.get? name = some v ↔ ∃ x ∈ holdings, x.name = name ∧ x.symbol = v) ∧
          (∀ x ∈ holdings, ∃ cells, x.cells = .ok cells) ∧
          (∀ m : Machine, Visible.Within ⟨t, holdings⟩ m
            ((m.get .bp).toInt - body.frameSize.toNat) ((m.get .bp).toInt - 1)) ∧
          ∀ (code : Code) (k : Nat) (lines : List Line) (m m' : Machine),
            Sequence.prologue body.frameSize = .ok lines →
            code.Holds k (lines.map (·.toOperation)) → (m.get .pc).toInt = k →
            Machine.Runs code 4 m m' →
            Visible.Within ⟨t, holdings⟩ m' (m'.get .sp).toInt ((m'.get .bp).toInt - 1)) := by
  have hnotes := Watch.notes_statement env s body []
  rw [h, List.nil_append] at hnotes
  refine ⟨body.opened, hnotes, fun t => body.size_le_frameSize, body.frameSize_isExtent_opened,
    fun _ _ _ _ hcontains _ _ => hcontains.resolve, ?_⟩
  intro hsmall t ht holdings hdeclares
  obtain ⟨n, htiles⟩ := hdeclares.tiles (hsmall t ht)
  have hle := UInt64.le_iff_toNat_le.1 (body.size_le_frameSize ht)
  have hframe : body.frameSize.toNat < 2147483646 := by
    rcases body.frameSize_isExtent_opened with hzero | ⟨u, hu, hsize⟩
    · rw [hzero]
      decide
    · rw [hsize]
      exact hsmall u hu
  have hwithin (m : Machine) : Visible.Within ⟨t, holdings⟩ m
      ((m.get .bp).toInt - body.frameSize.toNat) ((m.get .bp).toInt - 1) := by
    apply Visible.within_of_tiles htiles
    intro i _ hi
    rw [Scope.address_block]
    omega
  refine ⟨hdeclares.get?_iff, fun x hx => htiles.isOk hx, hwithin, ?_⟩
  intro code k lines m m' hlines hcode hpc hruns
  rw [Machine.sp_of_prologue hlines (by omega) hcode hpc hruns]
  exact hwithin m'

/-- The block of a scalar inside the block of a scalar and an array, with an assignment to each. -/
def Node.nesting (outer inner : Table) : Node :=
  .compound (some outer) [
    .branch (.number 1) (.compound (some inner) [
      .assign (.var "t") (.var "i"),
      .assign (.element "a" (.var "t")) (.number 7)]) none,
    .assign (.var "i") (.number 2)]

/-- The prologue of a frame of five cells. -/
def Code.fiveCells : Code where
  slots := #[some ⟨.memory .lda .sp (-1) .sp, 0, none⟩, some ⟨.memory .st .bp 0 .sp, 1, none⟩,
    some ⟨.memory .lda .bp 0 .sp, 2, none⟩, some ⟨.memory .lda .sp (-5) .sp, 3, none⟩]
  comments := []
  entries := .empty

theorem Node.nesting_covered :
    ∃ outer inner s' opened m', (Stmt.root none).extend [.int "i", .array "a" 3] = .ok outer ∧
      (Stmt.root (some outer.table)).extend [.int "t"] = .ok inner ∧
      (Watch.statement ⟨.empty, .empty, []⟩ (.nesting outer.table inner.table)
        (.new false)).run [] = .ok (s', opened) ∧
      (∃ env' k, Compile.Contains ⟨.empty, .empty, []⟩ 0 (.nesting outer.table inner.table) env' k
          (.assign (.var "t") (.var "i")) ∧
        ∀ name ∈ ["t", "i", "a"], ∃ v, env'.resolve name = .ok v ∧
          ∃ t ∈ opened, t.get? name = some v) ∧
      inner.table ∈ opened ∧ Machine.Runs .fiveCells 4 ((Machine.start []).set .sp 1000) m' ∧
      (m'.get .sp).toInt = 994 ∧ Visible.Within inner m' 994 998 := by
  have hchecks : ((Stmt.root none).extend [.int "i", .array "a" 3]).toOption.any (fun outer =>
      outer.table.size = 4 &&
        ((Stmt.root (some outer.table)).extend [.int "t"]).toOption.any fun inner =>
          inner.table.size = 5 && (["t", "i", "a"].all fun name =>
            ((⟨.empty, .empty, [inner.table, outer.table]⟩ : Env).resolve name).toOption.isSome) &&
          (Generate.statement ⟨.empty, .empty, []⟩
            (.nesting outer.table inner.table) (.new false)).toOption.isSome) = true := by
    decide +kernel
  have hruns : (Machine.after? .fiveCells 4 ((Machine.start []).set .sp 1000)).any (fun m =>
      (m.get .sp).toInt = 994 && (m.get .bp).toInt = 999) = true := by
    decide +kernel
  obtain ⟨outer, houter, hchecks⟩ := (Option.any_eq_true _ _).1 hchecks
  rw [Bool.and_eq_true, decide_eq_true_eq] at hchecks
  obtain ⟨hfour, hchecks⟩ := hchecks
  obtain ⟨inner, hinner, hchecks⟩ := (Option.any_eq_true _ _).1 hchecks
  rw [Bool.and_eq_true, Bool.and_eq_true, decide_eq_true_eq, List.all_eq_true] at hchecks
  obtain ⟨⟨hfive, hnames⟩, hchecks⟩ := hchecks
  obtain ⟨s', hs'⟩ := Option.isSome_iff_exists.1 hchecks
  obtain ⟨m', hm', hregisters⟩ := (Option.any_eq_true _ _).1 hruns
  rw [Bool.and_eq_true, decide_eq_true_eq, decide_eq_true_eq] at hregisters
  have houter := eq_ok_of_toOption houter
  have hinner := eq_ok_of_toOption hinner
  have hm' := Machine.runs_iff_after?.2 hm'
  obtain ⟨opened, hwatch, hle, -, hvisible, hcells⟩ :=
    Node.frame_covers_opened (eq_ok_of_toOption hs')
  have hopened : opened = [outer.table, inner.table] := by
    have := Watch.notes_statement ⟨.empty, .empty, []⟩ (.new false)
      (.nesting outer.table inner.table) []
    rw [hwatch, eq_ok_of_toOption hs'] at this
    cases this
    rfl
  subst hopened
  have hcontains : Compile.Contains ⟨.empty, .empty, []⟩ 0 (.nesting outer.table inner.table)
      ⟨.empty, .empty, [inner.table, outer.table]⟩ 2 (.assign (.var "t") (.var "i")) :=
    @Compile.Contains.compound _ _ _ _ _ [] _ _ _ [] rfl
      (.thenPart rfl (@Compile.Contains.compound _ _ _ _ _ [] _ _ _ [] rfl .self))
  have hsmall : ∀ t ∈ [outer.table, inner.table], t.size.toNat < 2147483646 := by
    simp [hfour, hfive]
  have hframe : (Node.nesting outer.table inner.table).frameSize = 5 := by
    simp only [Node.nesting, Node.frameSize, Node.largestFrame, Node.optionalFrame, hfour, hfive]
    decide
  have hprologue : Sequence.prologue (Node.nesting outer.table inner.table).frameSize =
      .ok [.memory .lda .sp (-1) .sp "push prepare", .memory .st .bp 0 .sp "push old bp",
        .memory .lda .bp 0 .sp "let bp == sp",
        .memory .lda .sp (-5) .sp "allocate for local variables"] := by
    rw [hframe]
    rfl
  have hholds : Code.fiveCells.Holds 0 ([.memory .lda .sp (-1) .sp, .memory .st .bp 0 .sp,
      .memory .lda .bp 0 .sp, .memory .lda .sp (-5) .sp] : List Operation) := by
    intro i op hop
    match i, hop with
    | 0, hop | 1, hop | 2, hop | 3, hop => exact hop
  obtain ⟨-, -, -, hwithin⟩ := hcells hsmall inner.table (by simp) inner.holdings
    ⟨some outer.table, _, by decide, hinner⟩
  have hwithin := hwithin .fiveCells 0 _ _ m' hprologue hholds rfl hm'
  rw [hregisters.1, hregisters.2] at hwithin
  refine ⟨outer, inner, s', _, m', houter, hinner, hwatch, ⟨_, _, hcontains, ?_⟩, by simp, hm',
    hregisters.1, hwithin⟩
  intro name hname
  obtain ⟨v, hv⟩ := Option.isSome_iff_exists.1 (hnames name hname)
  have hv := eq_ok_of_toOption hv
  rcases hvisible _ _ _ _ hcontains name v hv with htable | hnone
  · exact ⟨v, hv, htable⟩
  · cases hnone

end CMinus
