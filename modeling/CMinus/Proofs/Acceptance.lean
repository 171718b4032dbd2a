import CMinus.Proofs.Image
import CMinus.Proofs.Word
import CMinus.Proofs.WellFormed

namespace CMinus

namespace Compile

theorem address_isOk {v : Variable} (h : v.offset.toNat < 2147483646) :
    ∃ ops, address v = .ok ops := by
  have hlow : v.offset.low.toInt = v.offset.toNat := Size.toInt_low (by omega)
  obtain ⟨m, hneg, -⟩ := Word.neg_isOk (a := v.offset.low) (by omega)
  obtain ⟨a, hadd, -⟩ := Word.add_isOk (a := 2) (b := v.offset.low)
    (by rw [hlow]; exact ⟨by simp; omega, by simp; omega⟩)
  have hlocate : ∃ location, v.locate = .ok location := by
    rw [Variable.locate]
    split
    case h_2 | h_4 => exact ⟨_, rfl⟩
    all_goals
      simp only [hneg, hadd, ok_bind]
      exact ⟨_, rfl⟩
  obtain ⟨location, hlocate⟩ := hlocate
  exact ⟨_, by rw [address, hlocate]; rfl⟩

theorem neg_low_isOk {n : Size} (h : n.toNat < 2147483648) : ∃ w, n.low.neg = .ok w := by
  obtain ⟨w, hw, -⟩ := Word.neg_isOk (a := n.low) (by rw [Size.toInt_low h]; omega)
  exact ⟨w, hw⟩

section Environment

variable {env : Env} {callable : List String}

theorem place_isOk_iff (hsmall : ∀ t ∈ env.scopes, t.Small) {name : String} :
    (∃ r, place env name = .ok r) ↔ env.scopes.Declares name := by
  rw [← Scopes.exists_lookup_iff]
  simp only [place, Env.resolve]
  constructor
  · rintro ⟨r, h⟩
    split at h
    · next v hv => exact ⟨v, hv⟩
    · cases h
  · rintro ⟨v, hv⟩
    obtain ⟨t, ht, hget⟩ := Scopes.mem_of_lookup hv
    obtain ⟨ops, hops⟩ := address_isOk ((hsmall t ht).2 name v hget)
    rw [hv]
    simp only [ok_bind, hops, mapError_ok]
    exact ⟨_, rfl⟩

theorem entry_isOk_iff (hcallable : ∀ name, env.entries.contains name = true ↔ name ∈ callable)
    {name : String} : (∃ e, env.entry name = .ok e) ↔ name ∈ callable := by
  rw [← hcallable, NameMap.contains, Env.entry]
  cases env.entries.get? name with
  | some e => simp
  | none =>
    simp only [Option.isSome_none, Bool.false_eq_true, iff_false, not_exists]
    intro e
    split <;> simp

mutual

theorem expression_isOk_iff (hsmall : ∀ t ∈ env.scopes, t.Small)
    (hcallable : ∀ name, env.entries.contains name = true ↔ name ∈ callable) (access : Access) :
    (node : Node) →
      ((∃ ops, expression env access node = .ok ops) ↔ IsExpression callable env.scopes node)
  | .number value => ⟨fun _ => .number value, fun _ => ⟨_, rfl⟩⟩
  | .var name => by
    simp only [expression, bind_eq_ok, pure_eq_ok]
    constructor
    · rintro ⟨_, r, hr, _⟩
      exact .var ((place_isOk_iff hsmall).1 ⟨r, hr⟩)
    · rintro (_ | hname)
      obtain ⟨r, hr⟩ := (place_isOk_iff hsmall).2 hname
      exact ⟨_, r, hr, rfl⟩
  | .element name index => by
    have hindex := expression_isOk_iff hsmall hcallable .value index
    simp only [expression, bind_eq_ok, pure_eq_ok]
    constructor
    · rintro ⟨_, r, hr, i, hi, _⟩
      exact .element ((place_isOk_iff hsmall).1 ⟨r, hr⟩) (hindex.1 ⟨i, hi⟩)
    · rintro (_ | _ | ⟨hname, hi⟩)
      obtain ⟨r, hr⟩ := (place_isOk_iff hsmall).2 hname
      obtain ⟨i, hi⟩ := hindex.2 hi
      exact ⟨_, r, hr, i, hi, rfl⟩
  | .assign target value => by
    have htarget := expression_isOk_iff hsmall hcallable .address target
    have hvalue := expression_isOk_iff hsmall hcallable .value value
    rw [expression]
    by_cases hplace : target.isPlace = true
    · simp only [if_pos hplace, bind_eq_ok, pure_eq_ok]
      constructor
      · rintro ⟨_, t, ht, v, hv, _⟩
        exact .assign hplace (htarget.1 ⟨t, ht⟩) (hvalue.1 ⟨v, hv⟩)
      · rintro (_ | _ | _ | ⟨_, ht, hv⟩)
        obtain ⟨t, ht⟩ := htarget.2 ht
        obtain ⟨v, hv⟩ := hvalue.2 hv
        exact ⟨_, t, ht, v, hv, rfl⟩
    · rw [if_neg hplace]
      constructor
      · rintro ⟨_, h⟩
        cases h
      · rintro (_ | _ | _ | ⟨h, _, _⟩)
        exact absurd h hplace
  | .binary op left right => by
    have hleft := expression_isOk_iff hsmall hcallable .value left
    have hright := expression_isOk_iff hsmall hcallable .value right
    simp only [expression, bind_eq_ok, pure_eq_ok]
    constructor
    · rintro ⟨_, l, hl, r, hr, _⟩
      exact .binary (hleft.1 ⟨l, hl⟩) (hright.1 ⟨r, hr⟩)
    · intro h
      cases h with
      | binary hl hr =>
        obtain ⟨l, hl⟩ := hleft.2 hl
        obtain ⟨r, hr⟩ := hright.2 hr
        exact ⟨_, l, hl, r, hr, rfl⟩
  | .call name args => by
    have hargs := arguments_isOk_iff hsmall hcallable args
    simp only [expression, bind_eq_ok, pure_eq_ok]
    constructor
    · rintro ⟨_, e, he, a, ha, _⟩
      exact .call ((entry_isOk_iff hcallable).1 ⟨e, he⟩) (hargs.1 ⟨a, ha⟩)
    · intro h
      cases h with
      | call hname ha =>
        obtain ⟨e, he⟩ := (entry_isOk_iff hcallable).2 hname
        obtain ⟨a, ha⟩ := hargs.2 ha
        exact ⟨_, e, he, a, ha, rfl⟩
  | .function .. | .compound .. | .branch .. | .loop .. | .ret .. =>
    ⟨fun ⟨_, h⟩ => (nomatch h), fun h => (nomatch h)⟩

theorem arguments_isOk_iff (hsmall : ∀ t ∈ env.scopes, t.Small)
    (hcallable : ∀ name, env.entries.contains name = true ↔ name ∈ callable) :
    (args : List Node) →
      ((∃ ops, arguments env args = .ok ops) ↔
        ∀ arg ∈ args, IsExpression callable env.scopes arg)
  | [] => ⟨fun _ _ h => (nomatch h), fun _ => ⟨_, rfl⟩⟩
  | arg :: rest => by
    have harg := expression_isOk_iff hsmall hcallable .value arg
    have hrest := arguments_isOk_iff hsmall hcallable rest
    simp only [arguments, bind_eq_ok, pure_eq_ok, List.forall_mem_cons, ← harg, ← hrest]
    constructor
    · rintro ⟨_, r, hr, a, ha, _⟩
      exact ⟨⟨a, ha⟩, r, hr⟩
    · rintro ⟨⟨a, ha⟩, r, hr⟩
      exact ⟨_, r, hr, a, ha, rfl⟩

end

end Environment

theorem scopes_enter (env : Env) (table : Option Table) :
    (env.enter table).scopes = env.scopes.enter table := by
  cases table <;> rfl

theorem entries_enter (env : Env) (table : Option Table) :
    (env.enter table).entries = env.entries := by
  cases table <;> rfl

theorem forall_mem_enter {T : Table → Prop} {scopes : Scopes} {table : Option Table}
    (hscopes : ∀ t ∈ scopes, T t) (htable : ∀ t ∈ table, T t) : ∀ t ∈ scopes.enter table, T t := by
  cases table with
  | none => exact hscopes
  | some t => exact List.forall_mem_cons.2 ⟨htable t rfl, hscopes⟩

theorem isStatement_iff_of_plain {callable : List String} {scopes : Scopes} {node : Node}
    (h : IsStatement callable scopes node → IsExpression callable scopes node) :
    IsExpression callable scopes node ↔ IsStatement callable scopes node :=
  ⟨.expression, h⟩

theorem returned_isOk_iff {env : Env} {callable : List String}
    (hsmall : ∀ t ∈ env.scopes, t.Small)
    (hcallable : ∀ name, env.entries.contains name = true ↔ name ∈ callable)
    (returns : ReturnType) (value : Option Node) :
    (∃ ops, returned env returns value = .ok ops) ↔
      IsStatement callable env.scopes (.ret returns value) := by
  cases returns with
  | void => exact ⟨fun _ => .retVoid value, fun _ => ⟨_, rfl⟩⟩
  | int | array =>
    cases value with
    | none =>
      refine ⟨fun _ => .ret (by decide) ?_, fun _ => ⟨_, rfl⟩⟩
      rintro node ⟨⟩
    | some value =>
      have hvalue := expression_isOk_iff hsmall hcallable .value value
      rw [returned, hvalue]
      constructor
      · intro h
        refine .ret (by decide) ?_
        rintro node ⟨⟩
        exact h
      · intro h
        cases h with
        | expression h => cases h
        | ret _ h => exact h value rfl

mutual

theorem statement_isOk_iff {env : Env} {callable : List String} (base : Nat)
    (hsmall : ∀ t ∈ env.scopes, t.Small)
    (hcallable : ∀ name, env.entries.contains name = true ↔ name ∈ callable) :
    (node : Node) → (∀ t ∈ node.tables, t.Small) →
      ((∃ ops, statement env base node = .ok ops) ↔ IsStatement callable env.scopes node)
  | .function .., _ => by
    constructor
    · rintro ⟨_, h⟩
      cases h
    · intro h
      cases h with
      | expression h => cases h
  | .compound table body, htables => by
    simp only [Node.tables, List.mem_append, Option.mem_toList, or_imp, forall_and] at htables
    have hinner := forall_mem_enter hsmall htables.1
    rw [← scopes_enter] at hinner
    have hbody := statements_isOk_iff base hinner
      (by rwa [entries_enter]) body htables.2
    rw [statement, hbody, scopes_enter]
    constructor
    · exact .compound
    · intro h
      cases h with
      | expression h => cases h
      | compound h => exact h
  | .branch test thenPart elsePart, htables => by
    simp only [Node.tables, List.mem_append, or_imp, forall_and] at htables
    obtain ⟨⟨-, hthenTables⟩, helseTables⟩ := htables
    have htest := expression_isOk_iff hsmall hcallable .value test
    have hthen (base : Nat) := statement_isOk_iff base hsmall hcallable thenPart hthenTables
    have helse (base : Nat) := optional_isOk_iff base hsmall hcallable elsePart helseTables
    simp only [statement, bind_eq_ok, pure_eq_ok]
    constructor
    · rintro ⟨_, t, ht, a, ha, b, hb, _⟩
      exact .branch (htest.1 ⟨t, ht⟩) ((hthen _).1 ⟨a, ha⟩) ((helse _).1 ⟨b, hb⟩)
    · intro h
      cases h with
      | expression h => cases h
      | branch ht ha hb =>
        obtain ⟨t, ht⟩ := htest.2 ht
        obtain ⟨a, ha⟩ := (hthen _).2 ha
        obtain ⟨b, hb⟩ := (helse _).2 hb
        exact ⟨_, t, ht, a, ha, b, hb, rfl⟩
  | .loop test body, htables => by
    simp only [Node.tables, List.mem_append, or_imp, forall_and] at htables
    have htest := expression_isOk_iff hsmall hcallable .value test
    have hbody (base : Nat) := statement_isOk_iff base hsmall hcallable body htables.2
    simp only [statement, bind_eq_ok, pure_eq_ok]
    constructor
    · rintro ⟨_, t, ht, b, hb, _⟩
      exact .loop (htest.1 ⟨t, ht⟩) ((hbody _).1 ⟨b, hb⟩)
    · intro h
      cases h with
      | expression h => cases h
      | loop ht hb =>
        obtain ⟨t, ht⟩ := htest.2 ht
        obtain ⟨b, hb⟩ := (hbody _).2 hb
        exact ⟨_, t, ht, b, hb, rfl⟩
  | .ret returns value, _ => by
    rw [← returned_isOk_iff hsmall hcallable]
    simp only [statement, bind_eq_ok, pure_eq_ok]
    exact ⟨fun ⟨_, v, hv, _⟩ => ⟨v, hv⟩, fun ⟨v, hv⟩ => ⟨_, v, hv, rfl⟩⟩
  | .number value, _ => by
    rw [← isStatement_iff_of_plain fun | .expression h => h]
    exact expression_isOk_iff hsmall hcallable .value (.number value)
  | .var name, _ => by
    rw [← isStatement_iff_of_plain fun | .expression h => h]
    exact expression_isOk_iff hsmall hcallable .value (.var name)
  | .element name index, _ => by
    rw [← isStatement_iff_of_plain fun | .expression h => h]
    exact expression_isOk_iff hsmall hcallable .value (.element name index)
  | .assign target value, _ => by
    rw [← isStatement_iff_of_plain fun | .expression h => h]
    exact expression_isOk_iff hsmall hcallable .value (.assign target value)
  | .binary op left right, _ => by
    rw [← isStatement_iff_of_plain fun | .expression h => h]
    exact expression_isOk_iff hsmall hcallable .value (.binary op left right)
  | .call name args, _ => by
    rw [← isStatement_iff_of_plain fun | .expression h => h]
    exact expression_isOk_iff hsmall hcallable .value (.call name args)

theorem statements_isOk_iff {env : Env} {callable : List String} (base : Nat)
    (hsmall : ∀ t ∈ env.scopes, t.Small)
    (hcallable : ∀ name, env.entries.contains name = true ↔ name ∈ callable) :
    (nodes : List Node) → (∀ t ∈ Node.tablesAll nodes, t.Small) →
      ((∃ ops, statements env base nodes = .ok ops) ↔
        ∀ node ∈ nodes, IsStatement callable env.scopes node)
  | [], _ => ⟨fun _ _ h => (nomatch h), fun _ => ⟨_, rfl⟩⟩
  | node :: rest, htables => by
    simp only [Node.tablesAll, List.mem_append, or_imp, forall_and] at htables
    have hnode := statement_isOk_iff base hsmall hcallable node htables.1
    have hrest (base : Nat) := statements_isOk_iff base hsmall hcallable rest htables.2
    simp only [statements, bind_eq_ok, pure_eq_ok, List.forall_mem_cons, ← hnode]
    constructor
    · rintro ⟨_, a, ha, b, hb, _⟩
      exact ⟨⟨a, ha⟩, (hrest _).1 ⟨b, hb⟩⟩
    · rintro ⟨⟨a, ha⟩, hb⟩
      obtain ⟨b, hb⟩ := (hrest _).2 hb
      exact ⟨_, a, ha, b, hb, rfl⟩

theorem optional_isOk_iff {env : Env} {callable : List String} (base : Nat)
    (hsmall : ∀ t ∈ env.scopes, t.Small)
    (hcallable : ∀ name, env.entries.contains name = true ↔ name ∈ callable) :
    (node : Option Node) → (∀ t ∈ Node.tablesOptional node, t.Small) →
      ((∃ ops, optional env base node = .ok ops) ↔
        ∀ n ∈ node, IsStatement callable env.scopes n)
  | none, _ => ⟨fun _ _ h => (nomatch h), fun _ => ⟨_, rfl⟩⟩
  | some node, htables => by
    have hnode := statement_isOk_iff base hsmall hcallable node htables
    rw [optional, hnode]
    exact ⟨fun h n hn => Option.mem_some.1 hn ▸ h, fun h => h node rfl⟩

end

section Failing

variable {Q : Failure → Prop} {T : Table → Prop}

/-- The failures that compilation can meet: rejections, and overflows at the sizes and the
variables of the tables that it looks into. -/
structure Covers (Q : Failure → Prop) (T : Table → Prop) : Prop where
  rejected : ∀ reason, (∀ a h, reason ≠ .backpatch a h) → Q (.rejected reason)
  offset : ∀ t, T t → ∀ name v o, t.get? name = some v → v.locate = .error o → Q (.ofOverflow o)
  size : ∀ n : Size, (n = 0 ∨ ∃ t, T t ∧ n = t.size) → ∀ o, n.low.neg = .error o → Q (.ofOverflow o)

theorem fails_place (hQ : Covers Q T) {env : Env} (henv : ∀ t ∈ env.scopes, T t)
    (name : String) : Fails Q (place env name) := by
  rw [place, Env.resolve]
  split
  · next v hv =>
    rw [ok_bind]
    refine .bind ?_ fun _ => .ok _
    rw [address]
    cases hlocate : v.locate with
    | ok location => exact .ok _
    | error o =>
      obtain ⟨t, ht, hget⟩ := Scopes.mem_of_lookup hv
      exact .error (hQ.offset t (henv t ht) name v o hget hlocate)
  · exact .error (hQ.rejected _ (by simp))

theorem fails_entry (hQ : Covers Q T) (env : Env) (name : String) : Fails Q (env.entry name) := by
  rw [Env.entry]
  split
  · exact .ok _
  · split <;> exact .error (hQ.rejected _ (by simp))

mutual

theorem fails_expression (hQ : Covers Q T) {env : Env} (henv : ∀ t ∈ env.scopes, T t)
    (access : Access) : (node : Node) → Fails Q (expression env access node)
  | .number value => .ok _
  | .var name => by
    rw [expression]
    exact .bind (fails_place hQ henv name) fun _ => .ok _
  | .element name index => by
    rw [expression]
    refine .bind (fails_place hQ henv name) fun _ => ?_
    exact .bind (fails_expression hQ henv .value index) fun _ => .ok _
  | .assign target value => by
    rw [expression]
    split
    · refine .bind (fails_expression hQ henv .address target) fun _ => ?_
      exact .bind (fails_expression hQ henv .value value) fun _ => .ok _
    · exact .error (hQ.rejected _ (by simp))
  | .binary op left right => by
    rw [expression]
    refine .bind (fails_expression hQ henv .value left) fun _ => ?_
    exact .bind (fails_expression hQ henv .value right) fun _ => .ok _
  | .call name args => by
    rw [expression]
    refine .bind (fails_entry hQ env name) fun _ => ?_
    exact .bind (fails_arguments hQ henv args) fun _ => .ok _
  | .function .. | .compound .. | .branch .. | .loop .. | .ret .. =>
    .error (hQ.rejected _ (by simp))

theorem fails_arguments (hQ : Covers Q T) {env : Env} (henv : ∀ t ∈ env.scopes, T t) :
    (args : List Node) → Fails Q (arguments env args)
  | [] => .ok _
  | arg :: rest => by
    rw [arguments]
    refine .bind (fails_arguments hQ henv rest) fun _ => ?_
    exact .bind (fails_expression hQ henv .value arg) fun _ => .ok _

end

theorem fails_returned (hQ : Covers Q T) {env : Env} (henv : ∀ t ∈ env.scopes, T t)
    (returns : ReturnType) (value : Option Node) : Fails Q (returned env returns value) := by
  cases returns with
  | void => exact .ok _
  | int | array =>
    cases value with
    | none => exact .ok _
    | some value => exact fails_expression hQ henv .value value

mutual

theorem fails_statement (hQ : Covers Q T) {env : Env} (base : Nat)
    (henv : ∀ t ∈ env.scopes, T t) :
    (node : Node) → (∀ t ∈ node.tables, T t) → Fails Q (statement env base node)
  | .function .., _ => .error (hQ.rejected _ (by simp))
  | .compound table body, htables => by
    simp only [Node.tables, List.mem_append, Option.mem_toList, or_imp, forall_and] at htables
    have hinner := forall_mem_enter henv htables.1
    rw [← scopes_enter] at hinner
    exact fails_statements hQ base hinner body htables.2
  | .branch test thenPart elsePart, htables => by
    simp only [Node.tables, List.mem_append, or_imp, forall_and] at htables
    rw [statement]
    refine .bind (fails_expression hQ henv .value test) fun _ => ?_
    refine .bind (fails_statement hQ _ henv thenPart htables.1.2) fun _ => ?_
    exact .bind (fails_optional hQ _ henv elsePart htables.2) fun _ => .ok _
  | .loop test body, htables => by
    simp only [Node.tables, List.mem_append, or_imp, forall_and] at htables
    rw [statement]
    refine .bind (fails_expression hQ henv .value test) fun _ => ?_
    exact .bind (fails_statement hQ _ henv body htables.2) fun _ => .ok _
  | .ret returns value, _ => by
    rw [statement]
    exact .bind (fails_returned hQ henv returns value) fun _ => .ok _
  | .number value, _ => fails_expression hQ henv .value (.number value)
  | .var name, _ => fails_expression hQ henv .value (.var name)
  | .element name index, _ => fails_expression hQ henv .value (.element name index)
  | .assign target value, _ => fails_expression hQ henv .value (.assign target value)
  | .binary op left right, _ => fails_expression hQ henv .value (.binary op left right)
  | .call name args, _ => fails_expression hQ henv .value (.call name args)

theorem fails_statements (hQ : Covers Q T) {env : Env} (base : Nat)
    (henv : ∀ t ∈ env.scopes, T t) :
    (nodes : List Node) → (∀ t ∈ Node.tablesAll nodes, T t) → Fails Q (statements env base nodes)
  | [], _ => .ok _
  | node :: rest, htables => by
    simp only [Node.tablesAll, List.mem_append, or_imp, forall_and] at htables
    rw [statements]
    refine .bind (fails_statement hQ _ henv node htables.1) fun _ => ?_
    exact .bind (fails_statements hQ _ henv rest htables.2) fun _ => .ok _

theorem fails_optional (hQ : Covers Q T) {env : Env} (base : Nat)
    (henv : ∀ t ∈ env.scopes, T t) :
    (node : Option Node) → (∀ t ∈ Node.tablesOptional node, T t) →
      Fails Q (optional env base node)
  | none, _ => .ok _
  | some node, htables => fails_statement hQ base henv node htables

end

theorem fails_prologue (hQ : Covers Q T) {body : Node} (htables : ∀ t ∈ body.tables, T t) :
    Fails Q ((prologue body.frameSize).mapError .ofOverflow) := by
  have hsize : body.frameSize = 0 ∨ ∃ t, T t ∧ body.frameSize = t.size := by
    rcases body.frameSize_isExtent with h | ⟨t, ht, h⟩
    · exact .inl h
    · exact .inr ⟨t, htables t ht, h⟩
  rw [prologue]
  cases hneg : body.frameSize.low.neg with
  | ok w => exact .ok _
  | error o => exact .error (hQ.size _ hsize o hneg)

theorem fails_preamble (hQ : Covers Q T) {globals : Table} (hglobals : T globals) :
    Fails Q ((preamble globals.size).mapError .ofOverflow) := by
  rw [preamble]
  cases hneg : globals.size.low.neg with
  | ok w => exact .ok _
  | error o => exact .error (hQ.size _ (.inr ⟨globals, hglobals, rfl⟩) o hneg)

variable {p : Program}

theorem fails_declaration (hQ : Covers Q T) (hglobals : T p.globals)
    (hparams : ∀ name signature, p.signature? name = some signature → T signature.params)
    (entries : NameMap Entry) (base : Nat) (node : Node) (htables : ∀ t ∈ node.tables, T t) :
    Fails Q (declaration p entries base node) := by
  cases node with
  | function name returns body =>
    rw [declaration, routine]
    split
    · next signature hsignature =>
      split
      · exact .error (hQ.rejected _ (by simp))
      · refine .bind (fails_prologue hQ htables) fun _ => ?_
        refine .bind (fails_statement hQ _ ?_ body htables) fun _ => .ok _
        simpa using ⟨hparams name signature hsignature, hglobals⟩
    · exact .error (hQ.rejected _ (by simp))
  | _ => exact .error (hQ.rejected _ (by simp))

theorem fails_declarations (hQ : Covers Q T) (hglobals : T p.globals)
    (hparams : ∀ name signature, p.signature? name = some signature → T signature.params)
    (entries : NameMap Entry) (base : Nat) (nodes : List Node)
    (htables : ∀ t ∈ Node.tablesAll nodes, T t) :
    Fails Q (declarations p entries base nodes) := by
  induction nodes generalizing entries base with
  | nil => exact .ok _
  | cons node rest ih =>
    simp only [Node.tablesAll, List.mem_append, or_imp, forall_and] at htables
    rw [declarations]
    refine .bind (fails_declaration hQ hglobals hparams entries base node htables.1) fun _ => ?_
    exact .bind (ih _ _ htables.2) fun _ => .ok _

theorem fails_compile (hQ : Covers Q T) (hglobals : T p.globals)
    (hparams : ∀ name signature, p.signature? name = some signature → T signature.params)
    (htables : ∀ t ∈ Node.tablesAll p.declarations, T t) : Fails Q p.compile := by
  rw [Program.compile]
  refine .bind (fails_preamble hQ hglobals) fun _ => ?_
  refine .bind (fails_declarations hQ hglobals hparams _ _ _ htables) fun _ => ?_
  exact .bind (fails_entry hQ _ _) fun _ => .ok _

end Failing

/-- Without any bound on sizes, compilation never fails at a slot that cannot be filled. -/
theorem covers_genuine :
    Covers (fun e => ∀ a h, e ≠ .rejected (.backpatch a h)) fun _ => True where
  rejected _ hreason a h heq := hreason a h (Failure.rejected.inj heq)
  offset _ _ _ _ _ _ _ _ _ heq := nomatch heq
  size _ _ _ _ _ _ heq := nomatch heq

/-- With small tables, compilation fails by rejection only. -/
theorem covers_rejected : Covers (fun e => ∃ reason, e = .rejected reason) Table.Small where
  rejected reason _ := ⟨reason, rfl⟩
  offset t ht name v o hget hlocate := by
    obtain ⟨ops, hops⟩ := address_isOk (ht.2 name v hget)
    simp only [address, hlocate, error_bind] at hops
    cases hops
  size n hn o hneg := by
    have hsmall : n.toNat < 2147483648 := by
      rcases hn with rfl | ⟨t, ht, rfl⟩
      · decide
      · have := ht.1
        omega
    obtain ⟨w, hw⟩ := neg_low_isOk hsmall
    rw [hw] at hneg
    cases hneg

section Declarations

variable {p : Program} {earlier : List String}

theorem admits_cons_iff {node : Node} {rest : List Node} :
    p.Admits earlier (node :: rest) ↔
      ∃ name returns body signature, node = .function name returns body ∧
        p.signature? name = some signature ∧ name ∉ earlier ∧
        IsStatement (earlier ++ [name]) [signature.params, p.globals] body ∧
        p.Admits (earlier ++ [name]) rest := by
  constructor
  · intro h
    obtain ⟨name, returns, body, rfl, hsome, hnew⟩ := h.functions node List.mem_cons_self
    obtain ⟨signature, hsignature⟩ := Option.isSome_iff_exists.1 hsome
    have hdistinct := h.distinct
    simp only [List.filterMap_cons, Node.functionName, List.nodup_cons] at hdistinct
    refine ⟨name, returns, body, signature, rfl, hsignature, hnew, ?_, ?_, hdistinct.2, ?_⟩
    · simpa using h.bodies [] name returns body rest signature rfl hsignature
    · intro other hother
      obtain ⟨key, returns', body', rfl, hsome', hnew'⟩ :=
        h.functions other (List.mem_cons_of_mem _ hother)
      refine ⟨key, returns', body', rfl, hsome', ?_⟩
      have hkey : key ∈ rest.filterMap Node.functionName :=
        List.mem_filterMap.2 ⟨_, hother, rfl⟩
      simp only [List.mem_append, List.mem_singleton, not_or]
      exact ⟨hnew', fun heq => hdistinct.1 (heq ▸ hkey)⟩
    · intro before key returns' body' after signature' hrest hsignature'
      have := h.bodies (.function name returns body :: before) key returns' body' after signature'
        (by rw [hrest, List.cons_append]) hsignature'
      simpa [Node.functionName] using this
  · rintro ⟨name, returns, body, signature, rfl, hsignature, hnew, hbody, h⟩
    refine ⟨?_, ?_, ?_⟩
    · intro node hnode
      rcases List.mem_cons.1 hnode with rfl | hnode
      · exact ⟨name, returns, body, rfl, Option.isSome_iff_exists.2 ⟨_, hsignature⟩, hnew⟩
      · obtain ⟨key, returns', body', rfl, hsome', hnew'⟩ := h.functions node hnode
        exact ⟨key, returns', body', rfl, hsome',
          fun hkey => hnew' (List.mem_append_left _ hkey)⟩
    · simp only [List.filterMap_cons, Node.functionName, List.nodup_cons]
      refine ⟨?_, h.distinct⟩
      intro hname
      obtain ⟨node, hnode, hkey⟩ := List.mem_filterMap.1 hname
      obtain ⟨key, returns', body', rfl, -, hnew'⟩ := h.functions node hnode
      cases hkey
      exact hnew' (List.mem_append_right _ (List.mem_singleton_self _))
    · intro before key returns' body' after signature' heq hsignature'
      cases before with
      | nil =>
        simp only [List.nil_append, List.cons.injEq, Node.function.injEq] at heq
        obtain ⟨⟨rfl, rfl, rfl⟩, rfl⟩ := heq
        rw [hsignature] at hsignature'
        cases hsignature'
        simpa using hbody
      | cons first before =>
        simp only [List.cons_append, List.cons.injEq] at heq
        obtain ⟨rfl, rfl⟩ := heq
        have := h.bodies before key returns' body' after signature' rfl hsignature'
        simpa [Node.functionName] using this

theorem contains_insert_iff {entries : NameMap Entry}
    (hearlier : ∀ name, entries.contains name = true ↔ name ∈ earlier) (key : String)
    (entry : Entry) (name : String) :
    (entries.insert key entry).contains name = true ↔ name ∈ earlier ++ [key] := by
  simp only [NameMap.contains, NameMap.get?_insert, List.mem_append, List.mem_singleton,
    ← hearlier]
  by_cases hname : name = key <;> simp [hname]

theorem frameSize_small {body : Node} (htables : ∀ t ∈ body.tables, t.Small) :
    body.frameSize.toNat < 2147483648 := by
  rcases body.frameSize_isExtent with h | ⟨t, ht, h⟩
  · rw [h]
    decide
  · have := (htables t ht).1
    rw [h]
    omega

theorem declaration_isOk {entries : NameMap Entry} (base : Nat) {name : String}
    (returns : ReturnType) {body : Node} {signature : Signature}
    (hsignature : p.signature? name = some signature) (hnew : entries.contains name = false)
    (hframe : body.frameSize.toNat < 2147483648)
    (hbody : ∃ code, statement ⟨p.functions, entries.insert name ⟨base, signature.paramCount⟩,
      [signature.params, p.globals]⟩ (base + 4) body = .ok code) :
    ∃ r, declaration p entries base (.function name returns body) =
      .ok (entries.insert name ⟨base, signature.paramCount⟩, r) := by
  obtain ⟨w, hw⟩ := neg_low_isOk hframe
  have hopening : ∃ opening, prologue body.frameSize = .ok opening :=
    ⟨_, by rw [prologue, hw]; rfl⟩
  obtain ⟨opening, hopening⟩ := hopening
  obtain ⟨code, hcode⟩ := hbody
  rw [← length_prologue hopening] at hcode
  refine ⟨⟨name, ⟨base, signature.paramCount⟩, opening, code, closing returns⟩, ?_⟩
  rw [declaration, routine, hsignature]
  simp only [hnew, Bool.false_eq_true, if_false, hopening, mapError_ok, ok_bind, hcode]
  rfl

theorem declarations_isOk_iff (hglobals : p.globals.Small)
    (hparams : ∀ name signature, p.signature? name = some signature → signature.params.Small)
    (base : Nat) {entries : NameMap Entry}
    (hearlier : ∀ name, entries.contains name = true ↔ name ∈ earlier) (nodes : List Node)
    (htables : ∀ t ∈ Node.tablesAll nodes, t.Small) :
    (∃ r, declarations p entries base nodes = .ok r) ↔ p.Admits earlier nodes := by
  induction nodes generalizing entries base earlier with
  | nil =>
    refine ⟨fun _ => ⟨?_, List.nodup_nil, ?_⟩, fun _ => ⟨_, rfl⟩⟩
    · rintro node ⟨⟩
    · intro before name returns body after signature heq
      simp at heq
  | cons node rest ih =>
    simp only [Node.tablesAll, List.mem_append, or_imp, forall_and] at htables
    rw [admits_cons_iff]
    constructor
    · rintro ⟨⟨entries', routines⟩, h⟩
      obtain ⟨entries₁, r, routines₁, hnode, hrest, rfl⟩ := declarations_cons_eq_ok h
      obtain ⟨name, returns, body, signature, opening, code, rfl, hsignature, hnew, rfl, -, hcode,
        rfl⟩ := declaration_eq_ok hnode
      have hcallable := contains_insert_iff hearlier name ⟨base, signature.paramCount⟩
      refine ⟨name, returns, body, signature, rfl, hsignature, ?_, ?_, ?_⟩
      · rw [← hearlier, hnew]
        exact Bool.false_ne_true
      · refine (statement_isOk_iff _ ?_ hcallable body htables.1).1 ⟨code, hcode⟩
        simpa using ⟨hparams name signature hsignature, hglobals⟩
      · exact (ih _ hcallable htables.2).1 ⟨_, hrest⟩
    · rintro ⟨name, returns, body, signature, rfl, hsignature, hnew, hbody, hrest⟩
      have hcallable := contains_insert_iff hearlier name ⟨base, signature.paramCount⟩
      rw [← hearlier, Bool.not_eq_true] at hnew
      have hscopes : ∀ t ∈ [signature.params, p.globals], t.Small := by
        simpa using ⟨hparams name signature hsignature, hglobals⟩
      have hblocks : ∀ t ∈ body.tables, t.Small := htables.1
      let env : Env := ⟨p.functions, entries.insert name ⟨base, signature.paramCount⟩,
        [signature.params, p.globals]⟩
      have hcode : ∃ code, statement env (base + 4) body = .ok code :=
        (statement_isOk_iff (base + 4) hscopes hcallable body hblocks).2 hbody
      obtain ⟨r, hr⟩ := declaration_isOk base returns hsignature hnew (frameSize_small hblocks) hcode
      obtain ⟨⟨entries', routines⟩, hrest⟩ :=
        (ih (base + r.code.length) hcallable htables.2).2 hrest
      refine ⟨(entries', r :: routines), ?_⟩
      simp only [declarations, hr, ok_bind, hrest]
      rfl

theorem contains_declarations {entries entries' : NameMap Entry} {base : Nat} {nodes : List Node}
    {routines : List Routine} (h : declarations p entries base nodes = .ok (entries', routines))
    (name : String) :
    entries'.contains name = true ↔
      entries.contains name = true ∨ name ∈ nodes.filterMap Node.functionName := by
  induction nodes generalizing entries base routines with
  | nil =>
    cases h
    simp
  | cons node rest ih =>
    obtain ⟨entries₁, r, routines₁, hnode, hrest, rfl⟩ := declarations_cons_eq_ok h
    obtain ⟨key, returns, body, signature, -, -, rfl, -, -, rfl, -⟩ := declaration_eq_ok hnode
    rw [ih hrest, NameMap.contains, NameMap.contains, NameMap.get?_insert]
    by_cases hname : name = key <;> simp [hname, Node.functionName]

end Declarations

end Compile

namespace Program

open Compile

theorem contains_intrinsics_iff (name : String) :
    intrinsics.contains name = true ↔ name ∈ ["input", "output"] := by
  simp only [intrinsics, NameMap.contains, NameMap.get?_insert, NameMap.get?_empty]
  by_cases hinput : name = "input" <;> by_cases houtput : name = "output" <;>
    simp [hinput, houtput]

theorem mem_functionNames_iff {name : String} {nodes : List Node} :
    name ∈ nodes.filterMap Node.functionName ↔
      ∃ returns body, .function name returns body ∈ nodes := by
  rw [List.mem_filterMap]
  constructor
  · rintro ⟨node, hnode, hname⟩
    cases node with
    | function key returns body =>
      cases hname
      exact ⟨returns, body, hnode⟩
    | _ => cases hname
  · rintro ⟨returns, body, hnode⟩
    exact ⟨_, hnode, rfl⟩

theorem entry_main_isOk_iff {p : Program} {entries : NameMap Entry} {routines : List Routine}
    (h : Compile.declarations p intrinsics routinesBase p.declarations = .ok (entries, routines)) :
    (∃ e, Env.entry ⟨p.functions, entries, []⟩ "main" = .ok e) ↔
      ∃ returns body, .function "main" returns body ∈ p.declarations := by
  have hcallable (name : String) : entries.contains name = true ↔
      name ∈ ["input", "output"] ++ p.declarations.filterMap Node.functionName := by
    rw [contains_declarations h, contains_intrinsics_iff, List.mem_append]
  rw [entry_isOk_iff hcallable, ← mem_functionNames_iff, List.mem_append]
  simp

theorem compile_isOk_iff {p : Program} (h : p.Small) :
    (∃ image, p.compile = .ok image) ↔ p.WellFormed := by
  have hdecls := declarations_isOk_iff h.globals h.params routinesBase contains_intrinsics_iff
    p.declarations h.blocks
  simp only [compile, bind_eq_ok, mapError_eq_ok, pure_eq_ok]
  constructor
  · rintro ⟨_, _, _, ⟨entries, routines⟩, hd, main, he, _⟩
    exact ⟨hdecls.1 ⟨_, hd⟩, (entry_main_isOk_iff hd).1 ⟨main, he⟩⟩
  · rintro ⟨hadmits, hm⟩
    obtain ⟨⟨entries, routines⟩, hd⟩ := hdecls.2 hadmits
    obtain ⟨main, he⟩ := (entry_main_isOk_iff hd).2 hm
    have hsize := h.globals.1
    obtain ⟨w, hw⟩ := neg_low_isOk (n := p.globals.size) (by omega)
    exact ⟨_, _, by rw [preamble, hw]; rfl, _, hd, main, he, rfl⟩

/-- Acceptance is well-formedness. A program that is too large for its code to have 64-bit addresses
is left out: no memory with such addresses holds its tree. -/
theorem generate_isOk_iff_wellFormed (p : Program) (trace : Bool) :
    (p.Small → p.longest < Size.limit →
      ((∃ code, p.generate trace = .ok code) ↔ p.WellFormed) ∧
      (¬ p.WellFormed → ∃ reason, p.generate trace = .error (.rejected reason))) ∧
    ∀ address highWater, p.generate trace ≠ .error (.rejected (.backpatch address highWater)) := by
  have hfollows := p.generate_follows trace
  refine ⟨fun hsmall hlongest => ?_, ?_⟩
  · have hiff := compile_isOk_iff hsmall
    cases hg : p.generate trace with
    | ok code =>
      rw [hg] at hfollows
      obtain ⟨image, hc, -⟩ := hfollows
      have hwf := hiff.1 ⟨image, hc⟩
      exact ⟨⟨fun _ => hwf, fun _ => ⟨code, rfl⟩⟩, fun h => absurd hwf h⟩
    | error e =>
      rw [hg] at hfollows
      obtain hc | ⟨-, hlong⟩ := hfollows
      · obtain ⟨reason, rfl⟩ :=
          fails_compile covers_rejected hsmall.globals hsmall.params hsmall.blocks e hc
        have hwf : ¬ p.WellFormed := by
          intro h
          obtain ⟨image, hok⟩ := hiff.2 h
          rw [hc] at hok
          cases hok
        exact ⟨⟨fun ⟨_, h⟩ => (nomatch h), fun h => absurd h hwf⟩, fun _ => ⟨reason, rfl⟩⟩
      · omega
  · intro address highWater hg
    rw [hg] at hfollows
    obtain hc | ⟨h, -⟩ := hfollows
    · exact fails_compile covers_genuine trivial (fun _ _ _ => trivial) (fun _ _ => trivial) _ hc
        address highWater rfl
    · cases h

theorem countdown_small : countdown.Small where
  globals := Table.small_of_entries (by decide) (by decide +kernel)
  params name signature h := by
    obtain ⟨-, rfl⟩ := countdown_signature h
    exact Table.small_of_entries (by decide) (by decide +kernel)
  blocks t ht := by
    cases ht with
    | head => exact Table.small_of_entries (by decide) (by decide +kernel)
    | tail _ h => cases h

theorem countdown_wellFormed :
    countdown.Small ∧ countdown.longest < Size.limit ∧ countdown.WellFormed := by
  have hlongest : countdown.longest < Size.limit := by decide +kernel
  obtain ⟨hiff, -⟩ := (generate_isOk_iff_wellFormed countdown false).1 countdown_small hlongest
  exact ⟨countdown_small, hlongest, hiff.1 (countdown_isOk false)⟩

end Program

end CMinus
