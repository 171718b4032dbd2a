import CMinus.Proofs.Layout

namespace CMinus

/-- `env'` sees the variables that `env` sees and can call what `env` can call. -/
structure Env.Extends (env env' : Env) : Prop where
  scopes : env'.scopes = env.scopes
  entries : ∀ name e, env.entries.get? name = some e → env'.entries.get? name = some e

namespace Env.Extends

variable {env env' : Env}

theorem resolve (h : env.Extends env') (name : String) : env'.resolve name = env.resolve name := by
  rw [Env.resolve, Env.resolve, h.scopes]

theorem entry (h : env.Extends env') {name : String} {e : Entry} (he : env.entry name = .ok e) :
    env'.entry name = .ok e := by
  rw [Env.entry, h.entries name e (Compile.get?_of_entry he)]

theorem enter (h : env.Extends env') (table : Option Table) :
    (env.enter table).Extends (env'.enter table) := by
  cases table with
  | none => exact h
  | some t => exact ⟨congrArg (t :: ·) h.scopes, h.entries⟩

end Env.Extends

namespace Compile

theorem place_extends {env env' : Env} (h : env.Extends env') (name : String) :
    place env' name = place env name := by
  rw [place, place, h.resolve]

mutual

/-- Code that was compiled where less is known is compiled the same where more is known. -/
theorem expression_extends {env env' : Env} (h : env.Extends env') {access : Access}
    {ops : List Operation} :
    (node : Node) → expression env access node = .ok ops → expression env' access node = .ok ops
  | .number _, hops => hops
  | .var name, hops => by
    rw [expression, place_extends h]
    exact hops
  | .element name index, hops => by
    simp only [expression, bind_eq_ok, pure_eq_ok, place_extends h] at hops ⊢
    obtain ⟨target, hplace, i, hindex, rfl⟩ := hops
    exact ⟨target, hplace, i, expression_extends h index hindex, rfl⟩
  | .assign target value, hops => by
    rw [expression] at hops ⊢
    split at hops
    · next hplace =>
      simp only [if_pos hplace, bind_eq_ok, pure_eq_ok] at hops ⊢
      obtain ⟨t, htarget, v, hvalue, rfl⟩ := hops
      exact ⟨t, expression_extends h target htarget, v, expression_extends h value hvalue, rfl⟩
    · cases hops
  | .binary op left right, hops => by
    simp only [expression, bind_eq_ok, pure_eq_ok] at hops ⊢
    obtain ⟨l, hleft, r, hright, rfl⟩ := hops
    exact ⟨l, expression_extends h left hleft, r, expression_extends h right hright, rfl⟩
  | .call name args, hops => by
    simp only [expression, bind_eq_ok, pure_eq_ok] at hops ⊢
    obtain ⟨e, hentry, a, hargs, rfl⟩ := hops
    exact ⟨e, h.entry hentry, a, arguments_extends h args hargs, rfl⟩
  | .function .., hops | .compound .., hops | .branch .., hops | .loop .., hops
  | .ret .., hops => by cases hops

theorem arguments_extends {env env' : Env} (h : env.Extends env') {ops : List Operation} :
    (args : List Node) → arguments env args = .ok ops → arguments env' args = .ok ops
  | [], hops => hops
  | arg :: rest, hops => by
    simp only [arguments, bind_eq_ok, pure_eq_ok] at hops ⊢
    obtain ⟨r, hrest, a, harg, rfl⟩ := hops
    exact ⟨r, arguments_extends h rest hrest, a, expression_extends h arg harg, rfl⟩

end

theorem returned_extends {env env' : Env} (h : env.Extends env') {returns : ReturnType}
    {value : Option Node} {ops : List Operation} (hops : returned env returns value = .ok ops) :
    returned env' returns value = .ok ops := by
  cases value with
  | none => cases returns <;> exact hops
  | some value =>
    cases returns with
    | void => exact hops
    | int | array => exact expression_extends h value hops

mutual

theorem statement_extends {env env' : Env} (h : env.Extends env') {base : Nat}
    {ops : List Operation} :
    (node : Node) → statement env base node = .ok ops → statement env' base node = .ok ops
  | .function .., hops => nomatch hops
  | .compound table body, hops => statements_extends (h.enter table) body hops
  | .branch test thenPart elsePart, hops => by
    simp only [statement, bind_eq_ok, pure_eq_ok] at hops ⊢
    obtain ⟨t, htest, a, hthen, b, helse, rfl⟩ := hops
    exact ⟨t, expression_extends h test htest, a, statement_extends h thenPart hthen, b,
      optional_extends h elsePart helse, rfl⟩
  | .loop test body, hops => by
    simp only [statement, bind_eq_ok, pure_eq_ok] at hops ⊢
    obtain ⟨t, htest, b, hbody, rfl⟩ := hops
    exact ⟨t, expression_extends h test htest, b, statement_extends h body hbody, rfl⟩
  | .ret returns value, hops => by
    simp only [statement, bind_eq_ok, pure_eq_ok] at hops ⊢
    obtain ⟨v, hvalue, rfl⟩ := hops
    exact ⟨v, returned_extends h hvalue, rfl⟩
  | .number _, hops | .var _, hops | .element _ _, hops | .assign _ _, hops
  | .binary _ _ _, hops | .call _ _, hops => expression_extends h _ hops

theorem statements_extends {env env' : Env} (h : env.Extends env') {base : Nat}
    {ops : List Operation} :
    (nodes : List Node) → statements env base nodes = .ok ops → statements env' base nodes = .ok ops
  | [], hops => hops
  | node :: rest, hops => by
    simp only [statements, bind_eq_ok, pure_eq_ok] at hops ⊢
    obtain ⟨a, hnode, b, hrest, rfl⟩ := hops
    exact ⟨a, statement_extends h node hnode, b, statements_extends h rest hrest, rfl⟩

theorem optional_extends {env env' : Env} (h : env.Extends env') {base : Nat}
    {ops : List Operation} :
    (node : Option Node) → optional env base node = .ok ops → optional env' base node = .ok ops
  | none, hops => hops
  | some node, hops => statement_extends h node hops

end

end Compile

/-- `p'` has the variables of `p`, the signatures of `p` and perhaps more under other names, and the
declarations of `p` before any others. -/
structure Program.Extends (p p' : Program) : Prop where
  globals : p'.globals = p.globals
  functions : ∀ name signature, p.signature? name = some signature →
    p'.signature? name = some signature
  declarations : p.declarations <+: p'.declarations

namespace Compile

variable {p p' : Program} {entries entries' : NameMap Entry} {base : Nat}

theorem declaration_extends (h : p.Extends p') {node : Node} {r : Routine}
    (hr : declaration p entries base node = .ok (entries', r)) :
    declaration p' entries base node = .ok (entries', r) := by
  obtain ⟨name, returns, body, signature, opening, code, rfl, hsignature, hnew, rfl, hopening,
    hcode, rfl⟩ := declaration_eq_ok hr
  have henv : Env.Extends
      ⟨p.functions, entries.insert name ⟨base, signature.paramCount⟩, [signature.params, p.globals]⟩
      ⟨p'.functions, entries.insert name ⟨base, signature.paramCount⟩,
        [signature.params, p'.globals]⟩ :=
    ⟨by rw [h.globals], fun _ _ he => he⟩
  have hcode := statement_extends henv body hcode
  rw [declaration, routine, h.functions name signature hsignature]
  simp only [hnew, hopening, hcode, mapError_ok, ok_bind]
  rfl

theorem declarations_extends (h : p.Extends p') {nodes : List Node} {routines : List Routine}
    (hrs : declarations p entries base nodes = .ok (entries', routines)) :
    declarations p' entries base nodes = .ok (entries', routines) := by
  induction nodes generalizing entries base routines with
  | nil => exact hrs
  | cons node rest ih =>
    obtain ⟨entries₁, r, routines₁, hnode, hrest, rfl⟩ := declarations_cons_eq_ok hrs
    simp only [declarations, declaration_extends h hnode, ih hrest, ok_bind]
    rfl

theorem declarations_append_eq_ok {nodes more : List Node} {routines : List Routine}
    (h : declarations p entries base (nodes ++ more) = .ok (entries', routines)) :
    ∃ entries₁ before after, declarations p entries base nodes = .ok (entries₁, before) ∧
      declarations p entries₁ (base + (before.flatMap Routine.code).length) more =
        .ok (entries', after) ∧
      routines = before ++ after := by
  induction nodes generalizing entries base routines with
  | nil => exact ⟨entries, [], routines, rfl, h, rfl⟩
  | cons node rest ih =>
    obtain ⟨entries₁, r, routines₁, hnode, hrest, rfl⟩ := declarations_cons_eq_ok h
    obtain ⟨entries₂, before, after, hbefore, hafter, rfl⟩ := ih hrest
    refine ⟨entries₂, r :: before, after, ?_, ?_, rfl⟩
    · simp only [declarations, hnode, hbefore, ok_bind]
      rfl
    · rw [List.flatMap_cons, List.length_append, ← Nat.add_assoc]
      exact hafter

end Compile

/-- `image'` is `image` with further routines behind its own. -/
structure Image.Extends (image image' : Image) : Prop where
  prelude : image'.prelude = image.prelude
  main : image'.main = image.main
  routines : image.routines <+: image'.routines

namespace Image.Extends

variable {image image' : Image}

theorem operations (h : image.Extends image') : image.operations <+: image'.operations := by
  obtain ⟨more, hmore⟩ := h.routines
  refine ⟨more.flatMap Routine.code, ?_⟩
  simp only [Image.operations, ← hmore, h.prelude, h.main, List.flatMap_append, List.append_assoc]

theorem entry? (h : image.Extends image') {name : String} {e : Entry}
    (he : image.entry? name = some e) : image'.entry? name = some e := by
  obtain ⟨more, hmore⟩ := h.routines
  rw [Image.entry?] at he ⊢
  split
  · next hinput => rwa [if_pos hinput] at he
  · next hinput =>
    rw [if_neg hinput] at he
    split
    · next houtput => rwa [if_pos houtput] at he
    · next houtput =>
      rw [if_neg houtput] at he
      obtain ⟨r, hfind, hr⟩ := Option.map_eq_some_iff.1 he
      rw [← hmore, List.find?_append, hfind, Option.some_or, Option.map_some, hr]

end Image.Extends

namespace Program

open Compile

variable {p p' : Program}

/-- The image of a program is the beginning of that of every extension. The call of `main`, which
is written last, goes to the same function. -/
theorem Extends.image (h : p.Extends p') {image image' : Image} (hc : p.compile = .ok image)
    (hc' : p'.compile = .ok image') : image.Extends image' := by
  obtain ⟨hprelude, entries, hdecls, hmain⟩ := compile_eq_ok hc
  obtain ⟨hprelude', entries', hdecls', hmain'⟩ := compile_eq_ok hc'
  obtain ⟨more, hmore⟩ := h.declarations
  rw [← hmore] at hdecls'
  obtain ⟨entries₁, before, after, hbefore, hafter, hroutines⟩ := declarations_append_eq_ok hdecls'
  cases (declarations_extends h hdecls).symm.trans hbefore
  refine ⟨?_, ?_, after, hroutines.symm⟩
  · rw [h.globals, hprelude] at hprelude'
    exact (Except.ok.inj hprelude').symm
  · have hkept := get?_declarations hafter (get?_of_entry hmain)
    exact Option.some.inj ((get?_of_entry hmain').symm.trans hkept)

/-- Appending code changes no earlier code: every slot of the shorter code holds the same operation
in the longer code, and every function starts where it started. -/
theorem code_of_extends (h : p.Extends p') {trace trace' : Bool} {code code' : Code}
    (hcode : p.generate trace = .ok code) (hcode' : p'.generate trace' = .ok code') :
    code.size ≤ code'.size ∧
      (∀ a < code.size, ∃ i i', code.get? a = some i ∧ code'.get? a = some i' ∧
        i'.toOperation = i.toOperation) ∧
      ∀ name address, code.entry? name = some address → code'.entry? name = some address := by
  have hfollows := p.generate_follows trace
  rw [hcode] at hfollows
  obtain ⟨image, hcompile, hfills⟩ := hfollows
  have hfollows' := p'.generate_follows trace'
  rw [hcode'] at hfollows'
  obtain ⟨image', hcompile', hfills'⟩ := hfollows'
  have himage := h.image hcompile hcompile'
  obtain ⟨more, hmore⟩ := himage.operations
  refine ⟨?_, ?_, ?_⟩
  · rw [hfills.size, hfills'.size, ← hmore, List.length_append]
    exact Nat.le_add_right ..
  · intro a ha
    rw [hfills.size] at ha
    have hop := List.getElem?_eq_getElem ha
    have hop' : image'.operations[a]? = some image.operations[a] := by
      rw [← hmore, List.getElem?_append_left ha, hop]
    have hslot := hfills.holds a _ hop
    have hslot' := hfills'.holds a _ hop'
    rw [Nat.zero_add] at hslot hslot'
    obtain ⟨i, hi, hiop⟩ := Option.map_eq_some_iff.1 hslot
    obtain ⟨i', hi', hiop'⟩ := Option.map_eq_some_iff.1 hslot'
    exact ⟨i, i', hi, hi', hiop'.trans hiop.symm⟩
  · intro name address hentry
    rw [hfills.entry, Option.map_eq_some_iff] at hentry
    obtain ⟨e, he, rfl⟩ := hentry
    rw [hfills'.entry, himage.entry? he, Option.map_some]

/-- `countdown` with a function behind `main` that calls it again. -/
def countdownTwice : Program where
  globals := countdown.globals
  functions := countdown.functions.insert "again" ⟨.void, .new .param⟩
  declarations := countdown.declarations ++ [
    .function "again" .void (.compound none [.call "main" [], .call "main" []])]

theorem countdownTwice_keeps_code :
    ∃ code code', countdown.generate true = .ok code ∧ countdownTwice.generate false = .ok code' ∧
      countdown.Extends countdownTwice ∧ code.size < code'.size ∧
      (∀ a < code.size, ∃ i i', code.get? a = some i ∧ code'.get? a = some i' ∧
        i'.toOperation = i.toOperation) ∧
      ∀ name address, code.entry? name = some address → code'.entry? name = some address := by
  have hsizes : ((countdown.generate true).toOption.bind fun code =>
      (countdownTwice.generate false).toOption.map fun code' => decide (code.size < code'.size)) =
        some true := by decide +kernel
  obtain ⟨code, hcode⟩ := countdown_isOk true
  have hextends : countdown.Extends countdownTwice := by
    refine ⟨rfl, ?_, List.prefix_append ..⟩
    intro name signature hs
    obtain ⟨rfl, -⟩ := countdown_signature hs
    rw [signature?, countdownTwice, NameMap.get?_insert, if_neg (by decide)]
    exact hs
  cases hcode' : countdownTwice.generate false with
  | error e =>
    rw [hcode, hcode'] at hsizes
    cases hsizes
  | ok code' =>
    rw [hcode, hcode'] at hsizes
    have hlt := of_decide_eq_true (Option.some.inj hsizes)
    obtain ⟨-, hslots, hentries⟩ := code_of_extends hextends hcode hcode'
    exact ⟨code, code', hcode, rfl, hextends, hlt, hslots, hentries⟩

end Program

end CMinus
