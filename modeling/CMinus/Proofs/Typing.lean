import CMinus.Proofs.Reference

namespace CMinus

/-- What kind of variable each visible name stands for; the first one of a name counts. -/
abbrev Kinds := List (String × VarType)

def Item.kind : Item → String × VarType
  | .int name => (name, .int)
  | .array name _ => (name, .array)

namespace Source

/-- The kinds of parameters and the result of a function that can be called. -/
def signature? (s : Source) (name : String) : Option (List VarType × ReturnType) :=
  if name = "input" then some ([], .int)
  else if name = "output" then some ([.int], .void)
  else (s.function? name).map fun f => (f.params.map (·.2), f.returns)

mutual

inductive HasValue (s : Source) (kinds : Kinds) : Node → Prop
  | number (value : Word) : s.HasValue kinds (.number value)
  | var {name : String} : kinds.lookup name = some .int → s.HasValue kinds (.var name)
  | element {name : String} {index : Node} : kinds.lookup name = some .array →
      s.HasValue kinds index → s.HasValue kinds (.element name index)
  | assignVar {name : String} {value : Node} : kinds.lookup name = some .int →
      s.HasValue kinds value → s.HasValue kinds (.assign (.var name) value)
  | assignElement {name : String} {index value : Node} : kinds.lookup name = some .array →
      s.HasValue kinds index → s.HasValue kinds value →
      s.HasValue kinds (.assign (.element name index) value)
  | binary {op : BinaryOp} {left right : Node} : s.HasValue kinds left →
      s.HasValue kinds right → s.HasValue kinds (.binary op left right)
  | call {name : String} {args : List Node} {params : List VarType} {returns : ReturnType} :
      s.signature? name = some (params, returns) → returns ≠ .void →
      s.Passes kinds params args → s.HasValue kinds (.call name args)

/-- Arguments are of the kinds that a function takes. -/
inductive Passes (s : Source) (kinds : Kinds) : List VarType → List Node → Prop
  | nil : s.Passes kinds [] []
  | int {params : List VarType} {arg : Node} {args : List Node} : s.HasValue kinds arg →
      s.Passes kinds params args → s.Passes kinds (.int :: params) (arg :: args)
  | array {params : List VarType} {name : String} {args : List Node} :
      kinds.lookup name = some .array → s.Passes kinds params args →
      s.Passes kinds (.array :: params) (.var name :: args)

end

/-- A statement may stand in a function that returns `returns`. -/
inductive Accepts (s : Source) (returns : ReturnType) : Kinds → Stmt → Prop
  | expression {kinds : Kinds} {e : Node} : s.HasValue kinds e →
      s.Accepts returns kinds (.expression e)
  | call {kinds : Kinds} {name : String} {args : List Node} {params : List VarType}
      {result : ReturnType} : s.signature? name = some (params, result) →
      s.Passes kinds params args → s.Accepts returns kinds (.expression (.call name args))
  | plain {kinds : Kinds} {body : List Stmt} : (∀ stmt ∈ body, s.Accepts returns kinds stmt) →
      s.Accepts returns kinds (.block none body)
  | block {kinds : Kinds} {items : List Item} {body : List Stmt} :
      (∀ stmt ∈ body, s.Accepts returns (items.map Item.kind ++ kinds) stmt) →
      s.Accepts returns kinds (.block (some items) body)
  | branch {kinds : Kinds} {test : Node} {thenPart : Stmt} {elsePart : Option Stmt} :
      s.HasValue kinds test → s.Accepts returns kinds thenPart →
      (∀ stmt ∈ elsePart, s.Accepts returns kinds stmt) →
      s.Accepts returns kinds (.branch test thenPart elsePart)
  | loop {kinds : Kinds} {test : Node} {body : Stmt} : s.HasValue kinds test →
      s.Accepts returns kinds body → s.Accepts returns kinds (.loop test body)
  | leave {kinds : Kinds} : returns = .void → s.Accepts returns kinds (.ret none)
  | give {kinds : Kinds} {e : Node} : returns ≠ .void → s.HasValue kinds e →
      s.Accepts returns kinds (.ret (some e))

/-- Arrays are passed to functions and indexed, and nothing else. Calls give their functions what they
take, and returns give what their functions promise. -/
structure WellTyped (s : Source) : Prop where
  functions : ∀ f ∈ s.functions,
    s.Accepts f.returns (f.params ++ s.globals.map Item.kind) f.body
  main : ∃ returns, s.signature? "main" = some ([], returns)

end Source

def Binding.ty : Binding → VarType
  | scalar _ => .int
  | array .. => .array

namespace Bindings

def kinds (env : Bindings) : Kinds :=
  env.map fun x => (x.1, x.2.ty)

theorem lookup_kinds (env : Bindings) (name : String) :
    env.kinds.lookup name = (env.lookup name).map Binding.ty := by
  induction env with
  | nil => rfl
  | cons x env ih =>
    rw [kinds, List.map_cons, List.lookup_cons, List.lookup_cons]
    cases name == x.1 with
    | true => rfl
    | false => exact ih

theorem kinds_append (env env' : Bindings) : kinds (env ++ env') = env.kinds ++ env'.kinds :=
  List.map_append

theorem kinds_ofItems (n : Nat) (items : List Item) :
    (ofItems n items).kinds = items.map Item.kind := by
  induction items generalizing n with
  | nil => rfl
  | cons item rest ih =>
    rw [ofItems, kinds, List.map_cons, List.map_cons]
    congr 1
    · cases item <;> rfl
    · exact ih _

theorem kinds_ofArguments (n : Nat) {params : List (String × VarType)} {args : List Argument}
    (h : args.map Argument.ty = params.map (·.2)) : (ofArguments n params args).kinds = params := by
  induction params generalizing n args with
  | nil =>
    cases args <;> rfl
  | cons param params ih =>
    obtain ⟨arg, args, rfl, hty, hrest⟩ := List.map_eq_cons_iff.1 h
    rw [ofArguments, kinds, List.map_cons]
    congr 1
    · cases arg <;> exact Prod.ext rfl hty
    · exact ih _ hrest

theorem scalar_of_kinds {env : Bindings} {name : String}
    (h : env.kinds.lookup name = some .int) : ∃ cell, env.scalar name = .ok cell := by
  rw [lookup_kinds, Option.map_eq_some_iff] at h
  obtain ⟨b, hb, hty⟩ := h
  cases b with
  | scalar cell => exact ⟨cell, by rw [scalar, hb]⟩
  | array first length => cases hty

theorem array_of_kinds {env : Bindings} {name : String}
    (h : env.kinds.lookup name = some .array) : ∃ x, env.array name = .ok x := by
  rw [lookup_kinds, Option.map_eq_some_iff] at h
  obtain ⟨b, hb, hty⟩ := h
  cases b with
  | scalar cell => cases hty
  | array first length => exact ⟨(first, length), by rw [array, hb]⟩

end Bindings

/-- The result is a value in `P`, or the interpreter has stopped, but not over types. -/
def Safe {α : Type} (P : α → Prop) : Except Stop α → Prop
  | .ok a => P a
  | .error e => e ≠ .illTyped

namespace Safe

variable {α β : Type} {P : α → Prop} {Q : β → Prop} {r : Except Stop α} {f : α → Except Stop β}

theorem bind (h : Safe P r) (hf : ∀ a, P a → Safe Q (f a)) : Safe Q (r >>= f) := by
  cases r with
  | ok a => exact hf a h
  | error e => exact h

theorem need {room n : Nat} {f : Unit → Except Stop β} (h : Safe Q (f ())) :
    Safe Q (CMinus.need room n >>= f) := by
  rw [CMinus.need]
  split
  · exact h
  · exact fun h => (nomatch h)

theorem read {σ : Store} {cell : Nat} {f : Word → Except Stop β} (h : ∀ w, Safe Q (f w)) :
    Safe Q (σ.read cell >>= f) := by
  rw [Store.read]
  split
  · exact h _
  · exact fun h => (nomatch h)

end Safe

theorem BinaryOp.safe_value (op : BinaryOp) (a b : Word) :
    Safe (fun _ => True) (op.value a b) := by
  cases op with
  | div =>
    rw [value]
    split
    · exact fun h => (nomatch h)
    · cases a.div b with
      | ok w => trivial
      | error o => exact fun h => (nomatch h)
  | _ => trivial

/-- A statement may end this way in a function that returns `returns`. -/
def Flow.Fits (returns : ReturnType) : Flow → Prop
  | next => True
  | returned value => value = none ↔ returns = .void

theorem Flow.Fits.safe_result {returns : ReturnType} {flow : Flow} (h : flow.Fits returns) :
    Safe (fun value => value = none → returns = .void) (flow.result returns) := by
  cases flow with
  | next =>
    cases returns with
    | void => exact fun _ => rfl
    | int | array => exact fun h => (nomatch h)
  | returned value =>
    cases value with
    | none =>
      obtain rfl := h.1 rfl
      exact fun _ => rfl
    | some w =>
      cases returns with
      | void => exact (nomatch h.2 rfl)
      | int | array => exact fun h => (nomatch h)

namespace Source

/-- No part of a well-typed program stops over types. -/
structure Sound (s : Source) (globals : Bindings) (fuel : Nat) : Prop where
  eval : ∀ env room node σ, s.HasValue env.kinds node →
    Safe (fun _ => True) (s.eval globals fuel env room node σ)
  element : ∀ env room name index σ, env.kinds.lookup name = some .array →
    s.HasValue env.kinds index →
    Safe (fun _ => True) (s.element globals fuel env room name index σ)
  arguments : ∀ env room params args σ, s.Passes env.kinds params args →
    Safe (fun x => x.1.map Argument.ty = params) (s.arguments globals fuel env room params args σ)
  invoke : ∀ env room name args σ params returns, s.signature? name = some (params, returns) →
    s.Passes env.kinds params args →
    Safe (fun x => x.1 = none → returns = .void) (s.invoke globals fuel env room name args σ)
  exec : ∀ returns env room stmt σ, s.Accepts returns env.kinds stmt →
    Safe (fun x => x.1.Fits returns) (s.exec globals fuel returns env room stmt σ)
  execAll : ∀ returns env room body σ, (∀ stmt ∈ body, s.Accepts returns env.kinds stmt) →
    Safe (fun x => x.1.Fits returns) (s.execAll globals fuel returns env room body σ)

namespace Sound

variable {s : Source} {globals : Bindings} {fuel : Nat}

theorem eval_succ (ih : s.Sound globals fuel) {env : Bindings} {room : Nat} {node : Node}
    {σ : Store} (h : s.HasValue env.kinds node) :
    Safe (fun _ => True) (s.eval globals (fuel + 1) env room node σ) := by
  cases h with
  | number value =>
    simp only [Source.eval]
    trivial
  | var hname =>
    obtain ⟨cell, hcell⟩ := Bindings.scalar_of_kinds hname
    simp only [Source.eval, hcell]
    exact .read fun w => trivial
  | element hname hindex =>
    simp only [Source.eval]
    exact (ih.element env room _ _ σ hname hindex).bind fun x _ => .read fun w => trivial
  | assignVar hname hvalue =>
    obtain ⟨cell, hcell⟩ := Bindings.scalar_of_kinds hname
    simp only [Source.eval, hcell]
    exact .need ((ih.eval env _ _ σ hvalue).bind fun x _ => trivial)
  | assignElement hname hindex hvalue =>
    simp only [Source.eval]
    refine (ih.element env room _ _ σ hname hindex).bind fun x _ => .need ?_
    exact (ih.eval env _ _ _ hvalue).bind fun y _ => trivial
  | @binary op _ _ hleft hright =>
    simp only [Source.eval]
    refine (ih.eval env room _ σ hleft).bind fun x _ => .need ?_
    refine (ih.eval env _ _ _ hright).bind fun y _ => ?_
    exact (op.safe_value _ _).bind fun w _ => trivial
  | @call name args params returns hname hreturns hargs =>
    simp only [Source.eval]
    refine (ih.invoke env room name args σ params returns hname hargs).bind fun x hx => ?_
    obtain ⟨result, σ'⟩ := x
    cases result with
    | none => exact absurd (hx rfl) hreturns
    | some w => trivial

theorem element_succ (ih : s.Sound globals fuel) {env : Bindings} {room : Nat} {name : String}
    {index : Node} {σ : Store} (hname : env.kinds.lookup name = some .array)
    (hindex : s.HasValue env.kinds index) :
    Safe (fun _ => True) (s.element globals (fuel + 1) env room name index σ) := by
  obtain ⟨x, hx⟩ := Bindings.array_of_kinds hname
  simp only [Source.element, hx]
  refine .need ((ih.eval env _ index σ hindex).bind fun y _ => ?_)
  split
  · trivial
  · intro h
    cases h

theorem arguments_succ (ih : s.Sound globals fuel) {env : Bindings} {room : Nat}
    {params : List VarType} {args : List Node} {σ : Store} (h : s.Passes env.kinds params args) :
    Safe (fun x => x.1.map Argument.ty = params)
      (s.arguments globals (fuel + 1) env room params args σ) := by
  cases h with
  | nil =>
    simp only [Source.arguments]
    rfl
  | int harg hargs =>
    simp only [Source.arguments]
    refine (ih.arguments env room _ _ σ hargs).bind fun x hx => ?_
    refine (ih.eval env _ _ _ harg).bind fun y _ => .need ?_
    exact congrArg (VarType.int :: ·) hx
  | array hname hargs =>
    obtain ⟨cells, hcells⟩ := Bindings.array_of_kinds hname
    simp only [Source.arguments, hcells]
    refine (ih.arguments env room _ _ σ hargs).bind fun x hx => .need ?_
    exact congrArg (VarType.array :: ·) hx

theorem invoke_succ (hs : s.WellTyped) (hglobals : globals.kinds = s.globals.map Item.kind)
    (ih : s.Sound globals fuel) {env : Bindings} {room : Nat} {name : String} {args : List Node}
    {σ : Store} {params : List VarType} {returns : ReturnType}
    (hname : s.signature? name = some (params, returns)) (h : s.Passes env.kinds params args) :
    Safe (fun x => x.1 = none → returns = .void)
      (s.invoke globals (fuel + 1) env room name args σ) := by
  rw [Source.invoke]
  rw [signature?] at hname
  split at hname
  · next hinput =>
    cases hname
    rw [if_pos hinput]
    refine (ih.arguments env room _ args σ h).bind fun x _ => .need ?_
    split
    · intro h
      cases h
    · intro h
      cases h
  · next hinput =>
    rw [if_neg hinput]
    split at hname
    · next houtput =>
      cases hname
      rw [if_pos houtput]
      refine (ih.arguments env room _ args σ h).bind ?_
      rintro ⟨values, σ'⟩ hvalues
      obtain ⟨value, rest, rfl, hty, hrest⟩ := List.map_eq_cons_iff.1 hvalues
      obtain rfl := List.map_eq_nil_iff.1 hrest
      cases value with
      | word w => exact .need fun _ => rfl
      | array first length => cases hty
    · next houtput =>
      rw [if_neg houtput]
      obtain ⟨f, hf, heq⟩ := Option.map_eq_some_iff.1 hname
      cases heq
      simp only [hf]
      refine (ih.arguments env room _ args σ h).bind fun x hx => .need ?_
      have hkinds : Bindings.kinds (Bindings.ofArguments x.2.cells.length f.params x.1 ++ globals) =
          f.params ++ s.globals.map Item.kind := by
        rw [Bindings.kinds_append, Bindings.kinds_ofArguments _ hx, hglobals]
      have haccepts := hs.functions f (List.mem_of_find?_eq_some hf)
      rw [← hkinds] at haccepts
      refine (ih.exec f.returns _ _ f.body _ haccepts).bind fun y hy => ?_
      exact hy.safe_result.bind fun value hvalue => hvalue

theorem exec_succ (ih : s.Sound globals fuel) {returns : ReturnType} {env : Bindings} {room : Nat}
    {stmt : Stmt} {σ : Store} (h : s.Accepts returns env.kinds stmt) :
    Safe (fun x => x.1.Fits returns) (s.exec globals (fuel + 1) returns env room stmt σ) := by
  -- A call as a statement need not have a value, but its function has a signature either way.
  have hcall : ∀ name args params result, s.signature? name = some (params, result) →
      s.Passes env.kinds params args → Safe (fun x => x.1.Fits returns)
        (s.exec globals (fuel + 1) returns env room (.expression (.call name args)) σ) := by
    intro name args params result hname hargs
    simp only [Source.exec]
    exact (ih.invoke env room name args σ params result hname hargs).bind fun x _ => trivial
  cases h with
  | call hname hargs => exact hcall _ _ _ _ hname hargs
  | expression hvalue =>
    have he := hvalue
    cases he with
    | call hname _ hargs => exact hcall _ _ _ _ hname hargs
    | number _ | var _ | element _ _ | assignVar _ _ | assignElement _ _ _ | binary _ _ =>
      simp only [Source.exec]
      exact (ih.eval env room _ σ hvalue).bind fun x _ => trivial
  | plain hbody =>
    simp only [Source.exec]
    exact ih.execAll returns env room _ σ hbody
  | @block _ items body hbody =>
    simp only [Source.exec]
    rw [← Bindings.kinds_ofItems σ.cells.length, ← Bindings.kinds_append] at hbody
    exact (ih.execAll returns _ room body _ hbody).bind fun x hx => hx
  | @branch _ test thenPart elsePart htest hthen helse =>
    simp only [Source.exec]
    refine (ih.eval env room test σ htest).bind fun x _ => ?_
    split
    · cases elsePart with
      | none => trivial
      | some stmt => exact ih.exec returns env room stmt _ (helse stmt rfl)
    · exact ih.exec returns env room thenPart _ hthen
  | @loop _ test body htest hbody =>
    simp only [Source.exec]
    refine (ih.eval env room test σ htest).bind fun x _ => ?_
    split
    · trivial
    · refine (ih.exec returns env room body _ hbody).bind ?_
      rintro ⟨flow, σ'⟩ hflow
      cases flow with
      | next => exact ih.exec returns env room (.loop test body) σ' (.loop htest hbody)
      | returned value => exact hflow
  | leave hreturns =>
    subst hreturns
    simp only [Source.exec]
    exact ⟨fun _ => rfl, fun _ => rfl⟩
  | give hreturns he =>
    cases returns with
    | void => exact absurd rfl hreturns
    | int | array =>
      simp only [Source.exec]
      refine (ih.eval env room _ σ he).bind fun x _ => ?_
      refine ⟨fun h => ?_, fun h => ?_⟩
      · cases h
      · cases h

theorem execAll_succ (ih : s.Sound globals fuel) {returns : ReturnType} {env : Bindings}
    {room : Nat} {body : List Stmt} {σ : Store}
    (h : ∀ stmt ∈ body, s.Accepts returns env.kinds stmt) :
    Safe (fun x => x.1.Fits returns) (s.execAll globals (fuel + 1) returns env room body σ) := by
  cases body with
  | nil =>
    simp only [Source.execAll]
    trivial
  | cons stmt rest =>
    simp only [Source.execAll]
    refine (ih.exec returns env room stmt σ (h stmt List.mem_cons_self)).bind ?_
    rintro ⟨flow, σ'⟩ hflow
    cases flow with
    | next => exact ih.execAll returns env room rest σ' fun _ hm => h _ (List.mem_cons_of_mem _ hm)
    | returned value => exact hflow

end Sound

theorem WellTyped.sound {s : Source} (hs : s.WellTyped) {globals : Bindings}
    (hglobals : globals.kinds = s.globals.map Item.kind) (fuel : Nat) : s.Sound globals fuel := by
  induction fuel with
  | zero =>
    have hstop : Stop.outOfFuel ≠ .illTyped := by decide
    refine ⟨fun _ _ _ _ _ => ?_, fun _ _ _ _ _ _ _ => ?_, fun _ _ _ _ _ _ => ?_,
      fun _ _ _ _ _ _ _ _ _ => ?_, fun _ _ _ _ _ _ => ?_, fun _ _ _ _ _ _ => ?_⟩
    · rw [Source.eval]
      exact hstop
    · rw [Source.element]
      exact hstop
    · rw [Source.arguments]
      exact hstop
    · rw [Source.invoke]
      exact hstop
    · rw [Source.exec]
      exact hstop
    · rw [Source.execAll]
      exact hstop
  | succ fuel ih =>
    exact ⟨fun _ _ _ _ h => ih.eval_succ h, fun _ _ _ _ _ h h' => ih.element_succ h h',
      fun _ _ _ _ _ h => ih.arguments_succ h,
      fun _ _ _ _ _ _ _ h h' => ih.invoke_succ hs hglobals h h',
      fun _ _ _ _ _ h => ih.exec_succ h, fun _ _ _ _ _ h => ih.execAll_succ h⟩

/-- A well-typed program never stops over types. -/
theorem WellTyped.run_ne_illTyped {s : Source} (hs : s.WellTyped) (fuel : Nat)
    (input : List Word) : s.run fuel input ≠ .error .illTyped := by
  have hsafe : Safe (fun _ => True) (s.run fuel input) := by
    obtain ⟨returns, hmain⟩ := hs.main
    have hsound := hs.sound (Bindings.kinds_ofItems 0 s.globals) fuel
    rw [run]
    exact .need ((hsound.invoke [] _ "main" [] _ [] returns hmain .nil).bind fun x _ => trivial)
  intro h
  rw [h] at hsafe
  exact hsafe rfl

end Source

end CMinus
