import CMinus.Proofs.Image

namespace CMinus

/-- The operations `ops` stand in `code` from address `k` on. -/
def Code.Holds (code : Code) (k : Nat) (ops : List Operation) : Prop :=
  ∀ i op, ops[i]? = some op → (code.get? (k + i)).map (·.toOperation) = some op

namespace Code.Holds

variable {code : Code} {k : Nat} {ops : List Operation}

theorem left {ops' : List Operation} (h : code.Holds k (ops ++ ops')) : code.Holds k ops := by
  intro i op hget
  refine h i op ?_
  rw [List.getElem?_append_left (List.getElem?_eq_some_iff.1 hget).1, hget]

theorem right {ops' : List Operation} (h : code.Holds k (ops ++ ops')) :
    code.Holds (k + ops.length) ops' := by
  intro i op hget
  rw [Nat.add_assoc]
  refine h (ops.length + i) op ?_
  rw [List.getElem?_append_right (Nat.le_add_right ..), Nat.add_sub_cancel_left, hget]

theorem cast {l : Nat} (h : code.Holds k ops) (hk : k = l) : code.Holds l ops :=
  hk ▸ h

end Code.Holds

theorem Image.Fills.holds {image : Image} {code : Code} (h : image.Fills code) :
    code.Holds 0 image.operations := by
  intro a op hget
  rw [Nat.zero_add]
  have hslot := congrArg (Option.map Prod.fst) (h.get? a)
  rw [hget] at hslot
  simpa [Option.map_map, Function.comp_def] using hslot

theorem Image.Fills.getElem?_of_get? {image : Image} {code : Code} (h : image.Fills code) {a : Nat}
    {op : Operation} (hop : (code.get? a).map (·.toOperation) = some op) :
    image.operations[a]? = some op := by
  have hslot := congrArg (Option.map Prod.fst) (h.get? a)
  rw [Option.map_map, Option.map_map] at hslot
  simpa [Function.comp_def, hop] using hslot.symm

/-- All code before that of the declared functions. -/
def Image.front (i : Image) : List Operation :=
  i.prelude ++ Compile.call i.main ++ Compile.halt ++ Compile.input ++ Compile.output

theorem Image.operations_eq (i : Image) :
    i.operations = i.front ++ i.routines.flatMap Routine.code := rfl

namespace Compile

/-- The routine of a declaration, when the program ends up with the entries `entries`. -/
structure Realizes (p : Program) (entries : NameMap Entry) (returns : ReturnType) (body : Node)
    (r : Routine) : Prop where
  opening : prologue body.frameSize = .ok r.opening
  closing : r.closing = Compile.closing returns
  params : ∃ signature, p.signature? r.name = some signature ∧
    r.entry.params = signature.paramCount ∧
    ∃ known : NameMap Entry, (∀ name e, known.get? name = some e → entries.get? name = some e) ∧
      statement ⟨p.functions, known, [signature.params, p.globals]⟩
        (r.entry.address + r.opening.length) body = .ok r.body
  entry : entries.get? r.name = some r.entry

theorem get?_of_entry {env : Env} {name : String} {e : Entry} (h : env.entry name = .ok e) :
    env.entries.get? name = some e := by
  rw [Env.entry] at h
  split at h
  · next heq =>
    cases h
    exact heq
  · split at h <;> cases h

variable {p : Program} {entries entries' : NameMap Entry} {base : Nat}

/-- Later declarations keep the entries of earlier ones. -/
theorem get?_declarations {nodes : List Node} {routines : List Routine}
    (h : declarations p entries base nodes = .ok (entries', routines)) {name : String} {e : Entry}
    (hget : entries.get? name = some e) : entries'.get? name = some e := by
  rw [entries_declarations h, hget, Option.some_or]

theorem length_declarations {nodes : List Node} {routines : List Routine}
    (h : declarations p entries base nodes = .ok (entries', routines)) :
    nodes.length = routines.length := by
  induction nodes generalizing entries base routines with
  | nil =>
    cases h
    rfl
  | cons node rest ih =>
    obtain ⟨_, r, routines₁, _, hrest, rfl⟩ := declarations_cons_eq_ok h
    rw [List.length_cons, List.length_cons, ih hrest]

/-- Every routine belongs to one declaration and starts where the routine before it ends. -/
theorem declarations_split {nodes : List Node} {before after : List Routine} {r : Routine}
    (h : declarations p entries base nodes = .ok (entries', before ++ r :: after)) :
    ∃ earlier returns body later, nodes = earlier ++ .function r.name returns body :: later ∧
      earlier.length = before.length ∧ later.length = after.length ∧
      r.entry.address = base + (before.flatMap Routine.code).length ∧
      Realizes p entries' returns body r := by
  induction before generalizing entries base nodes with
  | nil =>
    cases nodes with
    | nil => cases h
    | cons node rest =>
      obtain ⟨entries₁, _, _, hnode, hrest, heq⟩ := declarations_cons_eq_ok h
      cases heq
      obtain ⟨name, returns, body, signature, opening, code, rfl, hsignature, hnew, rfl, hopening,
        hcode, rfl⟩ := declaration_eq_ok hnode
      have hentry : entries'.get? name = some ⟨base, signature.paramCount⟩ :=
        get?_declarations hrest (by simp)
      refine ⟨[], returns, body, rest, rfl, rfl, length_declarations hrest, by simp, hopening, rfl,
        ⟨signature, hsignature, rfl, _, fun name e => get?_declarations hrest, hcode⟩, hentry⟩
  | cons first before ih =>
    cases nodes with
    | nil => cases h
    | cons node rest =>
      obtain ⟨entries₁, _, _, hnode, hrest, heq⟩ := declarations_cons_eq_ok h
      cases heq
      obtain ⟨earlier, returns, body, later, rfl, hearlier, hlater, haddress, hr⟩ := ih hrest
      refine ⟨node :: earlier, returns, body, later, rfl, by simp [hearlier], hlater, ?_, hr⟩
      rw [haddress, List.flatMap_cons, List.length_append]
      omega

end Compile

/-- The number of parameters of a function that can be called. -/
def Program.paramCount? (p : Program) (name : String) : Option Size :=
  if name = "input" then some 0
  else if name = "output" then some 1
  else (p.signature? name).map Signature.paramCount

namespace Program

open Compile

variable {p : Program} {image : Image} {entries : NameMap Entry}

theorem compile_eq_ok (h : p.compile = .ok image) :
    preamble p.globals.size = .ok image.prelude ∧
      ∃ entries, Compile.declarations p intrinsics routinesBase p.declarations =
          .ok (entries, image.routines) ∧
        (⟨p.functions, entries, []⟩ : Env).entry "main" = .ok image.main := by
  simp only [compile, bind_eq_ok, mapError_eq_ok, pure_eq_ok] at h
  obtain ⟨prelude, hprelude, ⟨entries, routines⟩, hdecls, main, hmain, rfl⟩ := h
  exact ⟨hprelude, entries, hdecls, hmain⟩

theorem prelude_eq (h : p.compile = .ok image) :
    ∃ d, image.prelude =
      [.memory .ld .gp 0 .zero, .memory .st .zero 0 .zero, .memory .lda .sp d .gp] := by
  obtain ⟨hprelude, -⟩ := compile_eq_ok h
  simp only [preamble, bind_eq_ok, pure_eq_ok] at hprelude
  obtain ⟨d, -, hprelude⟩ := hprelude
  exact ⟨d, hprelude.symm⟩

theorem length_front (h : p.compile = .ok image) : image.front.length = routinesBase := by
  obtain ⟨d, hprelude⟩ := prelude_eq h
  rw [Image.front, hprelude]
  rfl

theorem holds_front {code : Code} (h : p.compile = .ok image) (hfills : image.Fills code) :
    code.Holds 0 image.prelude ∧ code.Holds 3 (call image.main) ∧ code.Holds 8 halt ∧
      code.Holds inputEntry.address input ∧ code.Holds outputEntry.address output := by
  have hlength : image.prelude.length = 3 := by
    obtain ⟨d, hprelude⟩ := prelude_eq h
    rw [hprelude]
    rfl
  have hfront := hfills.holds
  rw [image.operations_eq] at hfront
  have hfront := hfront.left
  refine ⟨hfront.left.left.left.left, hfront.left.left.left.right.cast (by simp [hlength]),
    hfront.left.left.right.cast (by simp [hlength, call, push]),
    hfront.left.right.cast (by simp [hlength, call, push, halt, inputEntry]),
    hfront.right.cast (by simp [hlength, call, push, halt, input, pop, outputEntry])⟩

theorem address_routine (h : p.compile = .ok image) {before after : List Routine} {r : Routine}
    (hr : image.routines = before ++ r :: after) :
    r.entry.address = routinesBase + (before.flatMap Routine.code).length := by
  obtain ⟨-, entries, hdecls, -⟩ := compile_eq_ok h
  rw [hr] at hdecls
  obtain ⟨_, _, _, _, _, _, _, haddress, _⟩ := declarations_split hdecls
  exact haddress

theorem holds_routine {code : Code} (h : p.compile = .ok image) (hfills : image.Fills code)
    {before after : List Routine} {r : Routine} (hr : image.routines = before ++ r :: after) :
    code.Holds r.entry.address r.code := by
  have hholds := hfills.holds
  rw [image.operations_eq, hr, List.flatMap_append, List.flatMap_cons, ← List.append_assoc] at hholds
  have := hholds.right.left
  rwa [List.length_append, length_front h, Nat.zero_add, ← address_routine h hr] at this

theorem exists_routine {routines : List Routine} {i : Nat} {op : Operation}
    (h : (routines.flatMap Routine.code)[i]? = some op) :
    ∃ before r after j, routines = before ++ r :: after ∧
      i = (before.flatMap Routine.code).length + j ∧ r.code[j]? = some op := by
  induction routines generalizing i with
  | nil => cases h
  | cons first rest ih =>
    rw [List.flatMap_cons, List.getElem?_append] at h
    split at h
    · exact ⟨[], first, rest, i, rfl, by simp, h⟩
    · next hi =>
      obtain ⟨before, r, after, j, rfl, heq, hop⟩ := ih h
      refine ⟨first :: before, r, after, j, rfl, ?_, hop⟩
      rw [List.flatMap_cons, List.length_append]
      omega

theorem stop_le_size {code : Code} (h : p.compile = .ok image) (hfills : image.Fills code)
    {before after : List Routine} {r : Routine} (hr : image.routines = before ++ r :: after) :
    r.entry.address + r.code.length ≤ code.size := by
  rw [hfills.size, image.operations_eq, List.length_append, length_front h, address_routine h hr, hr]
  simp [Nat.add_assoc]

theorem entry_cases (h : Compile.declarations p intrinsics routinesBase p.declarations =
    .ok (entries, image.routines)) {name : String} {e : Entry}
    (hget : entries.get? name = some e) :
    name = "input" ∧ e = inputEntry ∨ name = "output" ∧ e = outputEntry ∨
      name ≠ "input" ∧ name ≠ "output" ∧ ∃ r ∈ image.routines, r.name = name ∧ r.entry = e := by
  rw [← image.entry?_eq_get? h, Image.entry?] at hget
  split at hget
  · next hname => exact .inl ⟨hname, (Option.some.inj hget).symm⟩
  · next hinput =>
    split at hget
    · next hname => exact .inr (.inl ⟨hname, (Option.some.inj hget).symm⟩)
    · next houtput =>
      obtain ⟨r, hfind, rfl⟩ := Option.map_eq_some_iff.1 hget
      have hname := List.find?_some hfind
      rw [decide_eq_true_iff] at hname
      exact .inr (.inr ⟨hinput, houtput, r, List.mem_of_find?_eq_some hfind, hname, rfl⟩)

theorem paramCount?_of_entry (h : Compile.declarations p intrinsics routinesBase p.declarations =
    .ok (entries, image.routines)) {name : String} {e : Entry}
    (hget : entries.get? name = some e) : p.paramCount? name = some e.params := by
  obtain ⟨rfl, rfl⟩ | ⟨rfl, rfl⟩ | ⟨hinput, houtput, r, hr, rfl, rfl⟩ := entry_cases h hget
  · rfl
  · rfl
  · obtain ⟨before, after, heq⟩ := List.append_of_mem hr
    rw [heq] at h
    obtain ⟨_, returns, body, _, _, _, _, _, hrealizes⟩ := declarations_split h
    obtain ⟨signature, hsignature, hparams, _⟩ := hrealizes.params
    rw [paramCount?, if_neg hinput, if_neg houtput, hsignature, Option.map_some, hparams]

end Program

end CMinus
