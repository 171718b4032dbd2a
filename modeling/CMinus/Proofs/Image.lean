import CMinus.Proofs.Backpatch

namespace CMinus

namespace Draft

/-- The stream of `d` holds exactly `cells`, and its functions start where `entries` says. -/
structure Holds (d : Draft) (entries : NameMap Entry) (cells : List (Option Operation)) :
    Prop where
  view : d.stream.view = Stream.placed 0 cells
  atEnd : d.stream.AtEnd
  begun : d.entries = entries
  recorded : ∀ name, d.stream.entries.get? name = (entries.get? name).map Entry.address

namespace Holds

variable {d : Draft} {entries : NameMap Entry} {cells more : List (Option Operation)}

theorem cursor (h : d.Holds entries cells) : d.stream.cursor = cells.length := by
  rw [h.atEnd, ← Stream.length_view, h.view, Stream.length_placed]

theorem append {s : Stream} (h : d.Holds entries cells) (hs : d.stream.Appends s more) :
    ({ d with stream := s } : Draft).Holds entries (cells ++ more) where
  view := by
    change s.view = _
    rw [hs.view, h.view, h.cursor, Stream.placed_append, Nat.zero_add]
  atEnd := hs.atEnd h.atEnd
  begun := h.begun
  recorded := by
    change ∀ name, s.entries.get? name = _
    rw [hs.entries]
    exact h.recorded

theorem comment (h : d.Holds entries cells) (text : String) :
    (d.comment text).Holds entries cells := by
  simpa [Draft.comment] using h.append ((Stream.Appends.refl d.stream).comment text)

theorem write (h : d.Holds entries cells) (lines : List Line)
    (hl : ∀ line ∈ lines, Stream.Proper line) :
    ∃ d', d.write lines = .ok d' ∧ d'.Holds entries (cells ++ Stream.filled lines) := by
  obtain ⟨s, hwrite, happ⟩ := (Stream.Appends.refl d.stream).write h.atEnd lines hl
  refine ⟨{ d with stream := s }, ?_, h.append happ⟩
  rw [Draft.write, hwrite]
  rfl

theorem define (h : d.Holds entries cells) (name : String) (entry : Entry)
    (hentry : entry.address = cells.length) (hnew : entries.contains name = false) :
    ∃ d', d.define name entry.params = .ok d' ∧ d'.Holds (entries.insert name entry) cells := by
  refine ⟨⟨d.entries.insert name entry, d.stream.setEntry name entry.address⟩, ?_, h.view,
    h.atEnd, ?_, ?_⟩
  · rw [Draft.define, h.begun, hnew, h.cursor, ← hentry]
    rfl
  · rw [h.begun]
  · intro key
    simp only [Stream.setEntry, NameMap.get?_insert, h.recorded]
    split <;> rfl

theorem define_of_contains (h : d.Holds entries cells) (name : String) (params : Size)
    (hold : entries.contains name = true) :
    d.define name params = .error (.rejected (.duplicateFunction name)) := by
  rw [Draft.define, h.begun, if_pos hold]

theorem patch {pre hole post : List (Option Operation)}
    (h : d.Holds entries (pre ++ hole ++ post)) (lines : List Line)
    (hl : ∀ line ∈ lines, Stream.Proper line) (hlen : lines.length = hole.length) :
    ∃ s, d.stream.patch pre.length lines = .ok s ∧
      s.view = Stream.placed 0 (pre ++ Stream.filled lines ++ post) ∧
      s.entries = d.stream.entries := by
  -- The stream before anything was written to it.
  let s₀ : Stream := { d.stream with slots := #[], cursor := 0 }
  have happ : s₀.Appends d.stream (pre ++ hole ++ post) :=
    ⟨h.view, h.cursor.trans (Nat.zero_add _).symm, rfl⟩
  obtain ⟨s, hpatch, happ⟩ := happ.patch rfl lines hl hlen
  exact ⟨s, (Nat.zero_add pre.length) ▸ hpatch, happ.view, happ.entries⟩

end Holds

/-- `r` is a draft that holds what `c` prescribes, or it fails where `c` fails. -/
def Follows {α : Type} (n : Nat) (r : Except Failure Draft) (c : Except Failure α)
    (holds : α → Draft → Prop) : Prop :=
  match r with
  | .ok d => ∃ a, c = .ok a ∧ holds a d
  | .error e => c = .error e ∨ e = .ofOverflow .add ∧ Size.limit ≤ n

end Draft

namespace Generate

open Compile

theorem preamble_follows (globals : Size) :
    (∃ e, Sequence.preamble globals = .error e ∧ preamble globals = .error e) ∨
      ∃ lines ops, Sequence.preamble globals = .ok lines ∧ preamble globals = .ok ops ∧
        Stream.filled lines = ops.map some ∧ ops.length = 3 ∧
        ∀ line ∈ lines, Stream.Proper line := by
  rw [Sequence.preamble, preamble]
  cases globals.low.neg with
  | error e => exact .inl ⟨e, rfl, rfl⟩
  | ok displacement =>
    refine .inr ⟨_, _, rfl, rfl, rfl, rfl, ?_⟩
    simp [Stream.Proper, Line.memory, Opcode.form, Operands.form]

theorem prologue_follows (locals : Size) :
    (∃ e, Sequence.prologue locals = .error e ∧ prologue locals = .error e) ∨
      ∃ lines ops, Sequence.prologue locals = .ok lines ∧ prologue locals = .ok ops ∧
        Stream.filled lines = ops.map some ∧ ops.length = 4 ∧
        ∀ line ∈ lines, Stream.Proper line := by
  rw [Sequence.prologue, prologue]
  cases locals.low.neg with
  | error e => exact .inl ⟨e, rfl, rfl⟩
  | ok displacement =>
    refine .inr ⟨_, _, rfl, rfl, rfl, rfl, ?_⟩
    simp [Sequence.push, Stream.Proper, Line.memory, Opcode.form, Operands.form]

/-- The prelude, the room for the call of `main` and the intrinsic functions. -/
def openingCells (prelude : List Operation) : List (Option Operation) :=
  prelude.map some ++ List.replicate 6 none ++ (input ++ output).map some

theorem opening_holds (globals : Size) (trace : Bool) :
    (∃ e, opening globals trace = .error (.ofOverflow e) ∧ preamble globals = .error e) ∨
      ∃ d prelude, opening globals trace = .ok (3, d) ∧ preamble globals = .ok prelude ∧
        prelude.length = 3 ∧ d.Holds intrinsics (openingCells prelude) := by
  rcases preamble_follows globals with ⟨e, hg, hc⟩ | ⟨lines, ops, hg, hc, hfilled, hlen, hproper⟩
  · refine .inl ⟨e, ?_, hc⟩
    rw [opening, hg, mapError_error, error_bind]
  · have hnew : (Draft.new trace).Holds .empty [] := ⟨rfl, rfl, rfl, fun _ => rfl⟩
    have hnew := hnew.comment "Begin prelude"
    obtain ⟨d₁, hwrite₁, h₁⟩ := hnew.write lines hproper
    rw [hfilled, List.nil_append] at h₁
    have h₂ := (h₁.comment "End of prelude").comment "Jump to main()"
    have hcursor := h₂.cursor
    rw [List.length_map, hlen] at hcursor
    obtain ⟨s, hskip, happ⟩ := (Stream.Appends.refl _).skip h₂.atEnd (Sequence.callLength + 1)
      (by rw [hcursor]; decide)
    have h₃ := (h₂.append happ).comment "Begin input()"
    obtain ⟨d₄, hdefine₄, h₄⟩ := h₃.define "input" inputEntry
      (by simp [hlen, inputEntry, Sequence.callLength]) rfl
    obtain ⟨d₅, hwrite₅, h₅⟩ := h₄.write Sequence.input (by decide)
    have h₆ := (h₅.comment "End input()").comment "Begin output()"
    obtain ⟨d₇, hdefine₇, h₇⟩ := h₆.define "output" outputEntry
      (by simp [hlen, outputEntry, Sequence.callLength, Sequence.input, Sequence.pop])
      (by decide)
    obtain ⟨d₈, hwrite₈, h₈⟩ := h₇.write Sequence.output (by decide)
    refine .inr ⟨d₈.comment "End output()", ops, ?_, hc, hlen, ?_⟩
    · rw [opening, hg, mapError_ok, ok_bind, hwrite₁, ok_bind]
      dsimp only [inputEntry, outputEntry] at hdefine₄ hdefine₇ ⊢
      rw [hcursor, hskip, ok_bind, hdefine₄, ok_bind, hwrite₅, ok_bind, hdefine₇, ok_bind,
        hwrite₈]
      rfl
    · have hcells : ops.map some ++ ([] ++ List.replicate (Sequence.callLength + 1) none) ++
          Stream.filled Sequence.input ++ Stream.filled Sequence.output = openingCells ops := by
        rw [openingCells, List.nil_append, List.map_append, List.append_assoc _ (Stream.filled _)]
        rfl
      rw [← hcells]
      exact h₈.comment "End output()"

theorem function_follows {p : Program} {d : Draft} {entries : NameMap Entry}
    {cells : List (Option Operation)} (h : d.Holds entries cells) (name : String)
    (returns : ReturnType) (body : Node) :
    Draft.Follows (cells.length + 11 * (Node.function name returns body).count)
      (function p d name returns body)
      (routine p entries cells.length name returns body)
      fun (entries, r) d => d.Holds entries (cells ++ r.code.map some) := by
  rw [function, routine]
  cases p.signature? name with
  | none => exact .inl rfl
  | some signature =>
    have h₁ := h.comment "-> function:"
    dsimp only
    cases hnew : entries.contains name with
    | true =>
      rw [h₁.define_of_contains name _ hnew]
      exact .inl rfl
    | false =>
      obtain ⟨d₂, hdefine, h₂⟩ := h₁.define name ⟨cells.length, signature.paramCount⟩ rfl hnew
      rw [hdefine, ok_bind, if_neg Bool.false_ne_true]
      rcases prologue_follows body.frameSize with
        ⟨e, hg, hc⟩ | ⟨lines, ops, hg, hc, hfilled, hlen, hproper⟩
      · rw [hg, hc]
        exact .inl rfl
      · obtain ⟨d₃, hwrite, h₃⟩ := h₂.write lines hproper
        rw [hfilled] at h₃
        rw [hg, hc, mapError_ok, mapError_ok, ok_bind, ok_bind, hwrite, ok_bind, h₃.begun]
        have hbody := statement_follows ⟨p.functions,
          entries.insert name ⟨cells.length, signature.paramCount⟩,
          [signature.params, p.globals]⟩ h₃.atEnd body
        rw [h₃.cursor, List.length_append, List.length_map] at hbody
        revert hbody
        cases statement _ body d₃.stream with
        | error e =>
          rintro (hc | ⟨rfl, hlimit⟩)
          · rw [hc]
            exact .inl rfl
          · refine .inr ⟨rfl, ?_⟩
            rw [h₃.cursor, List.length_append, List.length_map] at hlimit
            simp only [Node.count]
            omega
        | ok s =>
          rintro ⟨code, hc, happ⟩
          rw [hc]
          have h₄ := h₃.append happ
          have hroutine (s' : Stream) (hclosing : s.Appends s' ((closing returns).map some)) :
              (⟨entries.insert name ⟨cells.length, signature.paramCount⟩, s'⟩ : Draft).Holds
                (entries.insert name ⟨cells.length, signature.paramCount⟩)
                (cells ++ (ops ++ code ++ closing returns).map some) := by
            simpa [h₃.begun] using h₄.append hclosing
          have hs := happ.atEnd h₃.atEnd
          cases returns with
          | void =>
            obtain ⟨s', hwrite, hclosing⟩ :=
              (Stream.Appends.refl s).write hs Sequence.epilogue proper_epilogue
            rw [ok_bind, hwrite, ok_bind]
            exact ⟨_, rfl, hroutine _ (hclosing.comment "<- function")⟩
          | int | array =>
            exact ⟨_, rfl, hroutine _ ((Stream.Appends.refl s).comment "<- function")⟩

theorem declaration_follows {p : Program} {d : Draft} {entries : NameMap Entry}
    {cells : List (Option Operation)} (h : d.Holds entries cells) (node : Node) :
    Draft.Follows (cells.length + 11 * node.count) (declaration p d node)
      (Compile.declaration p entries cells.length node)
      fun (entries, r) d => d.Holds entries (cells ++ r.code.map some) := by
  cases node with
  | function name returns body => exact function_follows h name returns body
  | _ => exact .inl rfl

theorem declarations_follows {p : Program} {d : Draft} {entries : NameMap Entry}
    {cells : List (Option Operation)} (h : d.Holds entries cells) (nodes : List Node) :
    Draft.Follows (cells.length + 11 * Node.countAll nodes) (declarations p d nodes)
      (Compile.declarations p entries cells.length nodes)
      fun (entries, routines) d =>
        d.Holds entries (cells ++ (routines.flatMap Routine.code).map some) := by
  induction nodes generalizing d entries cells with
  | nil => exact ⟨_, rfl, by simpa using h⟩
  | cons node rest ih =>
    have hnode := declaration_follows (p := p) h node
    rw [declarations, Compile.declarations]
    cases hd : declaration p d node with
    | error e =>
      rw [hd] at hnode
      rcases hnode with hc | ⟨rfl, hlimit⟩
      · rw [hc]
        exact .inl rfl
      · refine .inr ⟨rfl, ?_⟩
        simp only [Node.countAll]
        omega
    | ok d₁ =>
      rw [hd] at hnode
      obtain ⟨⟨entries₁, r⟩, hc, h₁⟩ := hnode
      have hrest := ih h₁
      have := length_declaration hc
      rw [List.length_append, List.length_map] at hrest
      rw [hc, ok_bind, ok_bind]
      dsimp only
      cases hds : declarations p d₁ rest with
      | error e =>
        rw [hds] at hrest
        rcases hrest with hc | ⟨rfl, hlimit⟩
        · rw [hc]
          exact .inl rfl
        · refine .inr ⟨rfl, ?_⟩
          simp only [Node.countAll]
          omega
      | ok d₂ =>
        rw [hds] at hrest
        obtain ⟨⟨entries₂, routines⟩, hc, h₂⟩ := hrest
        rw [hc]
        exact ⟨_, rfl, by simpa using h₂⟩

end Generate

/-- The slots of `code` hold the operations of `i`, each at its own address, and the functions
start where `i` says. -/
structure Image.Fills (i : Image) (code : Code) : Prop where
  slots : code.slots.toList.map (Option.map fun i => (i.toOperation, i.address)) =
    Stream.placed 0 (i.operations.map some)
  entry : ∀ name, code.entry? name = (i.entry? name).map Entry.address

namespace Image.Fills

variable {i : Image} {code : Code}

theorem size (h : i.Fills code) : code.size = i.operations.length := by
  have := congrArg List.length h.slots
  simpa [Code.size] using this

theorem get? (h : i.Fills code) (a : Nat) :
    (code.get? a).map (fun i => (i.toOperation, i.address)) =
      i.operations[a]?.map (·, a) := by
  have hslot := congrArg (·[a]?.join) h.slots
  simp only [List.getElem?_map, Stream.getElem?_placed, Nat.zero_add] at hslot
  rw [Code.get?, ← Array.getElem?_toList]
  cases hcell : code.slots.toList[a]? with
  | none =>
    rw [hcell] at hslot
    cases hop : i.operations[a]? with
    | none => rfl
    | some op => simp [hop] at hslot
  | some cell =>
    rw [hcell] at hslot
    cases hop : i.operations[a]? with
    | none =>
      rw [hop] at hslot
      simpa using hslot
    | some op =>
      rw [hop] at hslot
      simpa using hslot

end Image.Fills

namespace Program

open Compile

/-- The longest code that a program of this size can have. -/
def longest (p : Program) : Nat :=
  routinesBase + 11 * Node.countAll p.declarations

/-- Generation ends as compilation does. -/
theorem generate_follows (p : Program) (trace : Bool) :
    match p.generate trace with
    | .ok code => ∃ image, p.compile = .ok image ∧ image.Fills code
    | .error e => p.compile = .error e ∨ e = .ofOverflow .add ∧ Size.limit ≤ p.longest := by
  rw [generate, compile]
  rcases Generate.opening_holds p.globals.size trace with
    ⟨e, hg, hc⟩ | ⟨d, prelude, hg, hc, hlen, h⟩
  · rw [hg, hc]
    exact .inl rfl
  · rw [hg, hc]
    have hbase : (Generate.openingCells prelude).length = routinesBase := by
      simp [Generate.openingCells, hlen, input, output, pop, routinesBase]
    have hdecls := Generate.declarations_follows h p.declarations (p := p)
    rw [hbase] at hdecls
    simp only [ok_bind, mapError_ok]
    cases hd : Generate.declarations p d p.declarations with
    | error e =>
      rw [hd] at hdecls
      rcases hdecls with hc | ⟨rfl, hlimit⟩
      · rw [hc]
        exact .inl rfl
      · exact .inr ⟨rfl, hlimit⟩
    | ok d₁ =>
      rw [hd] at hdecls
      obtain ⟨⟨entries, routines⟩, hc, h₁⟩ := hdecls
      rw [hc]
      simp only [ok_bind, h₁.begun]
      cases hmain : Env.entry ⟨p.functions, entries, []⟩ "main" with
      | error e => exact .inl rfl
      | ok main =>
        have hcells : Generate.openingCells prelude ++ (routines.flatMap Routine.code).map some =
            prelude.map some ++ List.replicate 6 none ++
              (input ++ output ++ routines.flatMap Routine.code).map some := by
          simp [Generate.openingCells]
        dsimp only at h₁
        rw [hcells] at h₁
        obtain ⟨s, hpatch, hview, hentries⟩ := h₁.patch
          (Sequence.call main.address main.params ++ Sequence.halt)
          (by simpa [or_imp, forall_and] using ⟨proper_call main.address main.params, by decide⟩)
          rfl
        rw [List.length_map, hlen] at hpatch
        simp only [hpatch, ok_bind, pure_eq]
        refine ⟨⟨prelude, main, routines⟩, rfl, ?_, ?_⟩
        · have hops : prelude.map some ++
              Stream.filled (Sequence.call main.address main.params ++ Sequence.halt) ++
              (input ++ output ++ routines.flatMap Routine.code).map some =
                (Image.operations ⟨prelude, main, routines⟩).map some := by
            simp [Image.operations, halt, Sequence.halt]
          rw [← hops]
          exact hview
        · intro name
          change s.entries.get? name = _
          rw [hentries, h₁.recorded, Image.entry?_eq_get? _ hc]

/-- Backpatching leaves what compilation by composition prescribes: one instruction in each slot
from address 0 to the end, at its own address, and a recorded start for each function. -/
theorem generate_eq_compile {p : Program} {trace : Bool} {code : Code}
    (h : p.generate trace = .ok code) :
    ∃ image, p.compile = .ok image ∧
      code.size = image.operations.length ∧
      (∀ a, (code.get? a).map (·.toOperation) = image.operations[a]?) ∧
      (∀ a instruction, code.get? a = some instruction → instruction.address = a) ∧
      ∀ name, code.entry? name = (image.entry? name).map Entry.address := by
  have hfollows := p.generate_follows trace
  rw [h] at hfollows
  obtain ⟨image, hcompile, hfills⟩ := hfollows
  refine ⟨image, hcompile, hfills.size, ?_, ?_, hfills.entry⟩
  · intro a
    have := congrArg (Option.map Prod.fst) (hfills.get? a)
    simpa [Option.map_map, Function.comp_def] using this
  · intro a instruction hget
    have := hfills.get? a
    rw [hget] at this
    cases hop : image.operations[a]? with
    | none => simp [hop] at this
    | some op =>
      rw [hop] at this
      simp only [Option.map_some, Option.some.injEq, Prod.mk.injEq] at this
      exact this.2

/-- Reads a number and prints it and all smaller ones down to 1, with a mark in an array for the
smallest ones. -/
def countdown : Program where
  globals := ⟨.global, 3, NameMap.empty.insert "mark" ⟨.global, .array, 1⟩⟩
  functions := NameMap.empty.insert "main" ⟨.void, .new .param⟩
  declarations := [
    .function "main" .void (.compound (some ⟨.block, 1, NameMap.empty.insert "i" ⟨.block, .int, 0⟩⟩) [
      .assign (.var "i") (.call "input" []),
      .loop (.binary .greaterThan (.var "i") (.number 0)) (.compound none [
        .branch (.binary .lessThan (.var "i") (.number 3))
          (.assign (.element "mark" (.var "i")) (.number 1)) none,
        .call "output" [.var "i"],
        .assign (.var "i") (.binary .sub (.var "i") (.number 1))]),
      .ret .void none])]

theorem countdown_signature {name : String} {signature : Signature}
    (h : countdown.signature? name = some signature) :
    name = "main" ∧ signature = ⟨.void, .new .param⟩ := by
  rw [signature?, countdown, NameMap.get?_insert, NameMap.get?_empty] at h
  split at h
  · next hname => exact ⟨hname, (Option.some.inj h).symm⟩
  · cases h

theorem countdown_params (name : String) (signature : Signature)
    (h : countdown.signature? name = some signature) :
    signature.paramCount.toNat < 2147483648 := by
  obtain ⟨-, rfl⟩ := countdown_signature h
  decide

theorem countdown_isOk (trace : Bool) : ∃ code, countdown.generate trace = .ok code := by
  have hok : (countdown.generate trace).isOk = true := by
    cases trace <;> decide +kernel
  cases h : countdown.generate trace with
  | ok code => exact ⟨code, rfl⟩
  | error e => simp [h, Except.isOk, Except.toBool] at hok

theorem generate_eq_compile_countdown :
    ∃ code image, countdown.generate true = .ok code ∧ countdown.compile = .ok image ∧
      code.size = image.operations.length ∧
      (∀ a, (code.get? a).map (·.toOperation) = image.operations[a]?) ∧
      (∀ a instruction, code.get? a = some instruction → instruction.address = a) ∧
      ∀ name, code.entry? name = (image.entry? name).map Entry.address := by
  obtain ⟨code, h⟩ := countdown_isOk true
  obtain ⟨image, hcompile, hrest⟩ := generate_eq_compile h
  exact ⟨code, image, h, hcompile, hrest⟩

end Program

end CMinus
