import CMinus.Generate.Program
import CMinus.Proofs.Listing

namespace CMinus

open Text

/-- Two runs end alike: with results that are related, or with the same failure. -/
inductive Alike {ε α β : Type} (R : α → β → Prop) : Except ε α → Except ε β → Prop
  | ok {a : α} {b : β} : R a b → Alike R (.ok a) (.ok b)
  | error (e : ε) : Alike R (.error e) (.error e)

namespace Alike

variable {ε ε' α β γ δ : Type} {R : α → β → Prop} {S : γ → δ → Prop} {x : Except ε α}
  {y : Except ε β}

theorem bind {f : α → Except ε γ} {g : β → Except ε δ} (h : Alike R x y)
    (next : ∀ a b, R a b → Alike S (f a) (g b)) : Alike S (x >>= f) (y >>= g) := by
  cases h with
  | ok hab => exact next _ _ hab
  | error e => exact .error e

theorem map {f : α → γ} {g : β → δ} (h : Alike R x y) (next : ∀ a b, R a b → S (f a) (g b)) :
    Alike S (x.map f) (y.map g) := by
  cases h with
  | ok hab => exact .ok (next _ _ hab)
  | error e => exact .error e

theorem mapError (h : Alike R x y) (f : ε → ε') : Alike R (x.mapError f) (y.mapError f) := by
  cases h with
  | ok hab => exact .ok hab
  | error e => exact .error (f e)

/-- A part that has nothing to do with tracing, and then the rest. -/
theorem bind_same {f : α → Except ε γ} {g : α → Except ε δ}
    (next : ∀ a, x = .ok a → Alike S (f a) (g a)) : Alike S (x >>= f) (x >>= g) := by
  cases x with
  | ok a => exact next a rfl
  | error e => exact .error e

end Alike

namespace Stream

/-- The untraced stream `s'` is the traced stream `s` without its comments and remarks, which have
no line breaks. -/
structure Shadows (s s' : Stream) : Prop where
  slots : s'.slots = s.slots.map (Option.map Instruction.unremarked)
  entries : s'.entries = s.entries
  cursor : s'.cursor = s.cursor
  traced : s.trace = true
  untraced : s'.trace = false
  silent : s'.comments = #[]
  comments : ∀ c ∈ s.comments, OneLine c.text
  remarks : ∀ i, some i ∈ s.slots → ∀ remark, i.remark = some remark → OneLine remark

namespace Shadows

variable {s s' : Stream}

theorem new : Shadows (.new true) (.new false) := by
  refine ⟨?_, rfl, rfl, rfl, rfl, rfl, ?_, ?_⟩ <;> simp [Stream.new]

theorem highWater (h : Shadows s s') : s'.highWater = s.highWater := by
  rw [Stream.highWater, h.slots, Array.size_map, Stream.highWater]

theorem grow (h : Shadows s s') (n : Nat) :
    Stream.grow s'.slots n = (Stream.grow s.slots n).map (Option.map Instruction.unremarked) := by
  simp [Stream.grow, h.slots]

theorem remarks_grow (h : Shadows s s') (n : Nat) :
    ∀ i, some i ∈ Stream.grow s.slots n → ∀ remark, i.remark = some remark → OneLine remark := by
  intro i hi
  rw [Stream.grow, Array.mem_append, Array.mem_replicate] at hi
  rcases hi with hi | ⟨-, hi⟩
  · exact h.remarks i hi
  · cases hi

theorem comment (h : Shadows s s') (text : String) (htext : OneLine text) :
    Shadows (s.comment text) (s'.comment text) := by
  rw [Stream.comment, Stream.comment, if_pos h.traced, if_neg (by rw [h.untraced]; decide)]
  refine { h with comments := ?_ }
  intro c hc
  rcases Array.mem_push.1 hc with hc | rfl
  · exact h.comments c hc
  · exact htext

theorem place (h : Shadows s s') {line : Line} (hline : OneLine line.remark) :
    Shadows (s.place line) (s'.place line) := by
  refine ⟨?_, h.entries, ?_, h.traced, h.untraced, h.silent, h.comments, ?_⟩
  · simp [Stream.place, h.grow, h.cursor, h.untraced, Instruction.unremarked]
  · rw [cursor_place, cursor_place, h.cursor]
  · intro i hi
    rcases Array.mem_or_eq_of_mem_setIfInBounds hi with hi | hi
    · exact h.remarks_grow _ i hi
    · cases hi
      intro remark hremark
      rw [h.traced] at hremark
      cases hremark
      exact hline

theorem emitAll (h : Shadows s s') {lines : List Line} (hlines : ∀ l ∈ lines, OneLine l.remark) :
    Alike Shadows (s.emitAll lines) (s'.emitAll lines) := by
  induction lines generalizing s s' with
  | nil => exact .ok h
  | cons line rest ih =>
    obtain ⟨hline, hrest⟩ := List.forall_mem_cons.1 hlines
    rw [Stream.emitAll, Stream.emitAll, emit, emit]
    by_cases hform : line.opcode.form = line.operands.form
    · rw [if_pos hform, if_pos hform]
      exact ih (h.place hline) hrest
    · rw [if_neg hform, if_neg hform]
      exact .error _

theorem write (h : Shadows s s') {lines : List Line} (hlines : ∀ l ∈ lines, OneLine l.remark) :
    Alike Shadows (s.write lines) (s'.write lines) :=
  (h.emitAll hlines).mapError Failure.fault

theorem skip (h : Shadows s s') (count : Nat) : Alike Shadows (s.skip count) (s'.skip count) := by
  apply Alike.mapError
  rw [reserve, reserve, h.cursor]
  by_cases hfit : s.cursor + count < Size.limit
  · rw [if_pos hfit, if_pos hfit]
    exact .ok { h with slots := h.grow _, cursor := rfl, remarks := h.remarks_grow _ }
  · rw [if_neg hfit, if_neg hfit]
    exact .error _

theorem patch (h : Shadows s s') (address : Nat) {lines : List Line}
    (hlines : ∀ l ∈ lines, OneLine l.remark) :
    Alike Shadows (s.patch address lines) (s'.patch address lines) := by
  rw [Stream.patch, Stream.patch, rewind?, rewind?, h.highWater]
  by_cases hin : address ≤ s.highWater
  · rw [if_pos hin, if_pos hin]
    have hback : Shadows { s with cursor := address } { s' with cursor := address } :=
      { h with cursor := rfl }
    apply (hback.write hlines).map
    intro s s' h
    exact { h with cursor := h.highWater }
  · rw [if_neg hin, if_neg hin]
    exact .error _

theorem setEntry (h : Shadows s s') (name : String) (address : Nat) :
    Shadows (s.setEntry name address) (s'.setEntry name address) :=
  { h with entries := by rw [Stream.setEntry, Stream.setEntry, h.entries] }

end Shadows

end Stream

namespace Sequence

def Tidy (lines : List Line) : Prop :=
  ∀ l ∈ lines, OneLine l.remark

theorem Tidy.append {a b : List Line} (ha : Tidy a) (hb : Tidy b) : Tidy (a ++ b) :=
  List.forall_mem_append.2 ⟨ha, hb⟩

theorem tidy_memory (opcode : Opcode) (r : Register) (d : Word) (s : Register) {remark : String}
    (h : OneLine remark) : Tidy [.memory opcode r d s remark] :=
  List.forall_mem_singleton.2 h

theorem tidy_registers (opcode : Opcode) (r s t : Register) {remark : String}
    (h : OneLine remark) : Tidy [.registers opcode r s t remark] :=
  List.forall_mem_singleton.2 h

theorem tidy_push (r : Register) {remark : String} (h : OneLine remark) :
    Tidy (push r remark) :=
  (tidy_memory .lda .sp (-1) .sp (by decide)).append (tidy_memory .st r 0 .sp h)

theorem tidy_pop (r : Register) {remark : String} (h : OneLine remark) : Tidy (pop r remark) :=
  (tidy_memory .lda .sp 1 .sp (by decide)).append (tidy_memory .ld r (-1) .sp h)

theorem tidy_epilogue : Tidy epilogue := by
  simp [Tidy, epilogue, Line.memory, OneLine]

theorem tidy_call (address : Nat) (params : Size) : Tidy (call address params) := by
  simp [Tidy, call, push, Line.memory, OneLine]

theorem tidy_apply (op : BinaryOp) : Tidy (apply op) := by
  have hsymbol : OneLine op.symbol := by
    cases op <;> simp [BinaryOp.symbol, OneLine]
  have hremark : OneLine s!"op {op.symbol}" := OneLine.append (by decide) hsymbol
  have hcompare (jump : Opcode) {remark : String} (h : OneLine remark) :
      Tidy (compare jump remark) :=
    (tidy_registers .sub .ax .bx .ax h).append (by simp [Tidy, Line.memory, OneLine])
  cases op with
  | add | sub | mul | div => exact tidy_registers _ _ _ _ hremark
  | _ => exact hcompare _ hremark

theorem tidy_load (v : Variable) : Tidy (load v) := by
  rw [load]
  split <;> exact tidy_memory _ _ _ _ (by decide)

theorem tidy_address {v : Variable} {lines : List Line} (h : address v = .ok lines) :
    Tidy lines := by
  simp only [address, bind_eq_ok, pure_eq_ok] at h
  obtain ⟨location, -, rfl⟩ := h
  apply tidy_memory
  rw [describe]
  split <;> decide

theorem tidy_prologue {locals : Size} {lines : List Line} (h : prologue locals = .ok lines) :
    Tidy lines := by
  simp only [prologue, bind_eq_ok, pure_eq_ok] at h
  obtain ⟨displacement, -, rfl⟩ := h
  simp [Tidy, push, Line.memory, OneLine]

theorem tidy_preamble {globals : Size} {lines : List Line} (h : preamble globals = .ok lines) :
    Tidy lines := by
  simp only [preamble, bind_eq_ok, pure_eq_ok] at h
  obtain ⟨displacement, -, rfl⟩ := h
  simp [Tidy, Line.memory, OneLine]

end Sequence

namespace Generate

open Sequence

variable {s s' : Stream}

theorem address_alike (env : Env) (name : String) (h : s.Shadows s') :
    Alike (fun a b => a.1 = b.1 ∧ a.2.Shadows b.2) (address env name s) (address env name s') := by
  rw [address, address]
  apply Alike.bind_same
  intro v _
  apply Alike.bind_same
  intro lines hlines
  apply (h.write (tidy_address (mapError_eq_ok.1 hlines))).bind
  intro s s' h
  exact .ok ⟨rfl, h⟩

mutual

theorem expression_alike (env : Env) (access : Access) {s s' : Stream} (h : s.Shadows s') :
    (node : Node) →
      Alike Stream.Shadows (expression env access node s) (expression env access node s')
  | .number value => h.write (tidy_memory _ _ _ _ (by decide))
  | .var name => by
    rw [expression, expression]
    apply (address_alike env name h).bind
    rintro ⟨v, s₁⟩ ⟨v', s₁'⟩ ⟨hv, h₁⟩
    cases hv
    cases access with
    | value => exact h₁.write (tidy_load v)
    | address => exact .ok h₁
  | .element name index => by
    rw [expression, expression]
    apply (address_alike env name (h.comment "-> array element" (by decide))).bind
    rintro ⟨v, s₁⟩ ⟨v', s₁'⟩ ⟨-, h₁⟩
    apply (h₁.write (tidy_push .bx (by decide))).bind
    intro s₂ s₂' h₂
    apply (expression_alike env .value h₂ index).bind
    intro s₃ s₃' h₃
    apply (h₃.write ((tidy_pop .bx (by decide)).append (tidy_registers _ _ _ _ (by decide)))).bind
    intro s₄ s₄' h₄
    cases access with
    | value =>
      apply (h₄.write (tidy_memory _ _ _ _ (by decide))).bind
      intro s₅ s₅' h₅
      exact .ok (h₅.comment _ (by decide))
    | address => exact .ok (h₄.comment _ (by decide))
  | .assign target value => by
    rw [expression, expression]
    split
    · apply (expression_alike env .address (h.comment "-> assign" (by decide)) target).bind
      intro s₁ s₁' h₁
      apply (h₁.write (tidy_push .bx (by decide))).bind
      intro s₂ s₂' h₂
      apply (expression_alike env .value h₂ value).bind
      intro s₃ s₃' h₃
      apply (h₃.write ((tidy_pop .bx (by decide)).append (tidy_memory _ _ _ _ (by decide)))).bind
      intro s₄ s₄' h₄
      exact .ok (h₄.comment _ (by decide))
    · exact .error _
  | .binary op left right => by
    rw [expression, expression]
    apply (expression_alike env .value (h.comment "-> op" (by decide)) left).bind
    intro s₁ s₁' h₁
    apply (h₁.write (tidy_push .ax (by decide))).bind
    intro s₂ s₂' h₂
    apply (expression_alike env .value h₂ right).bind
    intro s₃ s₃' h₃
    apply (h₃.write ((tidy_pop .bx (by decide)).append (tidy_apply op))).bind
    intro s₄ s₄' h₄
    exact .ok (h₄.comment _ (by decide))
  | .call name args => by
    rw [expression, expression]
    apply Alike.bind_same
    intro entry _
    apply (arguments_alike env (h.comment "-> call" (by decide)) args).bind
    intro s₁ s₁' h₁
    apply (h₁.write (tidy_call entry.address entry.params)).bind
    intro s₂ s₂' h₂
    exact .ok (h₂.comment _ (by decide))
  | .function .. | .compound .. | .branch .. | .loop .. | .ret .. => .error _

theorem arguments_alike (env : Env) {s s' : Stream} (h : s.Shadows s') :
    (args : List Node) → Alike Stream.Shadows (arguments env args s) (arguments env args s')
  | [] => .ok h
  | arg :: rest => by
    rw [arguments, arguments]
    apply (arguments_alike env h rest).bind
    intro s₁ s₁' h₁
    apply (expression_alike env .value h₁ arg).bind
    intro s₂ s₂' h₂
    exact h₂.write (tidy_push .ax (by decide))

end

theorem epilogue_alike (h : s.Shadows s') :
    Alike Stream.Shadows (s.write epilogue >>= fun s => pure (s.comment "<- return"))
      (s'.write epilogue >>= fun s => pure (s.comment "<- return")) := by
  apply (h.write tidy_epilogue).bind
  intro s₁ s₁' h₁
  exact .ok (h₁.comment _ (by decide))

mutual

theorem statement_alike (env : Env) {s s' : Stream} (h : s.Shadows s') :
    (node : Node) → Alike Stream.Shadows (statement env node s) (statement env node s')
  | .function .. => .error _
  | .compound table body => by
    rw [statement, statement]
    apply (statements_alike (env.enter table) (h.comment "-> compound" (by decide)) body).bind
    intro s₁ s₁' h₁
    exact .ok (h₁.comment _ (by decide))
  | .branch test thenPart elsePart => by
    rw [statement, statement]
    apply (expression_alike env .value (h.comment "-> if" (by decide)) test).bind
    intro s₁ s₁' h₁
    rw [h₁.cursor]
    apply (h₁.skip 1).bind
    intro s₂ s₂' h₂
    apply (statement_alike env (h₂.comment "jump to else" (by decide)) thenPart).bind
    intro s₃ s₃' h₃
    rw [h₃.cursor]
    apply (h₃.skip 1).bind
    intro s₄ s₄' h₄
    have h₄ := h₄.comment "jump to end" (by decide)
    dsimp only
    rw [h₄.cursor]
    apply (h₄.patch s₁.cursor (tidy_memory _ _ _ _ (by decide))).bind
    intro s₅ s₅' h₅
    apply (optional_alike env h₅ elsePart).bind
    intro s₆ s₆' h₆
    rw [h₆.cursor]
    apply (h₆.patch s₃.cursor (tidy_memory _ _ _ _ (by decide))).bind
    intro s₇ s₇' h₇
    exact .ok (h₇.comment _ (by decide))
  | .loop test body => by
    rw [statement, statement]
    have h₀ := h.comment "-> while" (by decide)
    dsimp only
    rw [h₀.cursor]
    apply (expression_alike env .value (h₀.comment "jump here after body" (by decide)) test).bind
    intro s₁ s₁' h₁
    rw [h₁.cursor]
    apply (h₁.skip 1).bind
    intro s₂ s₂' h₂
    apply (statement_alike env (h₂.comment "jump to end if test fails" (by decide)) body).bind
    intro s₃ s₃' h₃
    apply (h₃.write (tidy_memory _ _ _ _ (by decide))).bind
    intro s₄ s₄' h₄
    rw [h₄.cursor]
    apply (h₄.patch s₁.cursor (tidy_memory _ _ _ _ (by decide))).bind
    intro s₅ s₅' h₅
    exact .ok (h₅.comment _ (by decide))
  | .ret returns value => by
    have h₀ := h.comment "-> return" (by decide)
    cases returns with
    | void =>
      simp only [statement, pure_bind]
      exact epilogue_alike h₀
    | int | array =>
      cases value with
      | none =>
        simp only [statement, pure_bind]
        exact epilogue_alike h₀
      | some value =>
        simp only [statement]
        apply (expression_alike env .value h₀ value).bind
        intro s₁ s₁' h₁
        exact epilogue_alike h₁
  | .number value => expression_alike env .value h (.number value)
  | .var name => expression_alike env .value h (.var name)
  | .element name index => expression_alike env .value h (.element name index)
  | .assign target value => expression_alike env .value h (.assign target value)
  | .binary op left right => expression_alike env .value h (.binary op left right)
  | .call name args => expression_alike env .value h (.call name args)

theorem statements_alike (env : Env) {s s' : Stream} (h : s.Shadows s') :
    (nodes : List Node) → Alike Stream.Shadows (statements env nodes s) (statements env nodes s')
  | [] => .ok h
  | node :: rest => by
    rw [statements, statements]
    apply (statement_alike env h node).bind
    intro s₁ s₁' h₁
    exact statements_alike env h₁ rest

theorem optional_alike (env : Env) {s s' : Stream} (h : s.Shadows s') :
    (node : Option Node) → Alike Stream.Shadows (optional env node s) (optional env node s')
  | none => .ok h
  | some node => statement_alike env h node

end

end Generate

namespace Draft

structure Shadows (d d' : Draft) : Prop where
  entries : d'.entries = d.entries
  stream : d.stream.Shadows d'.stream

namespace Shadows

variable {d d' : Draft}

theorem comment (h : Shadows d d') (text : String) (htext : OneLine text) :
    Shadows (d.comment text) (d'.comment text) :=
  ⟨h.entries, h.stream.comment text htext⟩

theorem write (h : Shadows d d') {lines : List Line} (hlines : Sequence.Tidy lines) :
    Alike Shadows (d.write lines) (d'.write lines) := by
  apply (h.stream.write hlines).map
  intro s s' hs
  exact ⟨h.entries, hs⟩

theorem define (h : Shadows d d') (name : String) (params : Size) :
    Alike Shadows (d.define name params) (d'.define name params) := by
  rw [Draft.define, Draft.define, h.entries]
  cases d.entries.contains name with
  | true => exact .error _
  | false =>
    refine .ok ⟨?_, ?_⟩
    · rw [h.stream.cursor]
    · rw [h.stream.cursor]
      exact h.stream.setEntry name _

end Shadows

end Draft

namespace Generate

open Sequence

theorem opening_alike (globals : Size) :
    Alike (fun a b => a.1 = b.1 ∧ a.2.Shadows b.2) (opening globals true)
      (opening globals false) := by
  have hnew : (Draft.new true).Shadows (Draft.new false) := ⟨rfl, .new⟩
  rw [opening, opening]
  apply Alike.bind_same
  intro lines hlines
  apply ((hnew.comment _ (by decide)).write (tidy_preamble (mapError_eq_ok.1 hlines))).bind
  intro d₁ d₁' h₁
  have h₁ := (h₁.comment "End of prelude" (by decide)).comment "Jump to main()" (by decide)
  dsimp only
  rw [h₁.stream.cursor]
  apply (h₁.stream.skip _).bind
  intro s s' hs
  have h₂ : Draft.Shadows ⟨_, s⟩ ⟨_, s'⟩ := ⟨h₁.entries, hs⟩
  apply ((h₂.comment "Begin input()" (by decide)).define "input" 0).bind
  intro d₃ d₃' h₃
  apply (h₃.write (by simp [Tidy, input, pop, Line.registers, Line.memory, OneLine])).bind
  intro d₄ d₄' h₄
  have h₄ := (h₄.comment "End input()" (by decide)).comment "Begin output()" (by decide)
  apply (h₄.define "output" 1).bind
  intro d₅ d₅' h₅
  apply (h₅.write (by simp [Tidy, output, pop, Line.registers, Line.memory, OneLine])).bind
  intro d₆ d₆' h₆
  exact .ok ⟨rfl, h₆.comment _ (by decide)⟩

variable {p : Program} {d d' : Draft}

theorem function_alike (h : d.Shadows d') (name : String) (returns : ReturnType) (body : Node) :
    Alike Draft.Shadows (function p d name returns body) (function p d' name returns body) := by
  rw [function, function]
  cases p.signature? name with
  | none => exact .error _
  | some signature =>
    apply ((h.comment "-> function:" (by decide)).define name signature.paramCount).bind
    intro d₁ d₁' h₁
    apply Alike.bind_same
    intro lines hlines
    apply (h₁.write (tidy_prologue (mapError_eq_ok.1 hlines))).bind
    intro d₂ d₂' h₂
    rw [h₂.entries]
    apply (statement_alike _ h₂.stream body).bind
    intro s₃ s₃' h₃
    cases returns with
    | void =>
      apply (h₃.write tidy_epilogue).bind
      intro s₄ s₄' h₄
      exact .ok ⟨rfl, h₄.comment _ (by decide)⟩
    | int | array => exact .ok ⟨rfl, h₃.comment _ (by decide)⟩

theorem declarations_alike (h : d.Shadows d') (nodes : List Node) :
    Alike Draft.Shadows (declarations p d nodes) (declarations p d' nodes) := by
  induction nodes generalizing d d' with
  | nil => exact .ok h
  | cons node rest ih =>
    rw [declarations, declarations]
    have hnode : Alike Draft.Shadows (declaration p d node) (declaration p d' node) := by
      cases node with
      | function name returns body => exact function_alike h name returns body
      | _ => exact .error _
    apply hnode.bind
    intro d₁ d₁' h₁
    exact ih h₁

end Generate

/-- The code `untraced` is `traced` without its comments and remarks, and so is its listing. -/
structure Code.Untraced (traced untraced : Code) : Prop where
  size : untraced.size = traced.size
  entries : untraced.entries = traced.entries
  get? : ∀ a, untraced.get? a = (traced.get? a).map Instruction.unremarked
  listing : strip traced.listing = untraced.listing

theorem Stream.Shadows.finish {s s' : Stream} (h : s.Shadows s') :
    s.finish.Untraced s'.finish := by
  refine ⟨?_, h.entries, ?_, ?_⟩
  · exact h.highWater
  · intro a
    rw [Code.get?, Code.get?, Stream.finish, Stream.finish, h.slots, Array.getElem?_map]
    cases s.slots[a]? with
    | none => rfl
    | some slot => rfl
  · apply Code.strip_listing ⟨?_, h.remarks⟩ h.slots
    · simp [Stream.finish, h.silent]
    · intro c hc
      exact h.comments c (Array.mem_toList_iff.1 (List.mem_mergeSort.1 hc))

/-- Whether a program is traced makes no difference to its code, nor to what its listing says of the
code. -/
theorem Program.generate_untraced (p : Program) :
    Alike Code.Untraced (p.generate true) (p.generate false) := by
  rw [generate, generate]
  apply (Generate.opening_alike p.globals.size).bind
  rintro ⟨start, d⟩ ⟨start', d'⟩ ⟨hstart, h⟩
  cases hstart
  apply (Generate.declarations_alike h p.declarations).bind
  intro d₁ d₁' h₁
  rw [h₁.entries]
  apply Alike.bind_same
  intro entry _
  apply (h₁.stream.patch start ((Sequence.tidy_call _ _).append ?_)).bind
  · intro s s' hs
    exact .ok hs.finish
  · simp [Sequence.Tidy, Sequence.halt, Line.registers, OneLine]

end CMinus
