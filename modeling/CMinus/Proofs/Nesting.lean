import CMinus.Document.Write
import CMinus.Proofs.Literal

namespace CMinus

namespace Json

/-- Where a character of a document stands. -/
inductive Mode where
  | outside
  | quoted
  | escaped

/-- What the characters so far say about the next one. -/
structure Scan where
  mode : Mode
  opened : Nat

namespace Scan

def step : Scan → Char → Scan
  | ⟨.outside, n⟩, c =>
    if c = '"' then ⟨.quoted, n⟩
    else if c = '[' ∨ c = '\x7b' then ⟨.outside, n + 1⟩
    else if c = ']' ∨ c = '\x7d' then ⟨.outside, n - 1⟩
    else ⟨.outside, n⟩
  | ⟨.quoted, n⟩, c =>
    if c = '"' then ⟨.outside, n⟩
    else if c = '\\' then ⟨.escaped, n⟩
    else ⟨.quoted, n⟩
  | ⟨.escaped, n⟩, _ => ⟨.quoted, n⟩

/-- The most brackets open at once, from here to the end. -/
def deepest : Scan → List Char → Nat
  | s, [] => s.opened
  | s, c :: cs => max s.opened (deepest (s.step c) cs)

theorem opened_le_deepest (mode : Mode) (opened : Nat) (cs : List Char) :
    opened ≤ deepest ⟨mode, opened⟩ cs := by
  cases cs with
  | nil => exact Nat.le_refl _
  | cons c cs => exact Nat.le_max_left ..

@[simp]
theorem max_deepest (mode : Mode) (opened : Nat) (cs : List Char) :
    max opened (deepest ⟨mode, opened⟩ cs) = deepest ⟨mode, opened⟩ cs :=
  Nat.max_eq_right (opened_le_deepest mode opened cs)

end Scan

/-- The most brackets open at once in a document. -/
def nesting (document : List Char) : Nat :=
  Scan.deepest ⟨.outside, 0⟩ document

example : nesting "[\"\\\"[[\",[]]".toList = 2 := by decide +kernel

/-- Wherever `document` stands as a part, it opens `d` brackets at most and leaves none open. -/
def Spans (document : List Char) (d : Nat) : Prop :=
  ∀ opened rest, Scan.deepest ⟨.outside, opened⟩ (document ++ rest) =
    max (opened + d) (Scan.deepest ⟨.outside, opened⟩ rest)

namespace Spans

theorem nesting_eq {document : List Char} {d : Nat} (h : Spans document d) :
    nesting document = d := by
  simpa [nesting, Scan.deepest] using h 0 []

theorem nil : Spans [] 0 := by
  simp [Spans]

theorem append {a b : List Char} {d e : Nat} (ha : Spans a d) (hb : Spans b e) :
    Spans (a ++ b) (max d e) := by
  intro opened rest
  rw [List.append_assoc, ha, hb]
  omega

theorem cons {c : Char} {document : List Char} {d : Nat}
    (hc : ∀ n, Scan.step ⟨.outside, n⟩ c = ⟨.outside, n⟩) (h : Spans document d) :
    Spans (c :: document) d := by
  intro opened rest
  rw [List.cons_append, Scan.deepest, hc, Scan.max_deepest, h]

theorem of_step {document : List Char}
    (h : ∀ c ∈ document, ∀ n, Scan.step ⟨.outside, n⟩ c = ⟨.outside, n⟩) : Spans document 0 := by
  induction document with
  | nil => exact nil
  | cons c document ih =>
    exact cons (h c (by simp)) (ih fun c' hc' => h c' (by simp [hc']))

theorem bracket {left right : Char} {document : List Char} {d : Nat}
    (hleft : ∀ n, Scan.step ⟨.outside, n⟩ left = ⟨.outside, n + 1⟩)
    (hright : ∀ n, Scan.step ⟨.outside, n + 1⟩ right = ⟨.outside, n⟩) (h : Spans document d) :
    Spans (left :: document ++ [right]) (d + 1) := by
  intro opened rest
  have := Scan.opened_le_deepest .outside opened rest
  simp only [List.cons_append, List.append_assoc, List.nil_append, Scan.deepest, hleft, hright,
    h (opened + 1)]
  omega

end Spans

namespace Text

theorem hexDigit_ne : ∀ n < 16, hexDigit n ≠ '"' ∧ hexDigit n ≠ '\\' := by
  decide

/-- An encoded character does not end the text that it stands in. -/
theorem deepest_encodeChar (c : Char) (n : Nat) (rest : List Char) :
    Scan.deepest ⟨.quoted, n⟩ (encodeChar c ++ rest) = Scan.deepest ⟨.quoted, n⟩ rest := by
  unfold encodeChar
  split
  case h_8 hquote hbackslash _ _ _ _ _ =>
    split
    case isTrue hcontrol =>
      have hc : c.toNat < 32 := hcontrol
      have hhigh := hexDigit_ne (c.toNat / 16) (by omega)
      have hlow := hexDigit_ne (c.toNat % 16) (by omega)
      simp [Scan.deepest, Scan.step, hhigh, hlow]
    case isFalse =>
      have hquote : c ≠ '"' := hquote
      have hbackslash : c ≠ '\\' := hbackslash
      simp [Scan.deepest, Scan.step, hquote, hbackslash]
  all_goals simp [Scan.deepest, Scan.step]

theorem deepest_flatMap_encodeChar (chars : List Char) (n : Nat) (rest : List Char) :
    Scan.deepest ⟨.quoted, n⟩ (chars.flatMap encodeChar ++ rest) =
      Scan.deepest ⟨.quoted, n⟩ rest := by
  induction chars with
  | nil => rfl
  | cons c chars ih => rw [List.flatMap_cons, List.append_assoc, deepest_encodeChar, ih]

theorem spans_encode (text : String) : Spans (encode text) 0 := by
  intro opened rest
  simp [encode, Scan.deepest, Scan.step, deepest_flatMap_encodeChar]

end Text

def height : List Nat → Nat
  | [] => 0
  | d :: ds => max d (height ds)

theorem height_le_iff {ds : List Nat} {n : Nat} : height ds ≤ n ↔ ∀ d ∈ ds, d ≤ n := by
  induction ds with
  | nil => simp [height]
  | cons d ds ih => rw [height, Nat.max_le, ih, List.forall_mem_cons]

/-- The nesting of a list or object, given that of its parts. -/
def enclosing (parts : List Nat) : Nat :=
  height parts + 1

theorem enclosing_singleton (d : Nat) : enclosing [d] = d + 1 := by
  simp [enclosing, height]

theorem enclosing_le {parts : List Nat} {n budget : Nat} (hn : n < budget)
    (h : ∀ d ∈ parts, d ≤ n) : enclosing parts ≤ budget := by
  have := height_le_iff.2 h
  rw [enclosing]
  omega

/-- The texts `texts` have the nestings `ds`, in this order. -/
inductive EachSpans : List (List Char) → List Nat → Prop
  | nil : EachSpans [] []
  | cons {text : List Char} {d : Nat} {texts : List (List Char)} {ds : List Nat} :
    Spans text d → EachSpans texts ds → EachSpans (text :: texts) (d :: ds)

theorem EachSpans.map {α : Type} {write : α → List Char} {depth : α → Nat} {xs : List α}
    (h : ∀ x ∈ xs, Spans (write x) (depth x)) : EachSpans (xs.map write) (xs.map depth) := by
  induction xs with
  | nil => exact .nil
  | cons x xs ih => exact .cons (h x (by simp)) (ih fun y hy => h y (by simp [hy]))

namespace Writer

theorem commas_cons (item : List Char) (rest : List (List Char)) :
    commas (item :: rest) = item ++ rest.flatMap (',' :: ·) := by
  induction rest generalizing item with
  | nil => simp [commas]
  | cons next rest ih => simp [commas, ih]

theorem spans_commas {texts : List (List Char)} {ds : List Nat} (h : EachSpans texts ds) :
    Spans (commas texts) (height ds) := by
  have hrest {texts : List (List Char)} {ds : List Nat} (h : EachSpans texts ds) :
      Spans (texts.flatMap (',' :: ·)) (height ds) := by
    induction h with
    | nil => exact .nil
    | cons hd _ ih => exact (hd.cons (fun _ => rfl)).append ih
  cases h with
  | nil => exact .nil
  | cons hd h =>
    rw [commas_cons]
    exact hd.append (hrest h)

theorem spans_list {texts : List (List Char)} {ds : List Nat} (h : EachSpans texts ds) :
    Spans (list texts) (enclosing ds) :=
  (spans_commas h).bracket (fun _ => rfl) (fun _ => rfl)

/-- The members of an object, each with its name. -/
def memberTexts (members : List (String × List Char)) : List (List Char) :=
  members.map fun (name, value) => member name value

theorem spans_memberTexts {members : List (String × List Char)} {ds : List Nat}
    (h : EachSpans (members.map (·.2)) ds) : EachSpans (memberTexts members) ds := by
  induction members generalizing ds with
  | nil => exact h
  | cons m members ih =>
    cases h with
    | cons hd h =>
      have hm := (Text.spans_encode m.1).append (hd.cons (c := ':') fun _ => rfl)
      rw [Nat.zero_max] at hm
      exact .cons hm (ih h)

theorem spans_object {members : List (String × List Char)} {ds : List Nat}
    (h : EachSpans (members.map (·.2)) ds) : Spans (object members) (enclosing ds) :=
  (spans_commas (spans_memberTexts h)).bracket (fun _ => rfl) (fun _ => rfl)

theorem spans_variant (name : String) {payload : List Char} {d : Nat} (h : Spans payload d) :
    Spans (variant name payload) (enclosing [d]) :=
  spans_object (.cons h .nil)

theorem spans_integer (value : Int) : Spans (integer value) 0 := by
  have hdigit {c : Char} (hc : c.isDigit) (n : Nat) :
      Scan.step ⟨.outside, n⟩ c = ⟨.outside, n⟩ := by
    have hne : c ≠ '"' ∧ c ≠ '[' ∧ c ≠ '\x7b' ∧ c ≠ ']' ∧ c ≠ '\x7d' := by
      refine ⟨?_, ?_, ?_, ?_, ?_⟩ <;> (rintro rfl; simp at hc)
    simp [Scan.step, hne]
  have hdigits (n : Nat) : Spans (Nat.toDigits 10 n) 0 :=
    .of_step fun _ hc => hdigit (Number.isDigit_of_mem_toDigits hc)
  rw [integer_eq]
  split
  · exact hdigits _
  · exact (hdigits _).cons fun _ => rfl

theorem spans_null : Spans null 0 :=
  .of_step (by simp [null, Scan.step])

end Writer

end Json

open Json

namespace Document

def depthOption {α : Type} (depth : α → Nat) : Option α → Nat
  | none => 0
  | some value => depth value

def depthNames {α : Type} (depth : α → Nat) (m : NameMap α) : Nat :=
  enclosing (m.entries.map fun (_, value) => depth value)

theorem spans_writeOption {α : Type} {write : α → List Char} {depth : α → Nat}
    (h : ∀ value, Spans (write value) (depth value)) (x : Option α) :
    Spans (writeOption write x) (depthOption depth x) := by
  cases x with
  | none => exact Writer.spans_null
  | some value => exact h value

theorem spans_writeNames {α : Type} {write : α → List Char} {depth : α → Nat}
    (h : ∀ value, Spans (write value) (depth value)) (m : NameMap α) :
    Spans (writeNames write m) (depthNames depth m) := by
  apply Writer.spans_object
  rw [List.map_map]
  exact .map fun entry _ => h entry.2

end Document

open Document

namespace Variable

def depth (_ : Variable) : Nat :=
  enclosing [0, 0, 0]

theorem spans_write (v : Variable) : Spans v.write v.depth :=
  Writer.spans_object
    (.cons (Text.spans_encode _)
      (.cons (Text.spans_encode _) (.cons (Writer.spans_integer _) .nil)))

end Variable

namespace Table

def depth (t : Table) : Nat :=
  enclosing [0, 0, depthNames Variable.depth t.vars]

theorem spans_write (t : Table) : Spans t.write t.depth :=
  Writer.spans_object
    (.cons (Text.spans_encode _)
      (.cons (Writer.spans_integer _) (.cons (spans_writeNames Variable.spans_write _) .nil)))

end Table

namespace Signature

def depth (f : Signature) : Nat :=
  enclosing [0, f.params.depth]

theorem spans_write (f : Signature) : Spans f.write f.depth :=
  Writer.spans_object (.cons (Text.spans_encode _) (.cons f.params.spans_write .nil))

end Signature

namespace Node

mutual

def depth : Node → Nat
  | function _ _ body => enclosing [enclosing [0, 0, body.depth]]
  | compound table statements =>
    enclosing [enclosing [depthOption Table.depth table, enclosing (depthEach statements)]]
  | branch test thenPart elsePart =>
    enclosing [enclosing [test.depth, thenPart.depth, depthOptional elsePart]]
  | loop test body => enclosing [enclosing [test.depth, body.depth]]
  | ret _ value => enclosing [enclosing [0, depthOptional value]]
  | number _ => enclosing [0]
  | var _ => enclosing [0]
  | element _ index => enclosing [enclosing [0, index.depth]]
  | assign target value => enclosing [enclosing [target.depth, value.depth]]
  | binary _ left right => enclosing [enclosing [0, left.depth, right.depth]]
  | call _ args => enclosing [enclosing [0, enclosing (depthEach args)]]

def depthEach : List Node → List Nat
  | [] => []
  | node :: rest => node.depth :: depthEach rest

def depthOptional : Option Node → Nat
  | none => 0
  | some node => node.depth

end

open Writer

mutual

theorem spans_write : (node : Node) → Spans node.write node.depth
  | function _ _ body =>
    spans_variant _ <| spans_object
      (.cons (Text.spans_encode _) (.cons (Text.spans_encode _) (.cons (spans_write body) .nil)))
  | compound table statements =>
    spans_variant _ <| spans_list
      (.cons (spans_writeOption Table.spans_write table)
        (.cons (spans_list (spans_writeEach statements)) .nil))
  | branch test thenPart elsePart =>
    spans_variant _ <| spans_list
      (.cons (spans_write test)
        (.cons (spans_write thenPart) (.cons (spans_writeOptional elsePart) .nil)))
  | loop test body =>
    spans_variant _ <| spans_list (.cons (spans_write test) (.cons (spans_write body) .nil))
  | ret _ value =>
    spans_variant _ <| spans_list
      (.cons (Text.spans_encode _) (.cons (spans_writeOptional value) .nil))
  | number _ => spans_variant _ (spans_integer _)
  | var _ => spans_variant _ (Text.spans_encode _)
  | element _ index =>
    spans_variant _ <| spans_list (.cons (Text.spans_encode _) (.cons (spans_write index) .nil))
  | assign target value =>
    spans_variant _ <| spans_list (.cons (spans_write target) (.cons (spans_write value) .nil))
  | binary _ left right =>
    spans_variant _ <| spans_list
      (.cons (Text.spans_encode _) (.cons (spans_write left) (.cons (spans_write right) .nil)))
  | call _ args =>
    spans_variant _ <| spans_list
      (.cons (Text.spans_encode _) (.cons (spans_list (spans_writeEach args)) .nil))

theorem spans_writeEach : (nodes : List Node) → EachSpans (writeEach nodes) (depthEach nodes)
  | [] => .nil
  | node :: rest => .cons (spans_write node) (spans_writeEach rest)

theorem spans_writeOptional : (node : Option Node) →
    Spans (writeOptional node) (depthOptional node)
  | none => spans_null
  | some node => spans_write node

end

end Node

namespace Program

def depth (p : Program) : Nat :=
  enclosing [p.globals.depth, depthNames Signature.depth p.functions,
    enclosing (Node.depthEach p.declarations)]

theorem spans_write (p : Program) : Spans p.write p.depth :=
  Writer.spans_object
    (.cons p.globals.spans_write
      (.cons (spans_writeNames Signature.spans_write _)
        (.cons (Writer.spans_list (Node.spans_writeEach _)) .nil)))

end Program

end CMinus
