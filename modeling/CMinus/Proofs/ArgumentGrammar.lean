import CMinus.CommandLine.Arguments
import Mathlib.Data.List.Perm.Basic

namespace CMinus

namespace Command

/-- What a command line is made of. The path of an output may be any text, also one that looks like
an option. -/
inductive Item where
  | trace (long : Bool)
  | output (path : String)
  | input (path : String) (plain : path.toList.head? ≠ some '-')

namespace Item

def words : Item → List String
  | trace long => [if long then "--trace" else "-t"]
  | output path => ["-o", path]
  | input path _ => [path]

def input? : Item → Option String
  | input path _ => some path
  | trace _ | output _ => none

def output? : Item → Option String
  | output path => some path
  | trace _ | input _ _ => none

def isTrace : Item → Bool
  | trace _ => true
  | output _ | input _ _ => false

/-- The arguments that are cut into the items. -/
def spell (items : List Item) : List String :=
  items.flatMap words

def inputs (items : List Item) : List String :=
  items.filterMap input?

def outputs (items : List Item) : List String :=
  items.filterMap output?

def traced (items : List Item) : Bool :=
  items.any isTrace

theorem spell_cons (item : Item) (items : List Item) :
    spell (item :: items) = item.words ++ spell items := rfl

theorem inputs_cons (item : Item) (items : List Item) :
    inputs (item :: items) = item.input?.toList ++ inputs items := by
  cases item <;> rfl

theorem outputs_cons (item : Item) (items : List Item) :
    outputs (item :: items) = item.output?.toList ++ outputs items := by
  cases item <;> rfl

theorem traced_cons (item : Item) (items : List Item) :
    traced (item :: items) = (item.isTrace || traced items) := rfl

end Item

open Item

/-- After items with one input at most, the arguments ask for help. -/
def AsksHelp (args : List String) : Prop :=
  ∃ items arg rest, args = spell items ++ arg :: rest ∧ (inputs items).length ≤ 1 ∧
    (arg = "-h" ∨ arg = "--help")

namespace Seen

def read (seen : Seen) : Item → Seen
  | .trace _ => { seen with trace := true }
  | .output path => { seen with output := some path }
  | .input path _ => { seen with input := some path }

/-- There is one input at most, with those of the items. -/
def Admits (seen : Seen) (items : List Item) : Prop :=
  (seen.input.toList ++ inputs items).length ≤ 1

instance (seen : Seen) (items : List Item) : Decidable (seen.Admits items) :=
  inferInstanceAs (Decidable (_ ≤ _))

variable {seen : Seen} {item : Item} {items : List Item}

theorem admits_nil : seen.Admits [] := by
  cases h : seen.input <;> simp [Admits, inputs, h]

theorem admits_cons :
    seen.Admits (item :: items) ↔
      (item.input? = none ∨ seen.input = none) ∧ (seen.read item).Admits items := by
  rw [Admits, Admits, inputs_cons]
  cases item with
  | trace long => simp [input?, read]
  | output path => simp [input?, read]
  | input path plain => cases seen.input <;> simp [input?, read]

/-- Of outputs the last one counts, and one request for a trace is enough. -/
theorem foldl_read (seen : Seen) (items : List Item) :
    items.foldl read seen =
      ⟨(inputs items).getLast?.or seen.input, (outputs items).getLast?.or seen.output,
        traced items || seen.trace⟩ := by
  induction items generalizing seen with
  | nil => rfl
  | cons item items ih =>
    rw [List.foldl_cons, ih, inputs_cons, outputs_cons, traced_cons, List.getLast?_append,
      List.getLast?_append, Option.or_assoc, Option.or_assoc]
    cases item with
    | trace long => simp [read, input?, output?, isTrace]
    | output path => simp [read, input?, output?, isTrace]
    | input path plain => simp [read, input?, output?, isTrace]

end Seen

variable {seen : Seen} {item : Item} {args : List String}

theorem ne_of_plain {path flag : String} (hplain : path.toList.head? ≠ some '-')
    (hflag : flag.toList.head? = some '-') : path ≠ flag := by
  rintro rfl
  exact hplain hflag

theorem parseFrom_input {path : String} (hplain : path.toList.head? ≠ some '-') :
    parseFrom seen (path :: args) =
      if seen.input.isSome then .error .severalInputs
      else parseFrom { seen with input := some path } args := by
  have hhelp : ¬ (path = "-h" ∨ path = "--help") :=
    not_or.2 ⟨ne_of_plain hplain rfl, ne_of_plain hplain rfl⟩
  have htrace : ¬ (path = "-t" ∨ path = "--trace") :=
    not_or.2 ⟨ne_of_plain hplain rfl, ne_of_plain hplain rfl⟩
  have houtput : path ≠ "-o" := ne_of_plain hplain rfl
  have hflag : isFlag path = false := decide_eq_false hplain
  rw [parseFrom.eq_def]
  simp only [if_neg hhelp, if_neg htrace, if_neg houtput, hflag, Bool.false_eq_true, if_false]

theorem parseFrom_words (h : item.input? = none ∨ seen.input = none) :
    parseFrom seen (item.words ++ args) = parseFrom (seen.read item) args := by
  cases item with
  | trace long =>
    rw [words, List.singleton_append, parseFrom.eq_def]
    cases long <;> simp [Seen.read]
  | output path =>
    rw [words, parseFrom.eq_def]
    simp [Seen.read]
  | input path plain =>
    have hnone : seen.input = none := h.resolve_left (by simp [input?])
    rw [words, List.singleton_append, parseFrom_input plain, hnone]
    rfl

/-- Items are read one after the other. A second input ends the reading, whatever follows. -/
theorem parseFrom_spell (seen : Seen) (items : List Item) (rest : List String) :
    parseFrom seen (spell items ++ rest) =
      if seen.Admits items then parseFrom (items.foldl Seen.read seen) rest
      else .error .severalInputs := by
  induction items generalizing seen with
  | nil => exact (if_pos Seen.admits_nil).symm
  | cons item items ih =>
    rw [spell_cons, List.append_assoc]
    by_cases h : item.input? = none ∨ seen.input = none
    · have hadmits : seen.Admits (item :: items) ↔ (seen.read item).Admits items :=
        Seen.admits_cons.trans (and_iff_right h)
      rw [parseFrom_words h, ih, List.foldl_cons]
      simp only [hadmits]
    · have hrefused : ¬ seen.Admits (item :: items) := fun hadmits =>
        h (Seen.admits_cons.1 hadmits).1
      rw [if_neg hrefused]
      cases item with
      | trace long => exact absurd (.inl rfl) h
      | output path => exact absurd (.inl rfl) h
      | input path plain =>
        rw [words, List.singleton_append, parseFrom_input plain, if_pos]
        simpa [input?, Option.isSome_iff_ne_none] using h

/-- What the arguments are made of, by the answer to them. -/
def Reads (seen : Seen) (args : List String) : Except ArgumentError Command → Prop
  | .ok (.compile options) => ∃ items, args = spell items ∧ seen.Admits items ∧
      items.foldl Seen.read seen = ⟨some options.input, options.output, options.trace⟩
  | .ok .help => ∃ items arg rest, args = spell items ++ arg :: rest ∧ seen.Admits items ∧
      (arg = "-h" ∨ arg = "--help")
  | .error _ => True

theorem Reads.cons {answer : Except ArgumentError Command} (item : Item)
    (hitem : item.input? = none ∨ seen.input = none)
    (h : Reads (seen.read item) args answer) : Reads seen (item.words ++ args) answer := by
  cases answer with
  | error e => trivial
  | ok command =>
    cases command with
    | compile options =>
      obtain ⟨items, rfl, hadmits, hread⟩ := h
      exact ⟨item :: items, rfl, Seen.admits_cons.2 ⟨hitem, hadmits⟩, hread⟩
    | help =>
      obtain ⟨items, arg, rest, rfl, hadmits, harg⟩ := h
      refine ⟨item :: items, arg, rest, ?_, Seen.admits_cons.2 ⟨hitem, hadmits⟩, harg⟩
      rw [spell_cons, List.append_assoc]

theorem reads_parseFrom (seen : Seen) (args : List String) :
    Reads seen args (parseFrom seen args) := by
  fun_induction parseFrom seen args with
  | case1 seen input hinput =>
    refine ⟨[], rfl, Seen.admits_nil, ?_⟩
    rw [← hinput]
    rfl
  | case2 => trivial
  | case3 seen arg rest hhelp => exact ⟨[], arg, rest, rfl, Seen.admits_nil, hhelp⟩
  | case4 seen arg rest _ htrace ih =>
    rcases htrace with rfl | rfl
    · exact ih.cons (.trace false) (.inl rfl)
    · exact ih.cons (.trace true) (.inl rfl)
  | case5 => trivial
  | case6 seen path rest _ _ ih => exact ih.cons (.output path) (.inl rfl)
  | case7 => trivial
  | case8 => trivial
  | case9 seen path rest _ _ _ hflag hinput ih =>
    have hplain : path.toList.head? ≠ some '-' := by simpa [isFlag] using hflag
    have hnone : seen.input = none := by simpa using hinput
    exact ih.cons (.input path hplain) (.inr hnone)

theorem parse_spell (items : List Item) (rest : List String) :
    parse (spell items ++ rest) =
      if (inputs items).length ≤ 1 then
        parseFrom ⟨(inputs items).getLast?, (outputs items).getLast?, traced items⟩ rest
      else .error .severalInputs := by
  rw [parse, parseFrom_spell, Seen.foldl_read, Option.or_none, Option.or_none, Bool.or_false]
  rfl

theorem parse_congr {items items' : List Item} (hinputs : (inputs items').Perm (inputs items))
    (houtput : (outputs items').getLast? = (outputs items).getLast?)
    (htraced : traced items' = traced items) : parse (spell items') = parse (spell items) := by
  rw [← List.append_nil (spell items'), ← List.append_nil (spell items), parse_spell, parse_spell,
    houtput, htraced, hinputs.length_eq]
  split
  · next hlength =>
    have heq : inputs items' = inputs items := by
      cases h : inputs items with
      | nil =>
        rw [h] at hinputs
        exact hinputs.eq_nil
      | cons input rest =>
        obtain rfl : rest = [] := by
          rw [h] at hlength
          exact List.length_eq_zero_iff.1 (Nat.le_zero.1 (Nat.le_of_succ_le_succ hlength))
        rw [h] at hinputs
        exact hinputs.eq_singleton
    rw [heq]
  · rfl

theorem parse_eq_compile_iff {options : Options} :
    parse args = .ok (.compile options) ↔ ∃ items, args = spell items ∧
      inputs items = [options.input] ∧ (outputs items).getLast? = options.output ∧
      traced items = options.trace := by
  constructor
  · intro h
    have hreads := reads_parseFrom ⟨none, none, false⟩ args
    rw [← parse, h] at hreads
    obtain ⟨items, rfl, hadmits, hread⟩ := hreads
    rw [Seen.foldl_read, Option.or_none, Option.or_none, Bool.or_false, Seen.mk.injEq] at hread
    obtain ⟨hinput, houtput, htrace⟩ := hread
    refine ⟨items, rfl, ?_, houtput, htrace⟩
    have hlength : (inputs items).length ≤ 1 := hadmits
    match hinputs : inputs items with
    | [] => simp [hinputs] at hinput
    | [path] => simpa [hinputs] using hinput
    | _ :: _ :: _ => simp [hinputs] at hlength
  · rintro ⟨items, rfl, hinputs, houtput, htrace⟩
    rw [← List.append_nil (spell items), parse_spell, hinputs, houtput, htrace]
    rfl

theorem parse_eq_error_iff :
    (∃ e, parse args = .error e) ↔
      (¬ ∃ items, args = spell items ∧ (inputs items).length = 1) ∧ parse args ≠ .ok .help := by
  constructor
  · rintro ⟨e, he⟩
    refine ⟨?_, by simp [he]⟩
    rintro ⟨items, hargs, hlength⟩
    obtain ⟨path, hinputs⟩ := List.length_eq_one_iff.1 hlength
    have hcompile : parse args =
        .ok (.compile ⟨path, (outputs items).getLast?, traced items⟩) :=
      parse_eq_compile_iff.2 ⟨items, hargs, hinputs, rfl, rfl⟩
    cases he.symm.trans hcompile
  · rintro ⟨hitems, hhelp⟩
    cases h : parse args with
    | error e => exact ⟨e, rfl⟩
    | ok command =>
      cases command with
      | compile options =>
        obtain ⟨items, hargs, hinputs, -⟩ := parse_eq_compile_iff.1 h
        exact absurd ⟨items, hargs, by rw [hinputs]; rfl⟩ hitems
      | help => exact absurd h hhelp

theorem parse_eq_help_iff : parse args = .ok .help ↔ AsksHelp args := by
  constructor
  · intro h
    have hreads := reads_parseFrom ⟨none, none, false⟩ args
    rw [← parse, h] at hreads
    exact hreads
  · rintro ⟨items, arg, rest, rfl, hlength, hhelp⟩
    rw [parse_spell, if_pos hlength, parseFrom.eq_def]
    exact if_pos hhelp

/-- The arguments that are cut into items with one input ask for a compilation, by these items and
whatever their order but for that of the outputs; those that ask for help after items with one input
at most are answered by help; and all others are refused. -/
theorem parse_iff_grammar (args : List String) :
    (∀ options, parse args = .ok (.compile options) ↔ ∃ items, args = spell items ∧
        inputs items = [options.input] ∧ (outputs items).getLast? = options.output ∧
        traced items = options.trace) ∧
      (∀ items items', args = spell items → items'.Perm items → outputs items' = outputs items →
        parse (spell items') = parse args) ∧
      (parse args = .ok .help ↔ AsksHelp args) ∧
      ((∃ e, parse args = .error e) ↔
        (¬ ∃ items, args = spell items ∧ (inputs items).length = 1) ∧ ¬ AsksHelp args) := by
  refine ⟨fun options => parse_eq_compile_iff, ?_, parse_eq_help_iff, ?_⟩
  · rintro items items' rfl hperm houtputs
    exact parse_congr (hperm.filterMap _) (congrArg _ houtputs) hperm.any_eq
  · rw [parse_eq_error_iff, ne_eq, parse_eq_help_iff]

/-- An output may look like an option, and the last one counts. -/
theorem reordered_compile :
    parse ["-o", "-h", "p.json", "-t", "-o", "q.tm"] =
        .ok (.compile ⟨"p.json", some "q.tm", true⟩) ∧
      parse ["--trace", "-o", "-h", "-o", "q.tm", "p.json"] =
        parse ["--trace", "p.json", "-o", "-h", "-o", "q.tm"] := by
  obtain ⟨hcompile, -⟩ := parse_iff_grammar ["-o", "-h", "p.json", "-t", "-o", "q.tm"]
  obtain ⟨-, horder, -⟩ := parse_iff_grammar ["--trace", "p.json", "-o", "-h", "-o", "q.tm"]
  have hplain : "p.json".toList.head? ≠ some '-' := by decide
  have hperm : ([.output "-h", .output "q.tm"] ++ [.input "p.json" hplain] : List Item).Perm
      ([.input "p.json" hplain] ++ [.output "-h", .output "q.tm"]) := List.perm_append_comm
  constructor
  · exact (hcompile _).2
      ⟨[.output "-h", .input "p.json" hplain, .trace false, .output "q.tm"], rfl, rfl, rfl, rfl⟩
  · refine horder [.trace true, .input "p.json" hplain, .output "-h", .output "q.tm"]
      [.trace true, .output "-h", .output "q.tm", .input "p.json" hplain] rfl ?_ rfl
    exact hperm.cons _

end Command

end CMinus
