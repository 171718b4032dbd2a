import CMinus.Machine.Code
import CMinus.Proofs.Compile

namespace CMinus

namespace Text

def OneLine (text : String) : Prop :=
  '\n' ∉ text.toList

instance (text : String) : Decidable (OneLine text) :=
  inferInstanceAs (Decidable (_ ∉ _))

theorem OneLine.append {a b : String} (ha : OneLine a) (hb : OneLine b) : OneLine (a ++ b) := by
  intro hmem
  rw [String.toList_append] at hmem
  rcases List.mem_append.1 hmem with hmem | hmem
  · exact ha hmem
  · exact hb hmem

/-- The lines of a text. The last one need not end in a line break. -/
def lines : List Char → List (List Char)
  | [] => []
  | c :: rest =>
    if c = '\n' then [] :: lines rest
    else
      match lines rest with
      | [] => [[c]]
      | line :: later => (c :: line) :: later

theorem lines_append {line : List Char} (h : '\n' ∉ line) (rest : List Char) :
    lines (line ++ '\n' :: rest) = line :: lines rest := by
  induction line with
  | nil => rfl
  | cons c line ih =>
    rw [List.mem_cons, not_or] at h
    rw [List.cons_append, lines, if_neg (Ne.symm h.1), ih h.2]

theorem lines_flatMap {parts : List (List Char)} (h : ∀ line ∈ parts, '\n' ∉ line) :
    lines (parts.flatMap (· ++ ['\n'])) = parts := by
  induction parts with
  | nil => rfl
  | cons line parts ih =>
    obtain ⟨hline, hparts⟩ := List.forall_mem_cons.1 h
    rw [List.flatMap_cons, List.append_assoc, List.singleton_append, lines_append hline, ih hparts]

/-- A line of a listing without its remark. Nothing is left of a comment. -/
def cut (line : List Char) : Option (List Char) :=
  if line.head? = some '*' then none else some (line.takeWhile (· ≠ '\t'))

def strip (text : String) : String :=
  String.ofList (((lines text.toList).filterMap cut).flatMap (· ++ ['\n']))

theorem nat_lacks {c : Char} (hc : c.isDigit = false) (n : Nat) : c ∉ (toString n).toList := by
  intro hmem
  rw [Nat.toString_eq_repr, Nat.repr_eq_ofList_toDigits, String.toList_ofList] at hmem
  have hdigit := Nat.isDigit_of_mem_toDigits (by decide) (by decide) hmem
  rw [hc] at hdigit
  cases hdigit

theorem int_lacks {c : Char} (hc : c.isDigit = false) (hsign : c ≠ '-') (n : Int) :
    c ∉ (toString n).toList := by
  cases n with
  | ofNat n => exact nat_lacks hc n
  | negSucc n =>
    intro hmem
    have hmem : c ∈ ("-" ++ toString (n + 1)).toList := hmem
    rw [String.toList_append, List.mem_append] at hmem
    rcases hmem with hmem | hmem
    · exact hsign (List.mem_singleton.1 hmem)
    · exact nat_lacks hc (n + 1) hmem

/-- A text without the characters that set off comments and remarks. -/
def Bare (text : String) : Prop :=
  ∀ c ∈ text.toList, c ≠ '\n' ∧ c ≠ '\t' ∧ c ≠ '*'

namespace Bare

theorem append {a b : String} (ha : Bare a) (hb : Bare b) : Bare (a ++ b) := by
  intro c hc
  rw [String.toList_append] at hc
  rcases List.mem_append.1 hc with hc | hc
  · exact ha c hc
  · exact hb c hc

theorem of_lacks {text : String} (hbreak : '\n' ∉ text.toList) (htab : '\t' ∉ text.toList)
    (hstar : '*' ∉ text.toList) : Bare text := by
  intro c hc
  refine ⟨?_, ?_, ?_⟩
  · rintro rfl
    exact hbreak hc
  · rintro rfl
    exact htab hc
  · rintro rfl
    exact hstar hc

theorem nat (n : Nat) : Bare (toString n) :=
  of_lacks (nat_lacks rfl n) (nat_lacks rfl n) (nat_lacks rfl n)

theorem int (n : Int) : Bare (toString n) :=
  of_lacks (int_lacks rfl (by decide) n) (int_lacks rfl (by decide) n)
    (int_lacks rfl (by decide) n)

theorem blanks (n : Nat) : Bare (Text.blanks n) := by
  intro c hc
  rw [Text.blanks, String.toList_ofList] at hc
  rw [List.eq_of_mem_replicate hc]
  decide

theorem pad {text : String} (h : Bare text) (width : Nat) : Bare (pad .right width text) :=
  (blanks _).append h

theorem oneLine {text : String} (h : Bare text) : OneLine text :=
  fun hmem => (h _ hmem).1 rfl

/-- What is left of a line that starts with a bare text and goes on with a remark, or ends there. -/
theorem cut_append {text : String} (h : Bare text) {rest : List Char}
    (hrest : rest = [] ∨ ∃ remark, rest = '\t' :: remark) :
    cut (text.toList ++ rest) = some text.toList := by
  have hhead : (text.toList ++ rest).head? ≠ some '*' := by
    intro hstar
    rw [List.head?_append] at hstar
    cases hfirst : text.toList.head? with
    | none =>
      rw [hfirst, Option.none_or] at hstar
      obtain rfl | ⟨remark, rfl⟩ := hrest <;> cases hstar
    | some c =>
      rw [hfirst, Option.some_or] at hstar
      cases hstar
      exact (h _ (List.mem_of_head? hfirst)).2.2 rfl
  have htail : rest.takeWhile (· ≠ '\t') = [] := by
    obtain rfl | ⟨remark, rfl⟩ := hrest <;> rfl
  rw [cut, if_neg hhead, List.takeWhile_append_of_pos fun c hc => by simpa using (h c hc).2.1,
    htail, List.append_nil]

end Bare

end Text

open Text

namespace Operands

theorem text_bare (operands : Operands) : Bare operands.text := by
  have hregister (r : Register) : Bare r.text := .nat _
  have hcomma : Bare "," := by simp [Bare]
  cases operands with
  | registers r s t =>
    exact ((((hregister r).append hcomma).append (hregister s)).append hcomma).append (hregister t)
  | memory r d s =>
    exact (((((hregister r).append hcomma).append (.int d.toInt)).append
      (by simp [Bare] : Bare "(")).append (hregister s)).append (by simp [Bare] : Bare ")")

end Operands

namespace Instruction

/-- The instruction as an untraced listing shows it. -/
def unremarked (i : Instruction) : Instruction :=
  { i with remark := none }

theorem text_of_remark {i : Instruction} {remark : String} (h : i.remark = some remark) :
    i.text = i.unremarked.text ++ "\t" ++ remark := by
  simp only [text, unremarked, h]

theorem text_bare {i : Instruction} (h : i.remark = none) : Bare i.text := by
  have hmnemonic : Bare i.opcode.mnemonic := by
    cases i.opcode <;> simp [Bare, Opcode.mnemonic]
  have haddress : Bare (Text.pad .right 3 (toString i.address)) := (Bare.nat _).pad 3
  rw [text, h]
  exact ((((haddress.append (by simp [Bare] : Bare ":  ")).append (hmnemonic.pad 5)).append
    (by simp [Bare] : Bare "  ")).append i.operands.text_bare).append (by simp [Bare] : Bare " ")

theorem cut_text (i : Instruction) : cut i.text.toList = some i.unremarked.text.toList := by
  have hbare : Bare i.unremarked.text := text_bare rfl
  cases h : i.remark with
  | none =>
    have hsame : i = i.unremarked := by rw [unremarked, ← h]
    rw [hsame, ← List.append_nil i.unremarked.text.toList]
    exact hbare.cut_append (.inl rfl)
  | some remark =>
    rw [text_of_remark h, String.toList_append, String.toList_append, List.append_assoc]
    exact hbare.cut_append (.inr ⟨remark.toList, rfl⟩)

theorem text_oneLine {i : Instruction} (h : ∀ remark, i.remark = some remark → OneLine remark) :
    OneLine i.text := by
  have hbare : Bare i.unremarked.text := text_bare rfl
  cases hremark : i.remark with
  | none => exact (text_bare hremark).oneLine
  | some remark =>
    rw [text_of_remark hremark]
    exact (hbare.oneLine.append (by decide)).append (h remark hremark)

end Instruction

namespace Code

structure Tidy (code : Code) : Prop where
  comments : ∀ c ∈ code.comments, OneLine c.text
  remarks : ∀ i, some i ∈ code.slots → ∀ remark, i.remark = some remark → OneLine remark

theorem cut_linesFrom (address : Nat) (slots : List (Option Instruction))
    (comments : List Comment) :
    (linesFrom address slots comments).filterMap (fun line => cut line.toList) =
      (linesFrom address (slots.map (Option.map Instruction.unremarked)) []).map
        String.toList := by
  have hcomments (comments : List Comment) :
      (comments.map Comment.line).filterMap (fun line => cut line.toList) = [] := by
    rw [List.filterMap_eq_nil_iff]
    intro line hline
    obtain ⟨c, -, rfl⟩ := List.mem_map.1 hline
    rw [Comment.line, String.toList_append]
    rfl
  induction slots generalizing address comments with
  | nil => exact hcomments comments
  | cons slot slots ih =>
    rw [linesFrom, List.filterMap_append, List.filterMap_append, hcomments, ih, List.map_cons,
      linesFrom, List.nil_append, List.takeWhile_nil, List.dropWhile_nil, List.map_nil,
      List.nil_append, List.map_append]
    cases slot with
    | none => rfl
    | some i => simp [Instruction.cut_text]

theorem oneLine_of_mem_linesFrom {address : Nat} {slots : List (Option Instruction)}
    {comments : List Comment} (hcomments : ∀ c ∈ comments, OneLine c.text)
    (hslots : ∀ i, some i ∈ slots → ∀ remark, i.remark = some remark → OneLine remark) :
    ∀ line ∈ linesFrom address slots comments, OneLine line := by
  have hline (c : Comment) (hc : c ∈ comments) : OneLine c.line :=
    OneLine.append (by decide) (hcomments c hc)
  induction slots generalizing address comments with
  | nil =>
    intro line hmem
    obtain ⟨c, hc, rfl⟩ := List.mem_map.1 hmem
    exact hline c hc
  | cons slot slots ih =>
    intro line hmem
    rw [linesFrom, List.mem_append, List.mem_append] at hmem
    rcases hmem with (hmem | hmem) | hmem
    · obtain ⟨c, hc, rfl⟩ := List.mem_map.1 hmem
      exact hline c (List.takeWhile_subset _ hc)
    · obtain ⟨i, hi, rfl⟩ := List.mem_map.1 hmem
      rw [Option.mem_toList] at hi
      exact Instruction.text_oneLine (hslots i (hi ▸ List.mem_cons_self))
    · have hsub : comments.dropWhile (·.address ≤ address) ⊆ comments :=
        (List.dropWhile_suffix _).subset
      exact ih (fun c hc => hcomments c (hsub hc))
        (fun i hi => hslots i (List.mem_cons_of_mem _ hi)) (fun c hc => hline c (hsub hc)) line hmem

theorem Tidy.oneLine {code : Code} (h : code.Tidy) :
    ∀ line ∈ code.lines.map String.toList, '\n' ∉ line := by
  intro line hline
  obtain ⟨text, htext, rfl⟩ := List.mem_map.1 hline
  refine oneLine_of_mem_linesFrom h.comments (fun i hi => h.remarks i ?_) text htext
  exact Array.mem_toList_iff.1 hi

theorem toList_listing (code : Code) :
    code.listing.toList = (code.lines.map String.toList).flatMap (· ++ ['\n']) := by
  rw [listing, String.toList_join, List.flatMap_map, List.flatMap_map]
  congr 1
  funext line
  rw [String.toList_append]
  rfl

/-- Stripping a listing with remarks and comments gives the listing without. -/
theorem strip_listing {traced untraced : Code} (h : traced.Tidy)
    (hslots : untraced.slots = traced.slots.map (Option.map Instruction.unremarked))
    (hcomments : untraced.comments = []) : strip traced.listing = untraced.listing := by
  have hlines : (traced.lines.map String.toList).filterMap cut =
      untraced.lines.map String.toList := by
    rw [List.filterMap_map, lines, lines, hslots, hcomments, Array.toList_map]
    exact cut_linesFrom ..
  rw [strip, toList_listing, lines_flatMap h.oneLine, hlines, ← toList_listing,
    String.ofList_toList]

end Code

end CMinus
