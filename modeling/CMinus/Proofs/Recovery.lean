import CMinus.Proofs.Interleaving

namespace CMinus

namespace Text

/-- What stands between blanks. -/
def words (line : List Char) : List (List Char) :=
  (line.splitOn ' ').filter (· ≠ [])

theorem words_blank (line : List Char) : words (' ' :: line) = words line := by
  have hsplit := List.splitOn_append_cons_self_of_not_mem (List.not_mem_nil (a := ' ')) line
  rw [words, ← List.nil_append (' ' :: line), hsplit]
  rfl

theorem words_blanks (n : Nat) (line : List Char) :
    words (List.replicate n ' ' ++ line) = words line := by
  induction n with
  | zero => rfl
  | succ n ih => rw [List.replicate_succ, List.cons_append, words_blank, ih]

theorem words_append {word : List Char} (hblank : ' ' ∉ word) (hword : word ≠ [])
    (rest : List Char) : words (word ++ ' ' :: rest) = word :: words rest := by
  rw [words, List.splitOn_append_cons_self_of_not_mem hblank,
    List.filter_cons_of_pos (by simpa using hword), words]

/-- Reads a number without a sign. -/
def natOf? (text : List Char) : Option Nat :=
  if text ≠ [] ∧ text.all Char.isDigit then some (Nat.ofDigitChars 10 text 0) else none

def intOf? : List Char → Option Int
  | '-' :: digits => (natOf? digits).map fun n => -(n : Int)
  | digits => (natOf? digits).map fun n => (n : Int)

theorem natOf?_toString (n : Nat) : natOf? (toString n).toList = some n := by
  have hdigits : ∀ c ∈ Nat.toDigits 10 n, c.isDigit = true := fun c hc =>
    Nat.isDigit_of_mem_toDigits (by decide) (by decide) hc
  rw [Nat.toString_eq_repr, Nat.repr_eq_ofList_toDigits, String.toList_ofList, natOf?,
    if_pos ⟨Nat.toDigits_ne_nil, List.all_eq_true.2 hdigits⟩, Nat.ofDigitChars_ten_toDigits]

theorem intOf?_toString (n : Int) : intOf? (toString n).toList = some n := by
  cases n with
  | ofNat n =>
    have hsign : ∀ digits, (toString n).toList ≠ '-' :: digits := by
      intro digits heq
      exact nat_lacks (c := '-') rfl n (heq ▸ List.mem_cons_self)
    change intOf? (toString n).toList = _
    rw [intOf?, natOf?_toString]
    · rfl
    · exact hsign
  | negSucc n =>
    have htext : (toString (Int.negSucc n)).toList = '-' :: (toString (n + 1)).toList := by
      change ("-" ++ toString (n + 1)).toList = _
      rw [String.toList_append]
      rfl
    rw [htext, intOf?, natOf?_toString]
    rfl

end Text

open Text

namespace Register

def all : List Register :=
  [.ax, .bx, .zero, .gp, .bp, .sp, .pc]

def ofText? (text : List Char) : Option Register :=
  all.find? (·.text.toList = text)

theorem ofText?_text (r : Register) : ofText? r.text.toList = some r := by
  cases r <;> decide +kernel

theorem text_lacks {c : Char} (hc : c.isDigit = false) (r : Register) : c ∉ r.text.toList :=
  nat_lacks hc _

end Register

namespace Opcode

def all : List Opcode :=
  [.halt, .input, .output, .add, .sub, .mul, .div, .ld, .st, .lda, .ldc, .jlt, .jle, .jgt, .jge,
   .jeq, .jne]

def ofMnemonic? (text : List Char) : Option Opcode :=
  all.find? (·.mnemonic.toList = text)

theorem ofMnemonic?_mnemonic (o : Opcode) : ofMnemonic? o.mnemonic.toList = some o := by
  cases o <;> decide +kernel

theorem mnemonic_word (o : Opcode) : ' ' ∉ o.mnemonic.toList ∧ o.mnemonic.toList ≠ [] := by
  cases o <;> decide

end Opcode

namespace Operands

/-- Reads `d(s)`. -/
def placeOfText? (text : List Char) : Option (Word × Register) :=
  match text.splitOn '(' with
  | [d, rest] =>
    match rest.splitOn ')' with
    | [s, []] => do
      let d ← intOf? d
      let s ← Register.ofText? s
      return (Int32.ofInt d, s)
    | _ => none
  | _ => none

def ofText? (text : List Char) : Option Operands :=
  match text.splitOn ',' with
  | [r, s, t] => do
    return .registers (← Register.ofText? r) (← Register.ofText? s) (← Register.ofText? t)
  | [r, place] => do
    let r ← Register.ofText? r
    let (d, s) ← placeOfText? place
    return .memory r d s
  | _ => none

theorem placeOfText?_text (d : Word) (s : Register) :
    placeOfText? ((toString d.toInt).toList ++ '(' :: (s.text.toList ++ [')'])) = some (d, s) := by
  have hopen := Register.text_lacks (c := '(') rfl s
  have hclose := Register.text_lacks (c := ')') rfl s
  have hnumber := int_lacks (c := '(') rfl (by decide) d.toInt
  have hrest : '(' ∉ s.text.toList ++ [')'] := by
    simpa using hopen
  rw [placeOfText?, List.splitOn_append_cons_self_of_not_mem hnumber,
    List.splitOn_eq_singleton hrest]
  dsimp only
  rw [List.splitOn_append_cons_self_of_not_mem hclose, List.splitOn_nil]
  dsimp only
  rw [intOf?_toString, Register.ofText?_text]
  exact congrArg (fun d => some (d, s)) (Int32.ofInt_toInt d)

theorem toList_text_memory (r : Register) (d : Word) (s : Register) :
    (memory r d s).text.toList =
      r.text.toList ++ ',' :: ((toString d.toInt).toList ++ '(' :: (s.text.toList ++ [')'])) := by
  change (r.text ++ "," ++ toString d.toInt ++ "(" ++ s.text ++ ")").toList = _
  simp [String.toList_append]

theorem toList_text_registers (r s t : Register) :
    (registers r s t).text.toList =
      r.text.toList ++ ',' :: (s.text.toList ++ ',' :: t.text.toList) := by
  change (r.text ++ "," ++ s.text ++ "," ++ t.text).toList = _
  simp [String.toList_append]

theorem ofText?_text (o : Operands) : ofText? o.text.toList = some o := by
  have hregister (r : Register) := Register.text_lacks (c := ',') rfl r
  cases o with
  | registers r s t =>
    rw [ofText?, toList_text_registers, List.splitOn_append_cons_self_of_not_mem (hregister r),
      List.splitOn_append_cons_self_of_not_mem (hregister s), List.splitOn_eq_singleton (hregister t)]
    dsimp only
    rw [Register.ofText?_text, Register.ofText?_text, Register.ofText?_text]
    rfl
  | memory r d s =>
    have hplace : ',' ∉ (toString d.toInt).toList ++ '(' :: (s.text.toList ++ [')']) := by
      simpa using ⟨int_lacks rfl (by decide) d.toInt, hregister s⟩
    rw [ofText?, toList_text_memory, List.splitOn_append_cons_self_of_not_mem (hregister r),
      List.splitOn_eq_singleton hplace]
    dsimp only
    rw [Register.ofText?_text, placeOfText?_text]
    rfl

theorem text_word (o : Operands) : ' ' ∉ o.text.toList ∧ o.text.toList ≠ [] := by
  have hregister (r : Register) := Register.text_lacks (c := ' ') rfl r
  cases o with
  | registers r s t =>
    rw [toList_text_registers]
    simpa using ⟨hregister r, hregister s, hregister t⟩
  | memory r d s =>
    rw [toList_text_memory]
    simpa using ⟨hregister r, int_lacks rfl (by decide) d.toInt, hregister s⟩

end Operands

namespace Instruction

/-- Reads the line of an untraced listing: the address and what stands there. -/
def ofLine? (line : List Char) : Option (Nat × Operation) :=
  match words line with
  | [address, mnemonic, operands] =>
    match address.splitOn ':' with
    | [digits, []] => do
      let address ← natOf? digits
      let opcode ← Opcode.ofMnemonic? mnemonic
      let operands ← Operands.ofText? operands
      return (address, ⟨opcode, operands⟩)
    | _ => none
  | _ => none

theorem words_text {i : Instruction} (h : i.remark = none) :
    words i.text.toList =
      [(toString i.address).toList ++ [':'], i.opcode.mnemonic.toList,
        i.operands.text.toList] := by
  have haddress : ' ' ∉ (toString i.address).toList ++ [':'] := by
    simpa using nat_lacks rfl i.address
  obtain ⟨hmnemonic, hmnemonic'⟩ := i.opcode.mnemonic_word
  obtain ⟨hoperands, hoperands'⟩ := i.operands.text_word
  have htext : i.text.toList =
      List.replicate (3 - (toString i.address).length) ' ' ++
        (((toString i.address).toList ++ [':']) ++ ' ' ::
          (' ' :: (List.replicate (5 - i.opcode.mnemonic.length) ' ' ++
            (i.opcode.mnemonic.toList ++ ' ' ::
              (' ' :: (i.operands.text.toList ++ ' ' :: [])))))) := by
    rw [text, h]
    change (blanks _ ++ toString i.address ++ ":  " ++ (blanks _ ++ i.opcode.mnemonic) ++ "  " ++
      i.operands.text ++ " ").toList = _
    simp [String.toList_append, blanks]
  rw [htext, words_blanks, words_append haddress (by simp), words_blank, words_blanks,
    words_append hmnemonic hmnemonic', words_blank, words_append hoperands hoperands']
  rfl

theorem ofLine?_text {i : Instruction} (h : i.remark = none) :
    ofLine? i.text.toList = some (i.address, i.toOperation) := by
  have haddress : ':' ∉ (toString i.address).toList := nat_lacks rfl i.address
  rw [ofLine?, words_text h]
  dsimp only
  rw [List.splitOn_append_cons_self_of_not_mem haddress, List.splitOn_nil]
  dsimp only
  rw [natOf?_toString, Opcode.ofMnemonic?_mnemonic, Operands.ofText?_text]
  rfl

end Instruction

namespace Code

/-- Reads an untraced listing: each filled address with the operation that stands there. -/
def ofListing? (text : String) : Option (List (Nat × Operation)) :=
  (Text.lines text.toList).mapM Instruction.ofLine?

theorem mem_instructions {code : Code} {i : Instruction} :
    i ∈ code.instructions ↔ ∃ a, code.get? a = some i := by
  rw [instructions, List.mem_filterMap]
  constructor
  · rintro ⟨slot, hslot, rfl⟩
    obtain ⟨a, ha⟩ := List.getElem?_of_mem hslot
    refine ⟨a, ?_⟩
    rw [get?, ← Array.getElem?_toList, ha]
    rfl
  · rintro ⟨a, ha⟩
    rw [get?, Option.join_eq_some_iff, ← Array.getElem?_toList] at ha
    exact ⟨some i, List.mem_of_getElem? ha, rfl⟩

theorem lines_of_no_comments {code : Code} (h : code.comments = []) :
    code.lines = code.instructions.map Instruction.text := by
  have hlines (address : Nat) (slots : List (Option Instruction)) :
      linesFrom address slots [] = (slots.filterMap id).map Instruction.text := by
    induction slots generalizing address with
    | nil => rfl
    | cons slot slots ih =>
      rw [linesFrom, List.dropWhile_nil, ih]
      cases slot <;> rfl
  rw [lines, h, hlines, instructions]

theorem ofListing?_listing {code : Code} (hcomments : code.comments = [])
    (hremarks : ∀ i ∈ code.instructions, i.remark = none) :
    ofListing? code.listing = some (code.instructions.map fun i => (i.address, i.toOperation)) := by
  have hread (list : List Instruction) (h : ∀ i ∈ list, i.remark = none) :
      (list.map fun i => i.text.toList).mapM Instruction.ofLine? =
        some (list.map fun i => (i.address, i.toOperation)) := by
    induction list with
    | nil => rfl
    | cons i list ih =>
      obtain ⟨hi, hlist⟩ := List.forall_mem_cons.1 h
      rw [List.map_cons, List.mapM_cons, Instruction.ofLine?_text hi, ih hlist]
      rfl
  have honeLine : ∀ line ∈ code.lines.map String.toList, '\n' ∉ line := by
    rw [lines_of_no_comments hcomments, List.map_map]
    intro line hline
    obtain ⟨i, hi, rfl⟩ := List.mem_map.1 hline
    exact (Instruction.text_bare (hremarks i hi)).oneLine
  rw [ofListing?, toList_listing, lines_flatMap honeLine, lines_of_no_comments hcomments,
    List.map_map]
  exact hread code.instructions hremarks

end Code

namespace Stream

variable {edits edits' : List Edit} {s s' : Stream}

/-- An untraced stream keeps operations and addresses, and nothing else. -/
theorem get?_of_untraced (hs : (new false).applyAll edits = .ok s) {a : Nat} {i : Instruction}
    (hi : s.finish.get? a = some i) : i.address = a ∧ i.remark = none := by
  have hslots := ((Tracks.new false).applyAll hs).slots a
  obtain ⟨line, -, rfl⟩ := Option.map_eq_some_iff.1 (hslots.symm.trans hi)
  exact ⟨rfl, rfl⟩

theorem comments_of_untraced (hs : (new false).applyAll edits = .ok s) : s.finish.comments = [] := by
  have hcomments : s.comments.toList = [] := comments_of_applyAll hs
  rw [finish, hcomments, List.mergeSort_nil]

theorem ofListing?_finish (hs : (new false).applyAll edits = .ok s) :
    ∃ slots, Code.ofListing? s.finish.listing = some slots ∧
      ∀ a op, (a, op) ∈ slots ↔ (s.finish.get? a).map (·.toOperation) = some op := by
  refine ⟨_, Code.ofListing?_listing (comments_of_untraced hs) ?_, ?_⟩
  · intro i hi
    obtain ⟨a, ha⟩ := Code.mem_instructions.1 hi
    exact (get?_of_untraced hs ha).2
  · intro a op
    rw [List.mem_map, Option.map_eq_some_iff]
    constructor
    · rintro ⟨i, hi, heq⟩
      cases heq
      obtain ⟨a, ha⟩ := Code.mem_instructions.1 hi
      obtain ⟨haddress, -⟩ := get?_of_untraced hs ha
      exact ⟨i, haddress.symm ▸ ha, rfl⟩
    · rintro ⟨i, ha, rfl⟩
      obtain ⟨haddress, -⟩ := get?_of_untraced hs ha
      exact ⟨i, Code.mem_instructions.2 ⟨a, ha⟩, by rw [haddress]⟩

/-- An untraced listing loses nothing: it can be read back into the filled slots, so codes with the
same listing have the same slots filled, with the same operations. -/
theorem slots_of_listing (hs : (new false).applyAll edits = .ok s)
    (hs' : (new false).applyAll edits' = .ok s') :
    (∃ slots, Code.ofListing? s.finish.listing = some slots ∧
      ∀ a op, (a, op) ∈ slots ↔ (s.finish.get? a).map (·.toOperation) = some op) ∧
    (s.finish.listing = s'.finish.listing →
      ∀ a, (s.finish.get? a).map (·.toOperation) = (s'.finish.get? a).map (·.toOperation)) := by
  obtain ⟨slots, hread, hslots⟩ := ofListing?_finish hs
  obtain ⟨slots', hread', hslots'⟩ := ofListing?_finish hs'
  refine ⟨⟨slots, hread, hslots⟩, fun hlisting a => ?_⟩
  rw [hlisting, hread'] at hread
  cases hread
  apply Option.ext
  intro op
  rw [← hslots, ← hslots']

/-- A hole, the least displacement and an end. -/
def sparse : List Edit :=
  [.reserve 2, .emit (.memory .ldc .ax (-2147483648) .ax ""),
   .emit (.registers .halt .ax .ax .ax "")]

/-- The same slots filled from the last to the first, and a hole behind them. -/
def sparseBackward : List Edit :=
  [.reserve 3, .emit (.registers .halt .ax .ax .ax ""), .reserve 1, .rewind 2,
   .emit (.memory .ldc .ax (-2147483648) .ax "")]

theorem sparse_slots :
    ∃ s s' slots, (new false).applyAll sparse = .ok s ∧ (new false).applyAll sparseBackward = .ok s' ∧
      s.finish.size ≠ s'.finish.size ∧ s.finish.listing = s'.finish.listing ∧
      Code.ofListing? s.finish.listing = some slots ∧
      (∀ a op, (a, op) ∈ slots ↔ (s.finish.get? a).map (·.toOperation) = some op) ∧
      ∀ a, (s.finish.get? a).map (·.toOperation) = (s'.finish.get? a).map (·.toOperation) := by
  have hchecks : ((new false).applyAll sparse).toOption.any (fun s =>
      ((new false).applyAll sparseBackward).toOption.any fun s' =>
        s.finish.size ≠ s'.finish.size && s.finish.listing = s'.finish.listing) = true := by
    decide +kernel
  obtain ⟨s, hs, hchecks⟩ := (Option.any_eq_true _ _).1 hchecks
  obtain ⟨s', hs', hchecks⟩ := (Option.any_eq_true _ _).1 hchecks
  rw [Bool.and_eq_true, decide_eq_true_iff, decide_eq_true_iff] at hchecks
  have hs := eq_ok_of_toOption hs
  have hs' := eq_ok_of_toOption hs'
  obtain ⟨⟨slots, hread, hslots⟩, hsame⟩ := slots_of_listing hs hs'
  exact ⟨s, s', slots, hs, hs', hchecks.1, hchecks.2, hread, hslots, hsame hchecks.2⟩

end Stream

end CMinus
