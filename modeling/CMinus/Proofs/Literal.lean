import CMinus.Json.Shape
import CMinus.Json.Writer

namespace CMinus.Json

namespace Reader

variable {α β : Type} {r : Reader α} {f : α → Reader β} {cs rest : List Char}

theorem bind_of_ok {x : α} (h : r cs = .ok (x, rest)) : (r >>= f) cs = f x rest := by
  simp [bind, StateT.bind, Except.bind, h]

theorem bind_of_error {e : ReadError} (h : r cs = .error e) : (r >>= f) cs = .error e := by
  simp [bind, StateT.bind, Except.bind, h]

@[simp]
theorem pure_run (x : α) (cs : List Char) : (pure x : Reader α) cs = .ok (x, cs) := rfl

@[simp]
theorem advance_cons (c : Char) (cs : List Char) : advance (c :: cs) = .ok ((), cs) := rfl

theorem remaining_run (cs : List Char) : remaining cs = .ok (cs, cs) := rfl

theorem peek_cons {c : Char} (h : isBlank c = false) (cs : List Char) :
    peek (c :: cs) = .ok (some c, c :: cs) := by
  simp [peek, h]

theorem first_cons {c : Char} (h : isBlank c = false) (cs : List Char) :
    first (c :: cs) = .ok (c, c :: cs) := by
  rw [first, bind_of_ok (peek_cons h cs)]
  rfl

theorem word_append (expected rest : List Char) :
    word expected (expected ++ rest) = .ok ((), rest) := by
  induction expected with
  | nil => simp [word]
  | cons c expected ih => simpa [word] using ih

end Reader

namespace Text

theorem hexValue_hexDigit : ∀ n < 16, hexValue (hexDigit n) = some n := by
  decide

theorem hex4_control {n : Nat} (h : n < 32) (rest : List Char) :
    hex4 ('0' :: '0' :: hexDigit (n / 16) :: hexDigit (n % 16) :: rest) = .ok (n, rest) := by
  have hzero : hexValue '0' = some 0 := by decide
  have hhigh := hexValue_hexDigit (n / 16) (by omega)
  have hlow := hexValue_hexDigit (n % 16) (by omega)
  have hn : n / 16 * 16 + n % 16 = n := by omega
  simp [hex4, hex4?, hzero, hhigh, hlow, hn]

theorem codePoint_control {c : Char} (h : c.toNat < 32) (rest : List Char) :
    codePoint ('0' :: '0' :: hexDigit (c.toNat / 16) :: hexDigit (c.toNat % 16) :: rest) =
      .ok (c, rest) := by
  have htrailing : isTrailing c.toNat = false := by simp [isTrailing]; omega
  have hleading : isLeading c.toNat = false := by simp [isLeading]; omega
  rw [codePoint, Reader.bind_of_ok (hex4_control h rest)]
  simp [htrailing, hleading]

/-- One step of the reader undoes what the writer did to one character. -/
theorem charsFrom_encodeChar (step c : Char) (fuel taken rest : List Char) :
    charsFrom (step :: fuel) taken (encodeChar c ++ rest) = charsFrom fuel (c :: taken) rest := by
  unfold encodeChar
  split
  case h_8 hquote hbackslash _ _ _ _ _ =>
    split
    case isTrue hcontrol =>
      have hescape : shortEscape? 'u' = none := by decide
      have hc : c.toNat < 32 := hcontrol
      simp [charsFrom, escape, hescape, codePoint_control hc]
    case isFalse hplain =>
      have hquote : c ≠ '"' := hquote
      have hbackslash : c ≠ '\\' := hbackslash
      simp [charsFrom, hquote, hbackslash, hplain]
  all_goals simp [charsFrom, escape, shortEscape?]

theorem charsFrom_flatMap_encodeChar (chars rest : List Char) (fuel taken : List Char)
    (hfuel : chars.length < fuel.length) :
    charsFrom fuel taken (chars.flatMap encodeChar ++ '"' :: rest) =
      .ok (taken.reverse ++ chars, rest) := by
  induction chars generalizing fuel taken with
  | nil =>
    cases fuel with
    | nil => simp at hfuel
    | cons step fuel => simp [charsFrom]
  | cons c chars ih =>
    cases fuel with
    | nil => simp at hfuel
    | cons step fuel =>
      rw [List.flatMap_cons, List.append_assoc, charsFrom_encodeChar,
        ih fuel (c :: taken) (by simpa using hfuel)]
      simp

theorem length_le_flatMap_encodeChar (chars : List Char) :
    chars.length ≤ (chars.flatMap encodeChar).length := by
  induction chars with
  | nil => simp
  | cons c chars ih =>
    have hc : 0 < (encodeChar c).length := by
      unfold encodeChar
      split <;> first | simp | split <;> simp
    simp only [List.flatMap_cons, List.length_append, List.length_cons]
    omega

end Text

namespace Reader

theorem first_encode (text : String) (rest : List Char) :
    first (Text.encode text ++ rest) = .ok ('"', Text.encode text ++ rest) :=
  first_cons (by decide) _

theorem textBody_encode (text : String) (rest : List Char) :
    textBody (text.toList.flatMap Text.encodeChar ++ '"' :: rest) = .ok (text, rest) := by
  have hlength := Text.length_le_flatMap_encodeChar text.toList
  rw [textBody, Text.charsFrom_flatMap_encodeChar]
  · simp
  · rw [List.length_append, List.length_cons]
    omega

theorem quoted_encode {α : Type} {f : String → Reader α} (text : String) (rest : List Char) :
    (do advance; f (← textBody)) (Text.encode text ++ rest) = f text rest := by
  rw [Text.encode, List.append_assoc, List.cons_append, bind_of_ok (advance_cons _ _),
    List.singleton_append, bind_of_ok (textBody_encode text rest)]

end Reader

namespace Number

/-- What may follow an integer, so that it ends there. -/
def Stops (rest : List Char) : Prop :=
  ∀ c, rest.head? = some c → c.isDigit = false ∧ c ≠ '.' ∧ c ≠ 'e' ∧ c ≠ 'E'

theorem stops_nil : Stops [] := by
  simp [Stops]

theorem stops_cons {c : Char} (rest : List Char)
    (h : c.isDigit = false ∧ c ≠ '.' ∧ c ≠ 'e' ∧ c ≠ 'E') : Stops (c :: rest) := by
  simpa [Stops] using h

theorem le_ofDigitChars (digits : List Char) (n : Nat) : n ≤ Nat.ofDigitChars 10 digits n := by
  induction digits generalizing n with
  | nil => simp
  | cons d digits ih =>
    have := ih (10 * n + (d.toNat - '0'.toNat))
    rw [Nat.ofDigitChars_cons]
    omega

theorem accumulate_eq {limit : Nat} (digits : List Char) (n : Nat)
    (h : Nat.ofDigitChars 10 digits n < limit) :
    accumulate limit n digits = (Nat.ofDigitChars 10 digits n, []) := by
  induction digits generalizing n with
  | nil => rfl
  | cons d digits ih =>
    rw [Nat.ofDigitChars_cons] at h ⊢
    have hnext : n * 10 + digitValue d = 10 * n + (d.toNat - '0'.toNat) := by
      rw [Nat.mul_comm, digitValue]
    have hle := le_ofDigitChars digits (10 * n + (d.toNat - '0'.toNat))
    simp only [accumulate, hnext]
    rw [if_pos (by omega), ih _ h]

theorem isDigit_of_mem_toDigits {n : Nat} {c : Char} (h : c ∈ Nat.toDigits 10 n) : c.isDigit :=
  Nat.isDigit_of_mem_toDigits (by decide) (by decide) h

theorem exists_toDigits_eq (n : Nat) :
    ∃ c digits, Nat.toDigits 10 n = c :: digits ∧ c.isDigit := by
  cases hdigits : Nat.toDigits 10 n with
  | nil => exact absurd hdigits Nat.toDigits_ne_nil
  | cons c digits => exact ⟨c, digits, rfl, isDigit_of_mem_toDigits (n := n) (by simp [hdigits])⟩

/-- Only zero is written with a leading zero. -/
theorem head_toDigits_ne_zero {n : Nat} (h : 0 < n) : (Nat.toDigits 10 n).head? ≠ some '0' := by
  induction n using Nat.strongRecOn with
  | ind n ih =>
    rw [Nat.toDigits_eq_if (by decide)]
    split
    · simp
      omega
    · have hhead := ih (n / 10) (by omega) (by omega)
      cases hdigits : Nat.toDigits 10 (n / 10) with
      | nil => exact absurd hdigits Nat.toDigits_ne_nil
      | cons c digits => simpa [hdigits] using hhead

theorem takeWhile_isDigit {digits rest : List Char} (hdigits : ∀ c ∈ digits, c.isDigit)
    (hrest : Stops rest) :
    (digits ++ rest).takeWhile Char.isDigit = digits ∧
      (digits ++ rest).dropWhile Char.isDigit = rest := by
  rw [List.takeWhile_append_of_pos hdigits, List.dropWhile_append_of_pos hdigits]
  cases rest with
  | nil => simp
  | cons c rest =>
    obtain ⟨hc, -⟩ := hrest c rfl
    simp [hc]

theorem readTail_of_stops (positive : Bool) (n : Nat) {rest : List Char} (h : Stops rest) :
    readTail positive n 0 rest = .ok (ofInteger positive n, rest) := by
  cases rest with
  | nil => rfl
  | cons c rest =>
    obtain ⟨-, hpoint, hlower, hupper⟩ := h c rfl
    simp [readTail, isExponentMark, hpoint, hlower, hupper]

theorem read_toDigits (positive : Bool) {n : Nat} (hn : n < significandLimit) {rest : List Char}
    (hrest : Stops rest) :
    read positive (Nat.toDigits 10 n ++ rest) = .ok (ofInteger positive n, rest) := by
  have htail := readTail_of_stops positive n hrest
  by_cases hzero : n = 0
  · subst hzero
    have hstart : startsWithDigit rest = false := by
      cases rest with
      | nil => rfl
      | cons c rest => simpa [startsWithDigit] using (hrest c rfl).1
    simp [read, hstart, htail]
  · have hhead := head_toDigits_ne_zero (Nat.pos_of_ne_zero hzero)
    have ⟨htake, hdrop⟩ := takeWhile_isDigit (fun _ => isDigit_of_mem_toDigits (n := n)) hrest
    have hvalue : accumulate significandLimit 0 (Nat.toDigits 10 n) = (n, []) := by
      rw [accumulate_eq _ _ (by rwa [Nat.ofDigitChars_ten_toDigits]),
        Nat.ofDigitChars_ten_toDigits]
    obtain ⟨c, digits, hdigits, hdigit⟩ := exists_toDigits_eq n
    rw [hdigits] at hhead htake hdrop hvalue
    rw [List.cons_append] at htake hdrop
    have hc : c ≠ '0' := by simpa using hhead
    simp [hdigits, read, hc, hdigit, htake, hdrop, hvalue, htail]

end Number

theorem Writer.integer_eq (value : Int) :
    integer value =
      if 0 ≤ value then Nat.toDigits 10 value.toNat
      else '-' :: Nat.toDigits 10 (-value).toNat := by
  rw [integer, Int.toString_eq_repr, Int.repr_eq_if]
  split <;> simp

theorem Reader.isBlank_of_isDigit {c : Char} (h : c.isDigit) : isBlank c = false := by
  have hne : c ≠ ' ' ∧ c ≠ '\t' ∧ c ≠ '\n' ∧ c ≠ '\r' := by
    refine ⟨?_, ?_, ?_, ?_⟩ <;> (rintro rfl; simp at h)
  simp [isBlank, hne]

theorem Number.ofInteger_negative {value : Int} (hsign : value < 0)
    (hsmall : -9223372036854775808 ≤ value) :
    ofInteger false (-value).toNat = .integer value := by
  rw [ofInteger, if_neg (by decide), if_neg (by omega), Int.toNat_of_nonneg (by omega), Int.neg_neg]

/-- An integer that fits 64 bits, signed or unsigned, is read back if it is in range. -/
theorem Reader.integer_written (low high value : Int) (hlow : low ≤ value) (hhigh : value ≤ high)
    (hsmall : -9223372036854775808 ≤ value) (hlarge : value < 18446744073709551616)
    (expected : String) {rest : List Char} (hrest : Number.Stops rest) :
    integer low high expected (Writer.integer value ++ rest) = .ok (value, rest) := by
  rw [Writer.integer_eq]
  split
  case isTrue hsign =>
    have hread := Number.read_toDigits true (n := value.toNat)
      (by rw [Number.significandLimit]; omega) hrest
    obtain ⟨c, digits, hdigits, hc⟩ := Number.exists_toDigits_eq value.toNat
    have hminus : c ≠ '-' := by
      rintro rfl
      simp at hc
    rw [hdigits, List.cons_append] at hread
    rw [hdigits, List.cons_append, integer, bind_of_ok (first_cons (isBlank_of_isDigit hc) _)]
    simp only [hminus, ↓reduceIte, hc, or_true, ne_eq, not_false_eq_true, decide_true]
    rw [bind_of_ok hread]
    simp [Number.ofInteger, Int.toNat_of_nonneg hsign, hlow, hhigh]
  case isFalse hsign =>
    have hread := Number.read_toDigits false (n := (-value).toNat)
      (by rw [Number.significandLimit]; omega) hrest
    have hvalue := Number.ofInteger_negative (by omega) hsmall
    rw [List.cons_append, integer, bind_of_ok (first_cons (by decide) _)]
    simp only [↓reduceIte, Char.reduceIsDigit, Bool.false_eq_true, or_false, ne_eq,
      not_true_eq_false, decide_false]
    rw [bind_of_ok (advance_cons _ _), bind_of_ok hread, hvalue]
    simp [hlow, hhigh]

end CMinus.Json
