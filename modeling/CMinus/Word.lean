namespace CMinus

abbrev Word := Int32

abbrev Size := UInt64

/-- An operation whose exact result has no representation. -/
inductive Overflow where
  | add
  | neg
  | div
  deriving DecidableEq, Repr

namespace Overflow

def message : Overflow → String
  | add => "attempt to add with overflow"
  | neg => "attempt to negate with overflow"
  | div => "attempt to divide with overflow"

end Overflow

namespace Word

/-- The integers that a word can hold. -/
def Fits (x : Int) : Prop :=
  -2147483648 ≤ x ∧ x ≤ 2147483647

instance (x : Int) : Decidable (Fits x) :=
  inferInstanceAs (Decidable (_ ∧ _))

def exact (failure : Overflow) (x : Int) : Except Overflow Word :=
  if Fits x then .ok (Int32.ofInt x) else .error failure

def add (a b : Word) : Except Overflow Word :=
  exact .add (a.toInt + b.toInt)

def neg (a : Word) : Except Overflow Word :=
  exact .neg (-a.toInt)

/-- The quotient rounded toward zero, for a divisor other than zero. -/
def div (a b : Word) : Except Overflow Word :=
  exact .div (a.toInt.tdiv b.toInt)

theorem exact_of_fits {x : Int} (failure : Overflow) (h : Fits x) :
    exact failure x = .ok (Int32.ofInt x) :=
  if_pos h

theorem toInt_ofInt_of_fits {x : Int} (h : Fits x) : (Int32.ofInt x).toInt = x := by
  obtain ⟨hlow, hhigh⟩ := h
  exact Int32.toInt_ofInt_of_le hlow (Int.lt_add_one_of_le hhigh)

theorem fits_toInt (w : Word) : Fits w.toInt :=
  ⟨w.le_toInt, Int.le_of_lt_add_one w.toInt_lt⟩

/-- A checked operation answers the word that holds its exact result. -/
theorem exact_eq_ok_iff {failure : Overflow} {x : Int} {w : Word} :
    exact failure x = .ok w ↔ w.toInt = x := by
  constructor
  · intro h
    by_cases hx : Fits x
    · rw [exact_of_fits failure hx] at h
      cases h
      exact toInt_ofInt_of_fits hx
    · simp only [exact, if_neg hx, reduceCtorEq] at h
  · intro h
    subst h
    rw [exact_of_fits failure (fits_toInt w), Int32.ofInt_toInt]

/-- The low 32 bits of a natural number, read as a signed word. -/
def low (n : Nat) : Word :=
  Int32.ofNat n

end Word

namespace Size

/-- One more than the largest size. -/
def limit : Nat := 18446744073709551616

def add (a b : Size) : Except Overflow Size :=
  if a.toNat + b.toNat < limit then .ok (a + b) else .error .add

/-- The low 32 bits of a size, read as a signed word. -/
def low (n : Size) : Word :=
  Word.low n.toNat

end Size

end CMinus
