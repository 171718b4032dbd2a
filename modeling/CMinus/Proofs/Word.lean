import CMinus.Word

namespace CMinus

namespace Word

theorem toInt_low {n : Nat} (h : n < 2147483648) : (low n).toInt = n :=
  Int32.toInt_ofNat_of_lt h

theorem ext {a b : Word} (h : a.toInt = b.toInt) : a = b :=
  Int32.toInt.inj h

theorem exact_isOk {failure : Overflow} {x : Int} (h : Fits x) :
    ∃ w, exact failure x = .ok w ∧ w.toInt = x :=
  ⟨_, exact_of_fits failure h, toInt_ofInt_of_fits h⟩

theorem neg_isOk {a : Word} (h : -2147483648 < a.toInt) :
    ∃ w, a.neg = .ok w ∧ w.toInt = -a.toInt := by
  have := a.toInt_lt
  exact exact_isOk ⟨by omega, by omega⟩

theorem add_isOk {a b : Word} (h : Fits (a.toInt + b.toInt)) :
    ∃ w, a.add b = .ok w ∧ w.toInt = a.toInt + b.toInt :=
  exact_isOk h

theorem toInt_sub {a b : Word} (h : Fits (a.toInt - b.toInt)) :
    (a - b).toInt = a.toInt - b.toInt := by
  obtain ⟨hlow, hhigh⟩ := h
  rw [Int32.toInt_sub, Int.bmod_eq_of_le (by omega) (by omega)]

end Word

namespace Size

theorem toInt_low {n : Size} (h : n.toNat < 2147483648) : n.low.toInt = n.toNat :=
  Word.toInt_low h

end Size

end CMinus
