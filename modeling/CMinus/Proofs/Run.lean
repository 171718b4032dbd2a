import CMinus.Machine.Run

namespace CMinus

namespace Machine

variable {code : Code} {m m' : Machine} {n : Nat}

/-- The machine gets from one state to another in `n` steps. -/
inductive Runs (code : Code) : Nat → Machine → Machine → Prop
  | refl (m : Machine) : Runs code 0 m m
  | step {n : Nat} {m m' m'' : Machine} : m.step code = .ok (.running m') →
      Runs code n m' m'' → Runs code (n + 1) m m''

theorem Runs.trans {n' : Nat} {m'' : Machine} (h : Runs code n m m') (h' : Runs code n' m' m'') :
    ∃ n'', Runs code n'' m m'' := by
  induction h with
  | refl m => exact ⟨n', h'⟩
  | step hstep _ ih =>
    obtain ⟨n'', hruns⟩ := ih h'
    exact ⟨n'' + 1, .step hstep hruns⟩

/-- The state after `n` steps, if the machine gets so far. -/
def after? (code : Code) : Nat → Machine → Option Machine
  | 0, m => some m
  | n + 1, m =>
    match m.step code with
    | .ok (.running m') => after? code n m'
    | _ => none

theorem runs_iff_after? : Runs code n m m' ↔ after? code n m = some m' := by
  constructor
  · intro h
    induction h with
    | refl m => rfl
    | step hstep _ ih =>
      rw [after?, hstep]
      exact ih
  · intro h
    induction n generalizing m with
    | zero =>
      cases h
      exact .refl _
    | succ n ih =>
      rw [after?] at h
      split at h
      · next m₁ hstep => exact .step hstep (ih h)
      · cases h

/-- A run takes `n` steps and one more, which gives the outcome `r`. -/
def Ends (code : Code) (m : Machine) (n : Nat) (r : Except Trap Machine) : Prop :=
  ∀ limit, runWithin code limit m = if n < limit then r else .error .stepLimit

theorem Runs.ends {r : Except Trap Machine} (h : Runs code n m m') (hr : m'.Ends code 0 r) :
    m.Ends code n r := by
  induction h with
  | refl m => exact hr
  | step hstep _ ih =>
    intro limit
    cases limit with
    | zero => rfl
    | succ limit =>
      rw [runWithin, hstep]
      simpa using ih hr limit

theorem ends_of_error {t : Trap} (h : m.step code = .error t) : m.Ends code 0 (.error t) := by
  intro limit
  cases limit with
  | zero => rfl
  | succ limit =>
    rw [runWithin, h]
    rfl

theorem ends_of_halted (h : m.step code = .ok (.halted m')) : m.Ends code 0 (.ok m') := by
  intro limit
  cases limit with
  | zero => rfl
  | succ limit =>
    rw [runWithin, h]
    rfl

theorem Ends.unique {n' : Nat} {r r' : Except Trap Machine} (h : m.Ends code n r)
    (h' : m.Ends code n' r') : r = r' := by
  have hr := h (n + n' + 1)
  have hr' := h' (n + n' + 1)
  rw [if_pos (by omega)] at hr hr'
  exact hr.symm.trans hr'

/-- What holds at the start and is kept by every step holds all along a run. -/
theorem Runs.invariant {P : Machine → Prop} (h : Runs code n m m') (hm : P m)
    (hkeeps : ∀ m m', P m → m.step code = .ok (.running m') → P m') : P m' := by
  induction h with
  | refl m => exact hm
  | step hstep _ ih => exact ih (hkeeps _ _ hm hstep)

/-- A run ends with a trap, other than for its length, when one of its states is stuck with it. -/
theorem runWithin_eq_error_iff {limit : Nat} {t : Trap} (ht : t ≠ .stepLimit) :
    runWithin code limit m = .error t ↔
      ∃ n m', n < limit ∧ Runs code n m m' ∧ m'.step code = .error t := by
  constructor
  · intro h
    induction limit generalizing m with
    | zero => exact absurd (Except.error.inj h).symm ht
    | succ limit ih =>
      rw [runWithin] at h
      cases hstep : m.step code with
      | error t' =>
        rw [hstep] at h
        cases h
        exact ⟨0, m, Nat.succ_pos limit, .refl m, hstep⟩
      | ok progress =>
        rw [hstep] at h
        cases progress with
        | halted m' => cases h
        | running m' =>
          obtain ⟨n, m'', hn, hruns, hstuck⟩ := ih h
          exact ⟨n + 1, m'', Nat.succ_lt_succ hn, .step hstep hruns, hstuck⟩
  · rintro ⟨n, m', hn, hruns, hstuck⟩
    rw [hruns.ends (ends_of_error hstuck) limit, if_pos hn]

end Machine

end CMinus
