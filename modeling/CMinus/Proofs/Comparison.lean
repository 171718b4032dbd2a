import CMinus.Proofs.Segment

namespace CMinus

namespace Word

theorem sub_cases (a b : Word) :
    (Fits (a.toInt - b.toInt) ∧ (a - b).toInt = a.toInt - b.toInt) ∨
      (2147483648 ≤ a.toInt - b.toInt ∧ (a - b).toInt = a.toInt - b.toInt - 4294967296) ∨
      (a.toInt - b.toInt < -2147483648 ∧ (a - b).toInt = a.toInt - b.toInt + 4294967296) := by
  have ha := a.fits_toInt
  have hb := b.fits_toInt
  have hsub := Int32.toInt_sub a b
  rw [Int.bmod_def] at hsub
  simp only [Fits] at *
  split at hsub <;> omega

end Word

namespace BinaryOp

def isComparison : BinaryOp → Bool
  | equal | notEqual | lessThan | greaterThan | lessOrEqual | greaterOrEqual => true
  | _ => false

def holds (op : BinaryOp) (x y : Int) : Bool :=
  match op with
  | equal => x = y
  | notEqual => x ≠ y
  | lessThan => x < y
  | greaterThan => y < x
  | lessOrEqual => x ≤ y
  | greaterOrEqual => y ≤ x
  | _ => false

/-- The wrapped difference stands to 0 as the operands stand to each other if the comparison is for
equality or the exact difference fits a word, and in no other case. -/
theorem holds_sub_iff {op : BinaryOp} (hop : op.isComparison = true) (a b : Word) :
    op.holds (a - b).toInt 0 = op.holds a.toInt b.toInt ↔
      op = .equal ∨ op = .notEqual ∨ Word.Fits (a.toInt - b.toInt) := by
  have ha := a.fits_toInt
  have hb := b.fits_toInt
  have hcases := Word.sub_cases a b
  simp only [Word.Fits] at *
  cases op with
  | add | sub | mul | div => cases hop
  | equal | notEqual =>
    simp only [holds, decide_eq_decide, reduceCtorEq, true_or, or_true, iff_true, ne_eq]
    omega
  | lessThan | greaterThan | lessOrEqual | greaterOrEqual =>
    simp only [holds, decide_eq_decide, reduceCtorEq, false_or]
    omega

theorem apply_eq_compare {op : BinaryOp} (hop : op.isComparison = true) :
    ∃ jump : Opcode, jump.isJump = true ∧ Compile.apply op = Compile.compare jump ∧
      ∀ w : Word, jump.taken w = op.holds w.toInt 0 := by
  have hsign (w : Word) : (w < 0 ↔ w.toInt < 0) ∧ (w ≤ 0 ↔ w.toInt ≤ 0) ∧ (0 < w ↔ 0 < w.toInt) ∧
      (0 ≤ w ↔ 0 ≤ w.toInt) ∧ (w = 0 ↔ w.toInt = 0) :=
    ⟨Int32.lt_iff_toInt_lt, Int32.le_iff_toInt_le, Int32.lt_iff_toInt_lt, Int32.le_iff_toInt_le,
      Int32.toInt_inj.symm⟩
  cases op with
  | add | sub | mul | div => cases hop
  | equal => exact ⟨.jeq, rfl, rfl, fun w => decide_eq_decide.2 (hsign w).2.2.2.2⟩
  | notEqual => exact ⟨.jne, rfl, rfl, fun w => decide_eq_decide.2 (not_congr (hsign w).2.2.2.2)⟩
  | lessThan => exact ⟨.jlt, rfl, rfl, fun w => decide_eq_decide.2 (hsign w).1⟩
  | greaterThan => exact ⟨.jgt, rfl, rfl, fun w => decide_eq_decide.2 (hsign w).2.2.1⟩
  | lessOrEqual => exact ⟨.jle, rfl, rfl, fun w => decide_eq_decide.2 (hsign w).2.1⟩
  | greaterOrEqual => exact ⟨.jge, rfl, rfl, fun w => decide_eq_decide.2 (hsign w).2.2.2.1⟩

end BinaryOp

theorem View.gets_compare {code : Code} {v : View} {k : Nat} {jump : Opcode}
    (hsize : code.size < 2147483648) (hcode : code.Holds k (Compile.compare jump))
    (hjump : jump.isJump = true)
    (hover : jump.taken (v.get .bx - v.get .ax) = true →
      (v.get .bx - v.get .ax).toInt ≠ 2147483647) :
    Gets code (v.goto k)
      ((v.set .ax (BinaryOp.truth (jump.taken (v.get .bx - v.get .ax)))).goto (k + 5)) := by
  have hlast := Code.lt_size_of_get? (hcode 4 _ rfl)
  have hword := (v.get .bx - v.get .ax).fits_toInt
  apply (gets_branch hsize hcode hjump).trans
  cases htaken : jump.taken (v.get .bx - v.get .ax) with
  | true =>
    have hone : Word.Fits ((1 : Word).toInt + (v.get .bx - v.get .ax).toInt) := by
      have := hover htaken
      have hval : (1 : Word).toInt = 1 := rfl
      rw [Word.Fits] at hword ⊢
      omega
    have hldc := steps_ldc (v := v.set .ax (v.get .bx - v.get .ax)) hsize (hcode 4 _ rfl)
      (by decide) (by decide) hone
    rw [set_set] at hldc
    exact Gets.step hldc (.refl _)
  | false =>
    have hzero : Word.Fits ((0 : Word).toInt + (v.get .bx - v.get .ax).toInt) := by
      rwa [Int32.toInt_zero, Int.zero_add]
    have hldc := steps_ldc (v := v.set .ax (v.get .bx - v.get .ax)) hsize (hcode 2 _ rfl)
      (by decide) (by decide) hzero
    rw [set_set] at hldc
    apply Gets.step hldc
    exact Gets.step (steps_pass hsize (hcode 3 _ rfl) (by omega)) (.refl _)

namespace Machine

variable {code : Code} {k : Nat} {m m' : Machine}

theorem load_store {address value : Word} (h : m.store address value = .ok m') :
    m'.load address = .ok value := by
  rw [store] at h
  cases hcell : cell address with
  | error trap =>
    rw [hcell] at h
    cases h
  | ok i =>
    rw [hcell] at h
    cases h
    rw [load, hcell]
    exact congrArg Except.ok (Vector.getElem_set_self _)

theorem load_of_push {reg : Register} (hcode : code.Holds k (Compile.push reg))
    (hk : k + 2 < 2147483648) (hpc : m.get .pc = Word.low k) (hreg : reg ≠ .pc) (hsp : reg ≠ .sp)
    (h : Runs code 2 m m') : m'.load (m'.get .sp) = .ok (m.get reg) := by
  cases h with
  | @step _ _ m₁ _ hdown h =>
    cases h with
    | @step _ _ m₂ _ hstore h =>
      cases h
      rw [step_eq hpc (by omega) (hcode 0 _ rfl)] at hdown
      have hdown := perform_memory_eq_running hdown
      simp only [runMemory, bind_eq_ok, pure_eq_ok] at hdown
      obtain ⟨top, -, rfl⟩ := hdown
      have hpc₁ : ((m.set .pc (Word.low (k + 1))).set .sp top).get .pc = Word.low (k + 1) := by
        simp
      rw [step_eq hpc₁ (by omega) (hcode 1 _ rfl)] at hstore
      have hstore := perform_memory_eq_running hstore
      simp only [runMemory, bind_eq_ok, checked, mapError_eq_ok] at hstore
      obtain ⟨address, haddress, hstore⟩ := hstore
      have htop : address = top := by
        apply Word.ext
        rw [Word.exact_eq_ok_iff.1 haddress]
        simp
      have hget := get_store hstore .sp
      subst htop
      rw [hget]
      simpa [hreg, hsp] using load_store hstore

theorem exists_runs_compare {first stop : Nat} {jump : Opcode} {a b : Word}
    (hcode : code.Holds first (Compile.pop .bx ++ Compile.compare jump)) (hjump : jump.isJump = true)
    (hstop : stop = first + 7) (hfits : stop < 2147483648) (hpc : m.get .pc = Word.low first)
    (htop : m.load (m.get .sp) = .ok a) (hax : m.get .ax = b)
    (hover : jump.taken (a - b) = true → (a - b).toInt ≠ 2147483647) :
    ∃ n m', Runs code n m m' ∧ m'.get .pc = Word.low stop ∧
      m'.get .ax = BinaryOp.truth (jump.taken (a - b)) := by
  obtain ⟨top, hlt, hlow, hsaved⟩ := load_eq_ok htop
  have hsize : (code.only first stop).size < 2147483648 := by
    rwa [Code.size_only]
  have hcode := hcode.only (Nat.le_refl first) (Nat.le_of_eq hstop.symm)
  obtain ⟨v, hv⟩ : ∃ v, v = (m.view.set .sp (Word.low (top + 1))).set .bx (m.view.mem top) :=
    ⟨_, rfl⟩
  have hdifference : v.get .bx - v.get .ax = a - b := by
    have hax : m.view.get .ax = b := hax
    simp [hv, hsaved, hax]
  have hpop := View.gets_pop (v := m.view) hsize hcode.left (by decide) hlow hlt
  have hcompare := View.gets_compare (v := v) hsize hcode.right hjump (by rwa [hdifference])
  rw [← hv, View.goto_self hpc] at hpop
  rw [hdifference] at hcompare
  obtain ⟨n, m', hruns, hview⟩ := hpop.trans hcompare m rfl
  have hget (r : Register) : m'.get r = m'.view.get r := rfl
  refine ⟨n, m', hruns.of_only, ?_, ?_⟩
  · rw [hget, hview]
    exact View.pc_goto _ (by simp [Compile.pop]; omega)
  · rw [hget, hview]
    simp

/-- The code of an operand between `first` and `stop` takes the machine from `m` to `m'`, where it
has the value `w`. -/
structure Operand (code : Code) (first stop : Nat) (w : Word) (m m' : Machine) : Prop where
  start : m.get .pc = Word.low first
  runs : ∃ n, Runs code n m m'
  pc : m'.get .pc = Word.low stop
  value : m'.get .ax = w

/-- Whenever the machine has run the code of both operands of a comparison, with the left one still
on the stack, it gets to the end of the comparison with 1 or 0 in `ax`: whether the wrapped
difference of the operands stands to 0 as the operator says. This is the order of the integers if
the comparison is for equality or the exact difference fits a word, and in no other case. -/
theorem compares_difference {env : Env} {access : Access} {op : BinaryOp} {left right : Node}
    {s s' : Stream} {stop : Nat} (hop : op.isComparison = true)
    (h : Generate.expression env access (.binary op left right) s = .ok s') (hs : s.AtEnd)
    (hcode : code.Copies k s s') (hstop : stop = k + (s'.cursor - s.cursor))
    (hfits : stop < 2147483648) :
    ∃ l r, Compile.expression env .value left = .ok l ∧
      Compile.expression env .value right = .ok r ∧ stop = k + l.length + 2 + r.length + 7 ∧
      ∀ (a b : Word) (m m₁ m₂ m₃ : Machine), Operand code k (k + l.length) a m m₁ →
        Runs code 2 m₁ m₂ →
        Operand code (k + l.length + 2) (k + l.length + 2 + r.length) b m₂ m₃ →
        m₃.get .sp = m₂.get .sp → m₃.load (m₂.get .sp) = m₂.load (m₂.get .sp) →
        (op.holds (a - b).toInt 0 = true → (a - b).toInt ≠ 2147483647) →
        (∃ n m', Runs code n m m' ∧ m'.get .pc = Word.low stop ∧
          m'.get .ax = BinaryOp.truth (op.holds (a - b).toInt 0)) ∧
        (op.holds (a - b).toInt 0 = op.holds a.toInt b.toInt ↔
          op = .equal ∨ op = .notEqual ∨ Word.Fits (a.toInt - b.toInt)) := by
  obtain ⟨ops, hops, hcursor, hholds⟩ := Generate.holds_of_expression h hs hcode
  simp only [Compile.expression, bind_eq_ok, pure_eq_ok] at hops
  obtain ⟨l, hleft, r, hright, rfl⟩ := hops
  obtain ⟨jump, hjump, happly, htaken⟩ := BinaryOp.apply_eq_compare hop
  have hlength : stop = k + l.length + 2 + r.length + 7 := by
    simp [happly, Compile.push, Compile.pop, Compile.compare] at hcursor
    omega
  refine ⟨l, r, hleft, hright, hlength, ?_⟩
  intro a b m m₁ m₂ m₃ hl hpush hr hsp hkept hover
  refine ⟨?_, op.holds_sub_iff hop a b⟩
  have htop : m₃.load (m₃.get .sp) = .ok a := by
    rw [hsp, hkept, load_of_push hholds.left.left.left.right (by omega) hl.pc (by decide)
      (by decide) hpush, hl.value]
  have hend : code.Holds (k + l.length + 2 + r.length) (Compile.pop .bx ++ Compile.compare jump) := by
    rw [happly, List.append_assoc _ (Compile.pop .bx)] at hholds
    exact hholds.right.cast (by simp [Compile.push]; omega)
  obtain ⟨n, m', hruns, hpc, hax⟩ := exists_runs_compare hend hjump hlength hfits hr.pc htop hr.value
    (by rwa [htaken])
  rw [htaken] at hax
  obtain ⟨_, hl⟩ := hl.runs
  obtain ⟨_, hr⟩ := hr.runs
  obtain ⟨_, hall⟩ := hl.trans hpush
  obtain ⟨_, hall⟩ := hall.trans hr
  obtain ⟨n', hall⟩ := hall.trans hruns
  exact ⟨n', m', hall, hpc, hax⟩

theorem least_compares :
    ∃ s' n m', Generate.expression ⟨.empty, .empty, []⟩ .value
        (.binary .lessThan (.number (-2147483648)) (.number 1)) (.new false) = .ok s' ∧
      Runs s'.finish n ((start []).set .sp 1023) m' ∧ m'.get .pc = 11 ∧ m'.get .ax = 0 := by
  have hchecks : (Generate.expression ⟨.empty, .empty, []⟩ .value
      (.binary .lessThan (.number (-2147483648)) (.number 1)) (.new false)).toOption.any (fun s =>
        s.cursor = 11 && (after? s.finish 1 ((start []).set .sp 1023)).any fun m₁ =>
          m₁.get .pc = 1 && m₁.get .ax = -2147483648 && (after? s.finish 2 m₁).any fun m₂ =>
            m₂.get .pc = 3 && (after? s.finish 1 m₂).any fun m₃ =>
              m₃.get .pc = 4 && m₃.get .ax = 1 && m₃.get .sp = m₂.get .sp &&
                (m₂.load (m₂.get .sp)).toOption = some (-2147483648) &&
                (m₃.load (m₂.get .sp)).toOption = some (-2147483648)) = true := by
    decide +kernel
  obtain ⟨s', hs', hchecks⟩ := (Option.any_eq_true _ _).1 hchecks
  simp only [Bool.and_eq_true, decide_eq_true_eq, Option.any_eq_true] at hchecks
  obtain ⟨hcursor, m₁, hm₁, ⟨hpc₁, hax₁⟩, m₂, hm₂, hpc₂, m₃, hm₃, ⟨⟨⟨hpc₃, hax₃⟩, hsp⟩, htop⟩,
    hkept⟩ := hchecks
  have hs' := eq_ok_of_toOption hs'
  have hcopies : s'.finish.Copies 0 (.new false) s' := fun i _ => rfl
  have hstop : 11 = 0 + (s'.cursor - (Stream.new false).cursor) := by
    rw [hcursor]
    rfl
  obtain ⟨l, r, hl, hr, -, hcompares⟩ := compares_difference rfl hs' rfl hcopies hstop (by decide)
  cases hl
  cases hr
  obtain ⟨⟨n, m', hruns, hpc, hax⟩, -⟩ := hcompares _ _ _ m₁ m₂ m₃
    ⟨rfl, ⟨1, runs_iff_after?.2 hm₁⟩, hpc₁, hax₁⟩ (runs_iff_after?.2 hm₂)
    ⟨hpc₂, ⟨1, runs_iff_after?.2 hm₃⟩, hpc₃, hax₃⟩ hsp
    ((eq_ok_of_toOption hkept).trans (eq_ok_of_toOption htop).symm) (by decide)
  exact ⟨s', n, m', hs', hruns, hpc, hax⟩

end Machine

/-- The machine says that the least word is not less than 1. -/
theorem Program.least_not_less :
    ∃ code m, (printing (.binary .lessThan (.number (-2147483648)) (.number 1))).generate false =
        .ok code ∧
      code.run [] = .ok m ∧ m.output = #[0] ∧ (-2147483648 : Word).toInt < (1 : Word).toInt := by
  have hchecks : ((printing (.binary .lessThan (.number (-2147483648)) (.number 1))).generate
      false).toOption.any (fun code => (code.run []).toOption.any (·.output = #[0])) = true := by
    decide +kernel
  obtain ⟨code, hcode, hchecks⟩ := (Option.any_eq_true _ _).1 hchecks
  obtain ⟨m, hm, houtput⟩ := (Option.any_eq_true _ _).1 hchecks
  exact ⟨code, m, eq_ok_of_toOption hcode, eq_ok_of_toOption hm, of_decide_eq_true houtput,
    by decide⟩

end CMinus
