import CMinus.Proofs.Reference
import CMinus.Proofs.View

namespace CMinus

namespace Machine

/-- The next instruction loads a constant, and its unused effective address does not fit a word. -/
def Oversteps (code : Code) (m : Machine) : Prop :=
  ∃ r d s, (code.get? (m.get .pc).toInt.toNat).map (·.toOperation) = some (.memory .ldc r d s) ∧
    ¬ Word.Fits (d.toInt + (m.get s).toInt) ∧ m.step code = .error (.overflow .add)

theorem Oversteps.step {code : Code} {m : Machine} (h : m.Oversteps code) :
    m.step code = .error (.overflow .add) := by
  obtain ⟨_, _, _, _, _, hstep⟩ := h
  exact hstep

end Machine

namespace Stop

/-- The machine stops with `t` where the interpreter stops with this failure. -/
def Shows : Stop → Trap → Prop
  | inputExhausted, t => t = .inputExhausted
  | divisionByZero, t => ∃ pc, t = .divisionByZero pc
  | quotientOverflow, t => t = .overflow .div
  | _, _ => False

/-- The failures that the machine can have too. -/
def shown : Stop → Bool
  | inputExhausted | divisionByZero | quotientOverflow => true
  | _ => false

end Stop

/-- The machine gets to a view in `Q`, or stops with a trap in `T`, or oversteps. -/
inductive Reaches (code : Code) (Q : View → Prop) (T : Trap → Prop) : Machine → Prop
  | here {m : Machine} : Q m.view → Reaches code Q T m
  | next {m m' : Machine} : m.step code = .ok (.running m') → Reaches code Q T m' →
      Reaches code Q T m
  | trap {m : Machine} {t : Trap} : m.step code = .error t → T t → Reaches code Q T m
  | overstep {m : Machine} : m.Oversteps code → Reaches code Q T m

namespace Reaches

variable {code : Code} {Q Q' : View → Prop} {T T' : Trap → Prop} {m : Machine}

theorem bind (h : Reaches code Q T m) (hQ : ∀ m, Q m.view → Reaches code Q' T' m)
    (hT : ∀ t, T t → T' t) : Reaches code Q' T' m := by
  induction h with
  | here h => exact hQ _ h
  | next hstep _ ih => exact .next hstep ih
  | trap hstep h => exact .trap hstep (hT _ h)
  | overstep h => exact .overstep h

theorem of_runs {n : Nat} {m' : Machine} (hruns : Machine.Runs code n m m')
    (h : Reaches code Q T m') : Reaches code Q T m := by
  induction hruns with
  | refl m => exact h
  | step hstep _ ih => exact .next hstep (ih h)

end Reaches

/-- The machine, started at the view `v`, does what the result `r` of the interpreter says: it gets to
a view in `Q`, or it stops with the failure of `r` if it can have it too. -/
def Meets {α : Type} (code : Code) (r : Except Stop α) (Q : α → View → Prop) (v : View) : Prop :=
  ∀ m : Machine, m.view = v →
    match r with
    | .ok a => Reaches code (Q a) (fun _ => False) m
    | .error e => e.shown = true → Reaches code (fun _ => False) e.Shows m

/-- A frame with the base `bp` is opened, down to `top`. -/
def View.opened (v : View) (bp top : Nat) : View :=
  (((v.set .sp (Word.low bp)).poke bp (v.get .bp)).set .bp (Word.low bp)).set .sp (Word.low top)

namespace Meets

variable {α β : Type} {code : Code} {r : Except Stop α} {Q Q' : α → View → Prop} {v v' : View}

theorem ok {a : α} (h : Q a v) : Meets code (.ok a) Q v := by
  rintro m rfl
  exact .here h

theorem hidden {e : Stop} (h : e.shown = false) : Meets code (.error e) Q v := by
  intro m _ hshown
  rw [h] at hshown
  cases hshown

theorem bind {f : α → Except Stop β} {R : β → View → Prop} (h : Meets code r Q v)
    (hf : ∀ a v', r = .ok a → Q a v' → Meets code (f a) R v') : Meets code (r >>= f) R v := by
  intro m hm
  have hm := h m hm
  cases r with
  | error e => exact hm
  | ok a =>
    cases hfa : f a with
    | ok b =>
      simp only [ok_bind, hfa]
      refine hm.bind (fun m' hq => ?_) fun _ h => h
      have := hf a m'.view rfl hq m' rfl
      rwa [hfa] at this
    | error e =>
      simp only [ok_bind, hfa]
      intro hshown
      refine hm.bind (fun m' hq => ?_) fun _ h => h.elim
      have := hf a m'.view rfl hq m' rfl
      rw [hfa] at this
      exact this hshown

theorem after (h : Meets code r Q v)
    (hr : ∀ a v', r = .ok a → Q a v' → Meets code (.ok a) Q' v') : Meets code r Q' v := by
  have hbind := h.bind (f := Except.ok) hr
  cases r <;> exact hbind

theorem mono (h : Meets code r Q v) (hQ : ∀ a v', r = .ok a → Q a v' → Q' a v') :
    Meets code r Q' v :=
  h.after fun a v' hr hq => ok (hQ a v' hr hq)

theorem step (hstep : v.Steps code v') (h : Meets code r Q v') : Meets code r Q v := by
  intro m hm
  obtain ⟨m', hrun, hview⟩ := hstep m hm
  have hm' := h m' hview
  cases r with
  | error e => exact fun hshown => .next hrun (hm' hshown)
  | ok a => exact .next hrun hm'

theorem gets (hgets : v.Gets code v') (h : Meets code r Q v') : Meets code r Q v := by
  intro m hm
  obtain ⟨n, m', hruns, hview⟩ := hgets m hm
  have hm' := h m' hview
  cases r with
  | error e => exact fun hshown => (hm' hshown).of_runs hruns
  | ok a => exact .of_runs hruns hm'

/-- A check that the machine does not make. -/
theorem check {x : Except Stop β} {f : β → Except Stop α} (hx : ∀ e, x = .error e → e.shown = false)
    (h : ∀ b, x = .ok b → Meets code (f b) Q v) : Meets code (x >>= f) Q v := by
  cases x with
  | error e => exact hidden (hx e rfl)
  | ok b => exact h b rfl

theorem need {room n : Nat} {f : Unit → Except Stop α} (h : n ≤ room → Meets code (f ()) Q v) :
    Meets code (CMinus.need room n >>= f) Q v := by
  rw [CMinus.need]
  split
  · next hroom => exact h hroom
  · exact hidden rfl

theorem overstep {s : Register} {d : Word} {k : Nat} {op : Register}
    (hsize : code.size < 2147483648)
    (hop : (code.get? k).map (·.toOperation) = some (.memory .ldc op d s)) (hs : s ≠ .pc)
    (h : Word.Fits (d.toInt + (v.get s).toInt) → Meets code r Q (v.goto k)) :
    Meets code r Q (v.goto k) := by
  by_cases hfits : Word.Fits (d.toInt + (v.get s).toInt)
  · exact h hfits
  · intro m hm
    have hover : m.Oversteps code :=
      ⟨op, d, s, View.step_of_not_fits hsize hop (by decide) hs hfits hm⟩
    cases r with
    | error e => exact fun _ => .overstep hover
    | ok a => exact .overstep hover

/-- A constant is loaded, unless the unused address oversteps. -/
theorem ldc {s t : Register} {d : Word} {k : Nat} (hsize : code.size < 2147483648)
    (hop : (code.get? k).map (·.toOperation) = some (.memory .ldc s d t)) (hs : s ≠ .pc)
    (ht : t ≠ .pc) (h : Meets code r Q ((v.set s d).goto (k + 1))) :
    Meets code r Q (v.goto k) := by
  exact overstep hsize hop ht fun hfits => step (View.steps_ldc hsize hop hs ht hfits) h

theorem ldcPc {t : Register} {l k : Nat} (hsize : code.size < 2147483648)
    (hop : (code.get? k).map (·.toOperation) = some (.memory .ldc .pc (Word.low l) t))
    (ht : t ≠ .pc) (h : Meets code r Q (v.goto l)) : Meets code r Q (v.goto k) := by
  refine overstep hsize hop ht fun hfits => step ?_ h
  obtain ⟨w, hw, -⟩ := Word.add_isOk hfits
  refine View.steps_of_ready hsize hop fun m hm => ⟨m.set .pc (Word.low l), ?_, hm.jump l⟩
  rw [← hm.get ht] at hw
  simp only [Machine.perform, Operation.memory, Machine.runMemory, Machine.checked, hw,
    mapError_ok, ok_bind]
  rfl

theorem trap {e : Stop} {k : Nat} {op : Operation} {t : Trap} (hsize : code.size < 2147483648)
    (hop : (code.get? k).map (·.toOperation) = some op) (ht : e.Shows t)
    (h : ∀ m, View.Ready v k m → m.perform (Word.low k) op = .error t) :
    Meets code (.error e) Q (v.goto k) := by
  intro m hm _
  have hk := Code.lt_size_of_get? hop
  have hpc : m.get .pc = Word.low k := congrArg (·.get .pc) hm
  refine .trap ?_ ht
  rw [Machine.step_eq hpc (by omega) hop]
  exact h _ ⟨by rw [Machine.view_set, hm]; rfl⟩

section Sequences

variable {k sp : Nat} (hsize : code.size < 2147483648)

include hsize

theorem push {reg : Register} (hcode : code.Holds k (Compile.push reg)) (hpc : reg ≠ .pc)
    (hreg : reg ≠ .sp) (hsp : v.get .sp = Word.low (sp + 1)) (hlt : sp < 1024)
    (h : Meets code r Q (((v.set .sp (Word.low sp)).poke sp (v.get reg)).goto (k + 2))) :
    Meets code r Q (v.goto k) :=
  gets (View.gets_push hsize hcode hpc hreg hsp hlt) h

theorem popPc {l : Nat} (hcode : code.Holds k (Compile.pop .pc)) (hsp : v.get .sp = Word.low sp)
    (hlt : sp < 1024) (hl : v.mem sp = Word.low l)
    (h : Meets code r Q ((v.set .sp (Word.low (sp + 1))).goto l)) : Meets code r Q (v.goto k) := by
  have hup : (1 : Word).add (v.get .sp) = .ok (Word.low (sp + 1)) := by
    rw [hsp]
    exact Word.add_low 1 rfl (by omega) (by omega) (by omega)
  have hback : (-1 : Word).add ((v.set .sp (Word.low (sp + 1))).get .sp) = .ok (Word.low sp) := by
    rw [View.get_set, if_pos rfl]
    exact Word.add_low (-1) rfl (by omega) (by omega) (by omega)
  refine step (View.steps_lda hsize (hcode 0 _ rfl) (by decide) (by decide) hup) ?_
  exact step (View.steps_ldPc hsize (hcode 1 _ rfl) (by decide) hback hlt hl) h

theorem prologue {locals : Size} {opening : List Operation} {bp top : Nat}
    (hopening : Compile.prologue locals = .ok opening) (hcode : code.Holds k opening)
    (hsp : v.get .sp = Word.low (bp + 1)) (hlt : bp < 1023) (htop : top + locals.toNat = bp)
    (h : Meets code r Q ((v.opened bp top).goto (k + 4))) : Meets code r Q (v.goto k) := by
  simp only [Compile.prologue, bind_eq_ok, pure_eq_ok] at hopening
  obtain ⟨displacement, hneg, rfl⟩ := hopening
  rw [Word.neg, Word.exact_eq_ok_iff, Size.toInt_low (by omega)] at hneg
  refine push hsize hcode.left (by decide) (by decide) hsp (by omega) ?_
  have hbase : (0 : Word).add (((v.set .sp (Word.low bp)).poke bp (v.get .bp)).get .sp) =
      .ok (Word.low bp) := by
    rw [View.get_poke, View.get_set, if_pos rfl]
    exact Word.add_low 0 rfl (by omega) (by omega) (by omega)
  refine step (View.steps_lda hsize (hcode 2 _ rfl) (by decide) (by decide) hbase) ?_
  have hdown : displacement.add ((((v.set .sp (Word.low bp)).poke bp (v.get .bp)).set .bp
      (Word.low bp)).get .sp) = .ok (Word.low top) := by
    rw [View.get_set, if_neg (by decide), View.get_poke, View.get_set, if_pos rfl]
    exact Word.add_low _ hneg (by omega) (by omega) (by omega)
  exact step (View.steps_lda hsize (hcode 3 _ rfl) (by decide) (by decide) hdown) h

theorem epilogue {bp l : Nat} (hcode : code.Holds k Compile.epilogue)
    (hbp : v.get .bp = Word.low bp) (hlt : bp + 1 < 1024) (hl : v.mem (bp + 1) = Word.low l)
    (h : Meets code r Q (((v.set .sp (Word.low (bp + 2))).set .bp (v.mem bp)).goto l)) :
    Meets code r Q (v.goto k) := by
  have hdrop : (0 : Word).add (v.get .bp) = .ok (Word.low bp) := by
    rw [hbp]
    exact Word.add_low 0 rfl (by omega) (by omega) (by omega)
  refine step (View.steps_lda hsize (hcode 0 _ rfl) (by decide) (by decide) hdrop) ?_
  have hup : (2 : Word).add ((v.set .sp (Word.low bp)).get .sp) = .ok (Word.low (bp + 2)) := by
    rw [View.get_set, if_pos rfl]
    exact Word.add_low 2 rfl (by omega) (by omega) (by omega)
  refine step (View.steps_lda hsize (hcode 1 _ rfl) (by decide) (by decide) hup) ?_
  have hset : (v.set .sp (Word.low bp)).set .sp (Word.low (bp + 2)) =
      v.set .sp (Word.low (bp + 2)) :=
    View.set_set ..
  rw [hset]
  have hsaved : (-2 : Word).add ((v.set .sp (Word.low (bp + 2))).get .sp) = .ok (Word.low bp) := by
    rw [View.get_set, if_pos rfl]
    exact Word.add_low (-2) rfl (by omega) (by omega) (by omega)
  refine step (View.steps_ld hsize (hcode 2 _ rfl) (by decide) (by decide) hsaved (by omega)) ?_
  have hreturn : (-1 : Word).add (((v.set .sp (Word.low (bp + 2))).set .bp (v.mem bp)).get .sp) =
      .ok (Word.low (bp + 1)) := by
    rw [View.get_set, if_neg (by decide), View.get_set, if_pos rfl]
    exact Word.add_low (-1) rfl (by omega) (by omega) (by omega)
  exact step (View.steps_ldPc hsize (hcode 3 _ rfl) (by decide) hreturn hlt hl) h

end Sequences

theorem compare {opcode : Opcode} {k : Nat} {w : Word} (hsize : code.size < 2147483648)
    (hcode : code.Holds k (Compile.compare opcode)) (hjump : opcode.isJump = true)
    (hw : w = BinaryOp.truth (opcode.taken (v.get .bx - v.get .ax))) :
    Meets code (.ok w) (fun w v' => v' = (v.set .ax w).goto (k + 5)) (v.goto k) := by
  have hlast := Code.lt_size_of_get? (hcode 4 _ rfl)
  apply gets (View.gets_branch hsize hcode hjump)
  by_cases htaken : opcode.taken (v.get .bx - v.get .ax) = true
  · rw [if_pos htaken]
    refine ldc hsize (hcode 4 _ rfl) (by decide) (by decide) (ok ?_)
    rw [View.set_set, hw, htaken]
    rfl
  · rw [if_neg htaken]
    refine ldc hsize (hcode 2 _ rfl) (by decide) (by decide) ?_
    refine step (View.steps_pass hsize (hcode 3 _ rfl) (by omega)) (ok ?_)
    rw [View.set_set, hw, Bool.eq_false_iff.2 htaken]
    rfl

theorem divide {k : Nat} (hsize : code.size < 2147483648)
    (hop : (code.get? k).map (·.toOperation) = some (.registers .div .ax .bx .ax)) :
    Meets code (BinaryOp.div.value (v.get .bx) (v.get .ax))
      (fun w v' => v' = (v.set .ax w).goto (k + 1)) (v.goto k) := by
  rw [BinaryOp.value]
  split
  · next hzero =>
    refine trap hsize hop ⟨Word.low k, rfl⟩ fun m hm => ?_
    rw [← hm.get (by decide)] at hzero
    simp only [Machine.perform, Operation.registers, Machine.runRegisters, if_pos hzero]
    rfl
  · next hzero =>
    cases hdiv : (v.get .bx).div (v.get .ax) with
    | ok w =>
      exact step (View.steps_div hsize hop (by decide) (by decide) (by decide) hzero hdiv) (ok rfl)
    | error o =>
      refine trap hsize hop rfl fun m hm => ?_
      rw [← hm.get (s := .bx) (by decide), ← hm.get (s := .ax) (by decide)] at hdiv
      rw [← hm.get (by decide)] at hzero
      have ho : o = .div := by
        rw [Word.div, Word.exact] at hdiv
        split at hdiv
        · cases hdiv
        · cases hdiv
          rfl
      subst ho
      simp only [Machine.perform, Operation.registers, Machine.runRegisters, if_neg hzero,
        Machine.checked, hdiv, mapError_error]
      rfl

/-- The code of an operator computes its value. -/
theorem apply {op : BinaryOp} {k : Nat} (hsize : code.size < 2147483648)
    (hcode : code.Holds k (Compile.apply op)) :
    Meets code (op.value (v.get .bx) (v.get .ax))
      (fun w v' => v' = (v.set .ax w).goto (k + (Compile.apply op).length)) (v.goto k) := by
  cases op with
  | add =>
    exact step (View.steps_registers hsize (· + ·) (hcode 0 _ rfl) (by decide) (by decide)
      (by decide) fun _ _ => rfl) (ok rfl)
  | sub =>
    exact step (View.steps_registers hsize (· - ·) (hcode 0 _ rfl) (by decide) (by decide)
      (by decide) fun _ _ => rfl) (ok rfl)
  | mul =>
    exact step (View.steps_registers hsize (· * ·) (hcode 0 _ rfl) (by decide) (by decide)
      (by decide) fun _ _ => rfl) (ok rfl)
  | div => exact divide hsize (hcode 0 _ rfl)
  | equal | notEqual | lessThan | greaterThan | lessOrEqual | greaterOrEqual =>
    exact compare hsize hcode rfl rfl

end Meets

end CMinus
