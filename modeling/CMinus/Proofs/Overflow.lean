import CMinus.Proofs.Effect
import CMinus.Proofs.Pieces
import CMinus.Proofs.Run

namespace CMinus

namespace Word

/-- The only quotient of words that does not fit a word. -/
theorem div_eq_error_iff {a b : Word} {o : Overflow} :
    a.div b = .error o ↔ o = .div ∧ a.toInt = -2147483648 ∧ b.toInt = -1 := by
  have ha := a.le_toInt
  have ha' := a.toInt_lt
  rw [div, exact]
  split
  · next hfits =>
    simp only [reduceCtorEq, false_iff, not_and]
    rintro - ha hb
    rw [ha, hb] at hfits
    exact absurd hfits (by decide)
  · next hfits =>
    have hquotient : a.toInt = -2147483648 ∧ b.toInt = -1 := by
      by_cases hb : 2 ≤ b.toInt.natAbs
      · have hhalf : (a.toInt.tdiv b.toInt).natAbs ≤ a.toInt.natAbs / 2 := by
          rw [Int.natAbs_tdiv]
          exact Nat.div_le_div_left hb Nat.two_pos
        exact absurd (by rw [Fits]; omega) hfits
      · have hcases : b.toInt = 0 ∨ b.toInt = 1 ∨ b.toInt = -1 := by omega
        rcases hcases with hb | hb | hb
        · rw [hb, Int.tdiv_zero] at hfits
          exact absurd (by decide) hfits
        · rw [hb, Int.tdiv_one] at hfits
          exact absurd a.fits_toInt hfits
        · rw [hb, Int.tdiv_neg, Int.tdiv_one, Fits] at hfits
          omega
    simp only [Except.error.injEq, hquotient, and_self, and_true]
    exact eq_comm

end Word

namespace Operation

/-- What the operations of generated code have in common: the operands have the form of the opcode,
the register that holds 0 is never set, `ax` is the base of constants only, nothing is added to `bx`,
and quotients are those of `bx` by `ax`. -/
def regular (op : Operation) : Bool :=
  decide (op.opcode.form = op.operands.form) && decide (op.fills ≠ some .zero) &&
    match op.operands with
    | .registers _ s t => decide (op.opcode = .div → s = .bx ∧ t = .ax)
    | .memory _ _ .ax => decide (op.opcode = .ldc)
    | .memory _ d .bx => decide (d = 0)
    | .memory .. => true

theorem fills_ne_zero {op : Operation} (h : op.regular = true) : op.fills ≠ some .zero := by
  rw [regular, Bool.and_eq_true, Bool.and_eq_true] at h
  exact of_decide_eq_true h.1.2

theorem regular_div {r s t : Register} (h : (registers .div r s t).regular = true) :
    s = .bx ∧ t = .ax := by
  rw [regular, Bool.and_eq_true] at h
  exact of_decide_eq_true h.2 rfl

theorem regular_memory {opcode : Opcode} {r s : Register} {d : Word}
    (h : (memory opcode r d s).regular = true) :
    opcode ≠ .halt ∧ (s = .ax → opcode = .ldc) ∧ (s = .bx → d = 0) := by
  rw [regular, Bool.and_eq_true, Bool.and_eq_true] at h
  obtain ⟨⟨hform, -⟩, hbase⟩ := h
  refine ⟨?_, ?_, ?_⟩
  · rintro rfl
    cases of_decide_eq_true hform
  · rintro rfl
    exact of_decide_eq_true hbase
  · rintro rfl
    exact of_decide_eq_true hbase

end Operation

namespace Compile

theorem Plain.regular {op : Operation} (h : Plain op) : op.regular = true := by
  cases h with
  | place hopcode hbase =>
    simp only [List.mem_cons, List.not_mem_nil, or_false] at hopcode hbase
    rcases hopcode with rfl | rfl <;> rcases hbase with rfl | rfl <;> rfl
  | through hopcode =>
    simp only [List.mem_cons, List.not_mem_nil, or_false] at hopcode
    rcases hopcode with rfl | rfl | rfl <;> rfl
  | save hr =>
    simp only [List.mem_cons, List.not_mem_nil, or_false] at hr
    rcases hr with rfl | rfl <;> rfl
  | compute hopcode hr =>
    simp only [List.mem_cons, List.not_mem_nil, or_false] at hopcode hr
    rcases hopcode with rfl | rfl | rfl | rfl <;> rcases hr with rfl | rfl <;> rfl
  | @test opcode hjump => cases opcode <;> first | rfl | cases hjump
  | _ => rfl

theorem regular_of_piece {part : List Operation} (h : ProgramPiece part) :
    ∀ op ∈ part, op.regular = true := by
  cases h with
  | body hpart =>
    cases hpart with
    | expression hpart => exact fun op hop => (plain_of_piece hpart op hop).regular
    | jumpIfZero t | jump t => exact List.forall_mem_singleton.2 rfl
    | leave => decide
  | prelude hops =>
    simp only [preamble, bind_eq_ok, pure_eq_ok] at hops
    obtain ⟨w, _, rfl⟩ := hops
    intro op hop
    simp only [List.mem_cons, List.not_mem_nil, or_false] at hop
    rcases hop with rfl | rfl | rfl <;> rfl
  | opening hops =>
    simp only [prologue, bind_eq_ok, pure_eq_ok] at hops
    obtain ⟨w, _, rfl⟩ := hops
    intro op hop
    simp only [push, List.cons_append, List.nil_append, List.mem_cons, List.not_mem_nil,
      or_false] at hop
    rcases hop with rfl | rfl | rfl | rfl <;> rfl
  | halt | input | output => decide

/-- An address that the operation at position `i` counts from the counter lies in the code. -/
def Inside (ops : List Operation) (i : Nat) (op : Operation) : Prop :=
  ∀ opcode r d, op = .memory opcode r d .pc → 0 ≤ d.toInt ∧ d.toInt + (i + 1) ≤ ops.length

theorem inside_of_base_ne {part : List Operation}
    (h : ∀ op ∈ part, ∀ opcode r d, op ≠ .memory opcode r d .pc) {i : Nat} {op : Operation}
    (hop : part[i]? = some op) : Inside part i op := by
  intro opcode r d heq
  exact absurd heq (h op (List.mem_of_getElem? hop) opcode r d)

theorem inside_compare {jump : Opcode} {i : Nat} {op : Operation}
    (hop : (compare jump)[i]? = some op) : Inside (compare jump) i op := by
  intro opcode r d heq
  subst heq
  match i, hop with
  | 1, hop | 3, hop =>
    cases hop
    exact ⟨by decide, show _ ≤ (5 : Int) by decide⟩
  | 0, hop | 2, hop | 4, hop => cases hop

theorem inside_call {e : Entry} {i : Nat} {op : Operation} (hop : (call e)[i]? = some op) :
    Inside (call e) i op := by
  intro opcode r d heq
  subst heq
  match i, hop with
  | 0, hop =>
    cases hop
    exact ⟨by decide, show _ ≤ (5 : Int) by decide⟩
  | 1, hop | 2, hop | 3, hop | 4, hop => cases hop

theorem inside_of_expressionPiece {part : List Operation} (h : ExpressionPiece part) {i : Nat}
    {op : Operation} (hop : part[i]? = some op) : Inside part i op := by
  cases h with
  | @place v location hlocate =>
    obtain ⟨-, hbase⟩ := locate_eq_ok hlocate
    obtain ⟨opcode, displacement, base⟩ := location
    refine inside_of_base_ne (List.forall_mem_singleton.2 ?_) hop
    intro opcode r d heq
    cases heq
    simp at hbase
  | loadVariable v access =>
    refine inside_of_base_ne ?_ hop
    obtain ⟨scope, ty, offset⟩ := v
    cases access <;> cases ty <;> simp [loadVariable, Operation.memory]
  | loadElement access =>
    refine inside_of_base_ne ?_ hop
    cases access <;> simp [loadElement, Operation.memory]
  | apply binary =>
    cases binary with
    | add | sub | mul | div =>
      exact inside_of_base_ne (by simp [apply, Operation.memory, Operation.registers]) hop
    | _ => exact inside_compare hop
  | call e => exact inside_call hop
  | _ =>
    refine inside_of_base_ne ?_ hop
    simp [push, pop, Operation.memory, Operation.registers]

theorem inside_of_piece {part : List Operation} (h : ProgramPiece part) {i : Nat} {op : Operation}
    (hop : part[i]? = some op) : Inside part i op := by
  cases h with
  | body hpart =>
    cases hpart with
    | expression hpart => exact inside_of_expressionPiece hpart hop
    | jumpIfZero t | jump t =>
      exact inside_of_base_ne (by simp [jumpIfZero, jump, Operation.memory]) hop
    | leave => exact inside_of_base_ne (by simp [epilogue, Operation.memory]) hop
  | prelude hops =>
    simp only [preamble, bind_eq_ok, pure_eq_ok] at hops
    obtain ⟨w, _, rfl⟩ := hops
    exact inside_of_base_ne (by simp [Operation.memory]) hop
  | opening hops =>
    simp only [prologue, bind_eq_ok, pure_eq_ok] at hops
    obtain ⟨w, _, rfl⟩ := hops
    exact inside_of_base_ne (by simp [push, Operation.memory]) hop
  | halt | input | output =>
    refine inside_of_base_ne ?_ hop
    simp [halt, input, output, pop, Operation.memory, Operation.registers]

theorem inside_operations {p : Program} {image : Image} (h : p.compile = .ok image) {i : Nat}
    {op : Operation} (hop : image.operations[i]? = some op) : Inside image.operations i op := by
  refine (assembled_operations h).everywhere (P := Inside) ?_ ?_ i op hop
  · intro part hpart i op
    exact inside_of_piece hpart
  · intro before part after i op hinside opcode r d heq
    have := hinside opcode r d heq
    simp only [List.length_append]
    omega

end Compile

/-- Every operation is regular, and addresses that are counted from the counter lie in the code. -/
structure Code.Regular (code : Code) : Prop where
  operation : ∀ a op, (code.get? a).map (·.toOperation) = some op →
    op.regular = true ∧ a < code.size
  inside : ∀ a opcode r d, (code.get? a).map (·.toOperation) = some (.memory opcode r d .pc) →
    0 ≤ d.toInt ∧ d.toInt + (a + 1) ≤ code.size

theorem Program.regular_of_generate {p : Program} {trace : Bool} {code : Code}
    (h : p.generate trace = .ok code) : code.Regular := by
  have hfollows := p.generate_follows trace
  rw [h] at hfollows
  obtain ⟨image, hcompile, hfills⟩ := hfollows
  constructor
  · intro a op hop
    have hop := hfills.getElem?_of_get? hop
    refine ⟨?_, ?_⟩
    · exact (Compile.assembled_operations hcompile).forall_mem
        (fun _ => Compile.regular_of_piece) op (List.mem_of_getElem? hop)
    · rw [hfills.size]
      exact (List.getElem?_eq_some_iff.1 hop).1
  · intro a opcode r d hop
    rw [hfills.size]
    exact Compile.inside_operations hcompile (hfills.getElem?_of_get? hop) opcode r d rfl

namespace Machine

variable {code : Code} {m : Machine} {op : Operation} {o : Overflow}

/-- The next instruction performs `op`. -/
structure Faces (code : Code) (m : Machine) (op : Operation) : Prop where
  pos : 0 ≤ (m.get .pc).toInt
  get : (code.get? (m.get .pc).toInt.toNat).map (·.toOperation) = some op

/-- The overflows that a run of generated code can end with. Those of the counter take code that is
longer than the range of addresses of a word. -/
inductive Faults (code : Code) (m : Machine) : Overflow → Prop
  | constant {r : Register} {d : Word} : m.Faces code (.memory .ldc r d .ax) →
      ¬ Word.Fits (d.toInt + (m.get .ax).toInt) → Faults code m .add
  | stack {opcode : Opcode} {r s : Register} {d : Word} : m.Faces code (.memory opcode r d s) →
      s ∈ [.gp, .bp, .sp] → ¬ Word.Fits (d.toInt + (m.get s).toInt) → Faults code m .add
  | quotient {r : Register} : m.Faces code (.registers .div r .bx .ax) →
      (m.get .bx).toInt = -2147483648 → (m.get .ax).toInt = -1 →
      (m.get .pc).toInt ≠ 2147483647 → Faults code m .div
  | relative {opcode : Opcode} {r : Register} {d : Word} :
      m.Faces code (.memory opcode r d .pc) → 2147483648 ≤ code.size →
      ¬ Word.Fits (d.toInt + ((m.get .pc).toInt + 1)) → Faults code m .add
  | next {op : Operation} : m.Faces code op → 2147483648 ≤ code.size →
      (m.get .pc).toInt = 2147483647 → Faults code m .add

theorem checked_next (pc : Word) :
    (pc.toInt = 2147483647 ∧ checked (pc.add 1) = .error (.overflow .add)) ∨
      (pc.toInt ≠ 2147483647 ∧
        ∃ next : Word, next.toInt = pc.toInt + 1 ∧ checked (pc.add 1) = .ok next) := by
  have hlow := pc.le_toInt
  have hhigh := pc.toInt_lt
  by_cases hpc : pc.toInt = 2147483647
  · refine .inl ⟨hpc, ?_⟩
    have hone : ¬ Word.Fits (pc.toInt + (1 : Word).toInt) := by
      rw [hpc]
      decide
    rw [checked, Word.add, Word.exact, if_neg hone, mapError_error]
  · refine .inr ⟨hpc, ?_⟩
    have hone : (1 : Word).toInt = 1 := rfl
    obtain ⟨next, hnext, hval⟩ := Word.add_isOk (a := pc) (b := 1) ⟨by omega, by omega⟩
    exact ⟨next, by rw [hval, hone], by rw [checked, hnext, mapError_ok]⟩

theorem Faces.step (h : m.Faces code op) :
    m.step code = checked ((m.get .pc).add 1) >>= fun next =>
      (m.set .pc next).perform (m.get .pc) op := by
  obtain ⟨i, hi, rfl⟩ := Option.map_eq_some_iff.1 h.get
  have hfetch : fetch code (m.get .pc) = .ok i := by
    rw [fetch, if_pos h.pos, hi]
  rw [step_eq_perform, hfetch, ok_bind]

theorem faces_of_overflow (h : m.step code = .error (.overflow o)) : ∃ op, m.Faces code op := by
  rw [step_eq_perform] at h
  cases hfetch : fetch code (m.get .pc) with
  | ok i =>
    obtain ⟨hpos, hi⟩ := fetch_eq_ok hfetch
    exact ⟨i.toOperation, hpos, by rw [hi, Option.map_some]⟩
  | error t =>
    rw [hfetch, error_bind] at h
    cases h
    rw [fetch] at hfetch
    split at hfetch <;> cases hfetch

theorem running_eq_error_iff {x : Except Trap Machine} {t : Trap} :
    (x >>= fun m => Except.ok (Progress.running m)) = .error t ↔ x = .error t := by
  cases x with
  | ok m => exact ⟨nofun, nofun⟩
  | error e => exact ⟨fun h => by cases h; rfl, fun h => by cases h; rfl⟩

theorem runRegisters_div_overflow_iff (pc : Word) (r : Register) {s t : Register} :
    m.runRegisters pc .div r s t = .error (.overflow o) ↔
      o = .div ∧ (m.get s).toInt = -2147483648 ∧ (m.get t).toInt = -1 := by
  rw [← Word.div_eq_error_iff]
  simp only [runRegisters]
  split
  · next hzero =>
    rw [hzero]
    refine ⟨fun h => (by cases h), fun h => ?_⟩
    cases (Word.div_eq_error_iff.1 h).2.2
  · cases (m.get s).div (m.get t) with
    | ok w => exact ⟨fun h => (by cases h), fun h => by cases h⟩
    | error e => exact ⟨fun h => by cases h; rfl, fun h => by cases h; rfl⟩

theorem perform_registers_overflow_iff {pc : Word} {opcode : Opcode} {r s t : Register} :
    m.perform pc (.registers opcode r s t) = .error (.overflow o) ↔
      opcode = .div ∧ o = .div ∧ (m.get s).toInt = -2147483648 ∧ (m.get t).toInt = -1 := by
  cases opcode with
  | div =>
    rw [← runRegisters_div_overflow_iff pc r, ← running_eq_error_iff]
    exact ⟨fun h => ⟨rfl, h⟩, fun h => h.2⟩
  | input =>
    refine ⟨fun h => ?_, fun h => by cases h.1⟩
    have h : m.runRegisters pc .input r s t = .error (.overflow o) := running_eq_error_iff.1 h
    simp only [runRegisters] at h
    split at h <;> cases h
  | _ => exact ⟨fun h => (by cases h), fun h => by cases h.1⟩

theorem cell_ne_overflow {address : Word} : cell address ≠ .error (.overflow o) := by
  rw [cell]
  split <;> nofun

theorem load_ne_overflow {address : Word} : m.load address ≠ .error (.overflow o) := by
  rw [load]
  cases hcell : cell address with
  | ok i =>
    intro h
    cases h
  | error t =>
    intro h
    cases h
    exact cell_ne_overflow hcell

theorem store_ne_overflow {address value : Word} : m.store address value ≠ .error (.overflow o) := by
  rw [store]
  cases hcell : cell address with
  | ok i =>
    intro h
    cases h
  | error t =>
    intro h
    cases h
    exact cell_ne_overflow hcell

theorem perform_memory_overflow_iff {pc : Word} {opcode : Opcode} {r s : Register} {d : Word}
    (hopcode : opcode ≠ .halt) :
    m.perform pc (.memory opcode r d s) = .error (.overflow o) ↔
      o = .add ∧ ¬ Word.Fits (d.toInt + (m.get s).toInt) := by
  by_cases hfits : Word.Fits (d.toInt + (m.get s).toInt)
  · rw [perform_memory hopcode, running_eq_error_iff, runMemory, Word.add, Word.exact,
      if_pos hfits, checked, mapError_ok, ok_bind]
    refine ⟨fun h => ?_, fun h => absurd hfits h.2⟩
    cases opcode with
    | ld =>
      cases hload : m.load (Int32.ofInt (d.toInt + (m.get s).toInt)) with
      | ok w =>
        simp only [hload] at h
        cases h
      | error t =>
        simp only [hload] at h
        cases h
        exact absurd hload load_ne_overflow
    | st => exact absurd h store_ne_overflow
    | _ => cases h
  · rw [perform_of_not_fits hopcode hfits]
    refine ⟨fun h => ?_, fun h => ?_⟩
    · cases h
      exact ⟨rfl, hfits⟩
    · rw [h.1]

theorem Faces.step_memory_overflow {opcode : Opcode} {r s : Register} {d : Word}
    (h : m.Faces code (.memory opcode r d s)) (hopcode : opcode ≠ .halt)
    (hfits : ∀ next : Word, next.toInt = (m.get .pc).toInt + 1 →
      ¬ Word.Fits (d.toInt + ((m.set .pc next).get s).toInt)) :
    m.step code = .error (.overflow .add) := by
  rw [h.step]
  rcases checked_next (m.get .pc) with ⟨-, hnext⟩ | ⟨-, next, hval, hnext⟩
  · rw [hnext]
    rfl
  · rw [hnext, ok_bind, perform_memory_overflow_iff hopcode]
    exact ⟨rfl, hfits next hval⟩

theorem Faults.step (h : m.Faults code o) (hcode : code.Regular) :
    m.step code = .error (.overflow o) := by
  cases h with
  | constant hfaces hfits =>
    apply hfaces.step_memory_overflow (by decide)
    intro next _
    rwa [get_set, if_neg (by decide)]
  | @stack opcode r s d hfaces hs hfits =>
    obtain ⟨hregular, -⟩ := hcode.operation _ _ hfaces.get
    have hpc : s ≠ .pc := by
      rintro rfl
      simp at hs
    apply hfaces.step_memory_overflow (Operation.regular_memory hregular).1
    intro next _
    rwa [get_set, if_neg hpc]
  | quotient hfaces hleft hright hpc =>
    rw [hfaces.step]
    rcases checked_next (m.get .pc) with ⟨heq, -⟩ | ⟨-, next, -, hnext⟩
    · exact absurd heq hpc
    · rw [hnext, ok_bind, perform_registers_overflow_iff, get_set, if_neg (by decide), get_set,
        if_neg (by decide)]
      exact ⟨rfl, rfl, hleft, hright⟩
  | relative hfaces _ hfits =>
    obtain ⟨hregular, -⟩ := hcode.operation _ _ hfaces.get
    apply hfaces.step_memory_overflow (Operation.regular_memory hregular).1
    intro next hval
    rwa [get_set, if_pos rfl, hval]
  | next hfaces _ hpc =>
    rw [hfaces.step]
    rcases checked_next (m.get .pc) with ⟨-, hnext⟩ | ⟨hne, -⟩
    · rw [hnext]
      rfl
    · exact absurd hpc hne

/-- An operation on memory overflows at a constant, in the stack, or beyond the range of addresses
of a word. -/
theorem faults_of_memory {opcode : Opcode} {r s : Register} {d next : Word} (hcode : code.Regular)
    (hzero : m.get .zero = 0) (hfaces : m.Faces code (.memory opcode r d s))
    (hnext : next.toInt = (m.get .pc).toInt + 1)
    (hfits : ¬ Word.Fits (d.toInt + ((m.set .pc next).get s).toInt)) : m.Faults code .add := by
  obtain ⟨hregular, -⟩ := hcode.operation _ _ hfaces.get
  obtain ⟨-, hax, hbx⟩ := Operation.regular_memory hregular
  rw [get_set] at hfits
  cases s with
  | ax =>
    obtain rfl := hax rfl
    exact .constant hfaces hfits
  | bx =>
    obtain rfl := hbx rfl
    rw [if_neg (by decide)] at hfits
    have hsame : (0 : Word).toInt + (m.get .bx).toInt = (m.get .bx).toInt := Int.zero_add _
    rw [hsame] at hfits
    exact absurd (Word.fits_toInt _) hfits
  | zero =>
    rw [if_neg (by decide), hzero] at hfits
    have hsame : d.toInt + (0 : Word).toInt = d.toInt := Int.add_zero _
    rw [hsame] at hfits
    exact absurd (Word.fits_toInt _) hfits
  | gp | bp | sp => exact .stack hfaces (by simp) hfits
  | pc =>
    rw [if_pos rfl, hnext] at hfits
    obtain ⟨hd, hinside⟩ := hcode.inside _ _ _ _ hfaces.get
    have hpos := hfaces.pos
    refine .relative hfaces ?_ hfits
    rw [Word.Fits] at hfits
    omega

theorem step_overflow_iff (hcode : code.Regular) (hzero : m.get .zero = 0) :
    m.step code = .error (.overflow o) ↔ m.Faults code o := by
  refine ⟨fun h => ?_, fun h => h.step hcode⟩
  obtain ⟨op, hfaces⟩ := faces_of_overflow h
  obtain ⟨hregular, hsize⟩ := hcode.operation _ _ hfaces.get
  have hpos := hfaces.pos
  rw [hfaces.step] at h
  rcases checked_next (m.get .pc) with ⟨hpc, hnext⟩ | ⟨hpc, next, hval, hnext⟩
  · rw [hnext] at h
    cases h
    exact .next hfaces (by omega) hpc
  · rw [hnext, ok_bind] at h
    obtain ⟨opcode, operands⟩ := op
    cases operands with
    | registers r s t =>
      obtain ⟨rfl, rfl, hleft, hright⟩ := perform_registers_overflow_iff.1 h
      obtain ⟨rfl, rfl⟩ := Operation.regular_div hregular
      rw [get_set, if_neg (by decide)] at hleft hright
      exact .quotient hfaces hleft hright hpc
    | memory r d s =>
      have hopcode := (Operation.regular_memory hregular).1
      obtain ⟨rfl, hfits⟩ := (perform_memory_overflow_iff hopcode).1 h
      exact faults_of_memory hcode hzero hfaces hval hfits

theorem Runs.zero {n : Nat} {input : List Word} (h : Runs code n (.start input) m)
    (hcode : code.Regular) : m.get .zero = 0 := by
  apply h.invariant (P := fun m => m.get .zero = 0)
  · rfl
  · intro m m' hzero hstep
    obtain ⟨op, _, hop, _⟩ := step_eq_running hstep
    obtain ⟨hregular, -⟩ := hcode.operation _ _ hop
    rw [get_step hstep hop (by decide) (Operation.fills_ne_zero hregular), hzero]

end Machine

namespace Program

/-- A run of generated code overflows where one of its states has a fault, and nowhere else. -/
theorem overflow_iff_faults {p : Program} {trace : Bool} {code : Code}
    (h : p.generate trace = .ok code) (input : List Word) :
    (∀ n m, Machine.Runs code n (.start input) m →
      ∀ o, m.step code = .error (.overflow o) ↔ m.Faults code o) ∧
    ∀ o, code.run input = .error (.overflow o) ↔
      ∃ n m, n < Machine.stepLimit ∧ Machine.Runs code n (.start input) m ∧ m.Faults code o := by
  have hcode := regular_of_generate h
  have hstep (n : Nat) (m : Machine) (hruns : Machine.Runs code n (.start input) m)
      (o : Overflow) : m.step code = .error (.overflow o) ↔ m.Faults code o :=
    Machine.step_overflow_iff hcode (hruns.zero hcode)
  refine ⟨hstep, fun o => ?_⟩
  rw [Code.run, Machine.runWithin_eq_error_iff (by nofun)]
  constructor
  · rintro ⟨n, m, hn, hruns, hstuck⟩
    exact ⟨n, m, hn, hruns, (hstep n m hruns o).1 hstuck⟩
  · rintro ⟨n, m, hn, hruns, hfaults⟩
    exact ⟨n, m, hn, hruns, (hstep n m hruns o).2 hfaults⟩

/-- Whether the untraced code of a program stops with a trap. -/
def stopsWith (p : Program) (input : List Word) (t : Trap) : Bool :=
  match p.generate false with
  | .ok code =>
    match code.run input with
    | .ok _ => false
    | .error e => e = t
  | .error _ => false

theorem of_stopsWith {p : Program} {input : List Word} {t : Trap}
    (h : p.stopsWith input t = true) :
    ∃ code, p.generate false = .ok code ∧ code.run input = .error t := by
  rw [stopsWith] at h
  split at h
  · next code hcode =>
    split at h
    · cases h
    · next e hrun => exact ⟨code, hcode, by rw [hrun, of_decide_eq_true h]⟩
  · cases h

/-- A program that prints one value. -/
def printing (value : Node) : Program where
  globals := .new .global
  functions := NameMap.empty.insert "main" ⟨.void, .new .param⟩
  declarations := [.function "main" .void (.call "output" [value])]

/-- The least word divided by -1. -/
def leastQuotient : Node :=
  .binary .div (.binary .sub (.binary .sub (.number 0) (.number 2147483647)) (.number 1))
    (.binary .sub (.number 0) (.number 1))

theorem leastQuotient_faults :
    ∃ code, (printing leastQuotient).generate false = .ok code ∧
      ∃ n m, n < Machine.stepLimit ∧ Machine.Runs code n (.start []) m ∧ m.Faults code .div := by
  have hstops : (printing leastQuotient).stopsWith [] (.overflow .div) = true := by
    decide +kernel
  obtain ⟨code, hcode, hrun⟩ := of_stopsWith hstops
  exact ⟨code, hcode, ((overflow_iff_faults hcode []).2 .div).1 hrun⟩

/-- The greatest word is greater than 0, and the constant that says so is loaded while `ax` still
holds the difference. -/
theorem comparison_overflow :
    ∃ code, (printing (.binary .greaterThan (.call "input" []) (.number 0))).generate false =
        .ok code ∧
      code.run [2147483647] = .error (.overflow .add) :=
  of_stopsWith (by decide +kernel)

end Program

end CMinus
