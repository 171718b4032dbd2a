import CMinus.Proofs.Edits
import CMinus.Proofs.Overflow

namespace CMinus

namespace Machine

variable {code : Code} {m m' : Machine} {n : Nat} {input : List Word}

def unnamed (m : Machine) : Word :=
  m.registers[3]

theorem unnamed_set (m : Machine) (r : Register) (w : Word) : (m.set r w).unnamed = m.unnamed := by
  have hindex : r.index.val ≠ 3 := by
    cases r <;> decide
  rw [unnamed, set, unnamed, Vector.getElem_set_ne _ _ hindex]

theorem registers_store {address value : Word} (h : m.store address value = .ok m') :
    m'.registers = m.registers := by
  rw [store] at h
  cases hcell : cell address with
  | error trap =>
    rw [hcell] at h
    cases h
  | ok i =>
    rw [hcell] at h
    cases h
    rfl

/-- An operation that goes on sets one register at most, and sets it by its name. -/
theorem registers_perform {pc : Word} {op : Operation}
    (h : m.perform pc op = .ok (.running m')) :
    m'.registers = m.registers ∨ ∃ r w, m'.registers = (m.set r w).registers := by
  obtain ⟨opcode, operands⟩ := op
  cases operands with
  | registers r s t =>
    have hrun := perform_registers_eq_running h
    cases opcode with
    | input =>
      simp only [runRegisters] at hrun
      split at hrun
      · cases hrun
      · next value rest _ =>
        cases hrun
        exact .inr ⟨r, value, rfl⟩
    | output =>
      cases hrun
      exact .inl rfl
    | add | sub | mul =>
      cases hrun
      exact .inr ⟨r, _, rfl⟩
    | div =>
      simp only [runRegisters] at hrun
      split at hrun
      · cases hrun
      · cases hdiv : checked ((m.get s).div (m.get t)) with
        | error trap =>
          rw [hdiv] at hrun
          cases hrun
        | ok value =>
          rw [hdiv] at hrun
          cases hrun
          exact .inr ⟨r, value, rfl⟩
    | _ => cases hrun
  | memory r d s =>
    have hrun := perform_memory_eq_running h
    obtain ⟨address, -, hcases⟩ := runMemory_eq_ok hrun
    obtain ⟨-, value, rfl⟩ | ⟨rfl, -⟩ | ⟨-, rfl⟩ | ⟨-, rfl⟩ | ⟨-, rfl | rfl⟩ := hcases
    · exact .inr ⟨r, value, rfl⟩
    · rw [runMemory, bind_eq_ok] at hrun
      obtain ⟨_, -, hstore⟩ := hrun
      exact .inl (registers_store hstore)
    · exact .inr ⟨r, address, rfl⟩
    · exact .inr ⟨r, d, rfl⟩
    · exact .inl rfl
    · exact .inr ⟨.pc, address, rfl⟩

theorem unnamed_step (h : m.step code = .ok (.running m')) : m'.unnamed = m.unnamed := by
  obtain ⟨op, next, -, -, -, hperform⟩ := step_eq_running h
  rcases registers_perform hperform with hsame | ⟨r, w, hset⟩
  · rw [unnamed, hsame]
    exact unnamed_set m .pc next
  · rw [unnamed, hset]
    exact (unnamed_set _ r w).trans (unnamed_set m .pc next)

theorem step_eq_halted (h : m.step code = .ok (.halted m')) :
    ∃ op next, m.Faces code op ∧ op.opcode = .halt ∧ m' = m.set .pc next := by
  rw [step_eq_perform, bind_eq_ok] at h
  obtain ⟨i, hfetch, h⟩ := h
  obtain ⟨next, -, h⟩ := bind_eq_ok.1 h
  obtain ⟨hpos, hi⟩ := fetch_eq_ok hfetch
  have hfaces : m.Faces code i.toOperation := ⟨hpos, by rw [hi, Option.map_some]⟩
  rw [perform] at h
  split at h
  · next hopcode =>
    cases h
    exact ⟨_, next, hfaces, hopcode, rfl⟩
  · obtain ⟨_, -, heq⟩ := bind_eq_ok.1 h
    cases heq
  · obtain ⟨_, -, heq⟩ := bind_eq_ok.1 h
    cases heq

theorem Runs.get_eq {r : Register} (h : Runs code n m m') (hr : r ≠ .pc)
    (hfills : ∀ k m'', k < n → Runs code k m m'' → ∀ op, m''.Faces code op → op.fills ≠ some r) :
    m'.get r = m.get r := by
  induction h with
  | refl m => rfl
  | @step n m m₁ m' hstep hruns ih =>
    obtain ⟨op, _, hop, hpos, _⟩ := step_eq_running hstep
    have hfirst : m₁.get r = m.get r :=
      get_step hstep hop hr (hfills 0 m (Nat.succ_pos n) (.refl m) op ⟨hpos, hop⟩)
    refine (ih fun k m'' hk hk' => ?_).trans hfirst
    exact hfills (k + 1) m'' (Nat.succ_lt_succ hk) (.step hstep hk')

/-- The states of a run, each after so many steps: those that it goes through, and the one that it
halts in. -/
inductive Visits (code : Code) (input : List Word) : Nat → Machine → Prop
  | running {n : Nat} {m : Machine} : Runs code n (.start input) m → Visits code input n m
  | halted {n : Nat} {m m' : Machine} : Runs code n (.start input) m →
      m.step code = .ok (.halted m') → Visits code input (n + 1) m'

end Machine

namespace Compile

theorem Plain.fills_ne_gp {op : Operation} (h : Plain op) : op.fills ≠ some .gp := by
  cases h with
  | place hopcode =>
    simp only [List.mem_cons, List.not_mem_nil, or_false] at hopcode
    rcases hopcode with rfl | rfl <;> nofun
  | through hopcode =>
    simp only [List.mem_cons, List.not_mem_nil, or_false] at hopcode
    rcases hopcode with rfl | rfl | rfl <;> nofun
  | compute hopcode hr =>
    simp only [List.mem_cons, List.not_mem_nil, or_false] at hopcode hr
    rcases hopcode with rfl | rfl | rfl | rfl <;> rcases hr with rfl | rfl <;> nofun
  | @test opcode => cases opcode <;> nofun
  | _ => nofun

theorem fills_ne_gp_of_bodyPiece {part : List Operation} (h : BodyPiece part) :
    ∀ op ∈ part, op.fills ≠ some .gp := by
  cases h with
  | expression hpart => exact fun op hop => (plain_of_piece hpart op hop).fills_ne_gp
  | jumpIfZero t | jump t => exact List.forall_mem_singleton.2 nofun
  | leave => decide

theorem fills_ne_gp_of_prologue {locals : Size} {ops : List Operation}
    (h : prologue locals = .ok ops) : ∀ op ∈ ops, op.fills ≠ some .gp := by
  simp only [prologue, bind_eq_ok, pure_eq_ok] at h
  obtain ⟨w, _, rfl⟩ := h
  simp [push, Operation.memory, Operation.fills]

theorem fills_ne_gp_of_routine {p : Program} {entries : NameMap Entry} {returns : ReturnType}
    {body : Node} {r : Routine} (h : Realizes p entries returns body r) :
    ∀ op ∈ r.code, op.fills ≠ some .gp := by
  obtain ⟨_, _, _, _, _, hbody⟩ := h.params
  have hbody := (assembled_statement body hbody).forall_mem fun _ => fills_ne_gp_of_bodyPiece
  have hclosing : ∀ op ∈ r.closing, op.fills ≠ some .gp := by
    rw [h.closing]
    cases returns <;> decide
  simp only [Routine.code, List.forall_mem_append]
  exact ⟨⟨fills_ne_gp_of_prologue h.opening, hbody⟩, hclosing⟩

theorem operations_eq_cons {p : Program} {image : Image} (h : p.compile = .ok image) :
    ∃ rest, image.operations = .memory .ld .gp 0 .zero :: rest ∧
      ∀ op ∈ rest, op.fills ≠ some .gp := by
  obtain ⟨-, entries, hdecls, -⟩ := Program.compile_eq_ok h
  obtain ⟨d, hprelude⟩ := Program.prelude_eq h
  refine ⟨[.memory .st .zero 0 .zero, .memory .lda .sp d .gp] ++ call image.main ++ halt ++ input ++
    output ++ image.routines.flatMap Routine.code, ?_, ?_⟩
  · rw [Image.operations, hprelude]
    rfl
  · simp only [List.forall_mem_append]
    refine ⟨⟨⟨⟨⟨?_, ?_⟩, by decide⟩, by decide⟩, by decide⟩, ?_⟩
    · simp [Operation.memory, Operation.fills]
    · exact fun op hop => (plain_of_piece (.call image.main) op hop).fills_ne_gp
    · intro op hop
      obtain ⟨r, hr, hop⟩ := List.mem_flatMap.1 hop
      obtain ⟨before, after, heq⟩ := List.append_of_mem hr
      rw [heq] at hdecls
      obtain ⟨_, returns, body, _, _, _, _, _, hrealizes⟩ := declarations_split hdecls
      exact fills_ne_gp_of_routine hrealizes op hop

end Compile

/-- In generated code, the instruction at address 0 sets the base of the global cells and no other
instruction does. -/
theorem Program.fills_gp_of_generate {p : Program} {trace : Bool} {code : Code}
    (h : p.generate trace = .ok code) :
    (code.get? 0).map (·.toOperation) = some (.memory .ld .gp 0 .zero) ∧
      ∀ a op, (code.get? a).map (·.toOperation) = some op → op.fills = some .gp → a = 0 := by
  have hfollows := p.generate_follows trace
  rw [h] at hfollows
  obtain ⟨image, hcompile, hfills⟩ := hfollows
  obtain ⟨rest, hoperations, hrest⟩ := Compile.operations_eq_cons hcompile
  refine ⟨hfills.holds 0 _ (by rw [hoperations]; rfl), ?_⟩
  intro a op hop hgp
  cases a with
  | zero => rfl
  | succ a =>
    have hget := hfills.getElem?_of_get? hop
    rw [hoperations, List.getElem?_cons_succ] at hget
    exact absurd hgp (hrest op (List.mem_of_getElem? hget))

namespace Machine

/-- The registers that a run with the given input leaves alone. -/
structure Disciplined (code : Code) (input : List Word) : Prop where
  zero : ∀ n m, Visits code input n m → m.get .zero = 0
  unnamed : ∀ n m, Visits code input n m → m.unnamed = 0
  /-- The base of the global cells is there after the first step, until the instruction at address 0
  is performed once more. -/
  gp : ∀ n m, Visits code input n m → 0 < n →
    (∀ k m', 0 < k → k < n → Runs code k (.start input) m' → m'.get .pc ≠ 0) →
    m.get .gp = 1023

variable {code : Code} {m : Machine} {n : Nat} {input : List Word}

theorem gp_of_first_step
    (hfirst : (code.get? 0).map (·.toOperation) = some (.memory .ld .gp 0 .zero))
    (h : (start input).step code = .ok (.running m)) : m.get .gp = 1023 := by
  obtain ⟨op, next, hop, -, -, hperform⟩ := step_eq_running h
  cases hfirst.symm.trans hop
  have hrun := perform_memory_eq_running hperform
  rw [runMemory, bind_eq_ok] at hrun
  obtain ⟨address, haddress, hrun⟩ := hrun
  obtain ⟨w, hload, heq⟩ := bind_eq_ok.1 hrun
  cases heq
  have hzero : address = 0 := by
    rw [checked, mapError_eq_ok] at haddress
    exact Word.ext (Word.exact_eq_ok_iff.1 haddress)
  subst hzero
  cases hload
  rfl

theorem gp_of_runs
    (hfirst : (code.get? 0).map (·.toOperation) = some (.memory .ld .gp 0 .zero))
    (hfills : ∀ a op, (code.get? a).map (·.toOperation) = some op → op.fills = some .gp → a = 0)
    (h : Runs code n (.start input) m) (hpos : 0 < n)
    (hpc : ∀ k m', 0 < k → k < n → Runs code k (.start input) m' → m'.get .pc ≠ 0) :
    m.get .gp = 1023 := by
  cases h with
  | refl => cases hpos
  | @step n _ m₁ _ hstep hruns =>
    rw [← gp_of_first_step hfirst hstep]
    apply hruns.get_eq (by decide)
    intro k m' hk hk' op hfaces hgp
    apply hpc (k + 1) m' (Nat.succ_pos k) (Nat.succ_lt_succ hk) (.step hstep hk')
    apply Word.ext
    have hcounter := hfills _ op hfaces.get hgp
    have hsign := hfaces.pos
    change _ = (0 : Int)
    omega

theorem unnamed_of_runs (h : Runs code n (.start input) m) : m.unnamed = 0 := by
  apply h.invariant (P := fun m => m.unnamed = 0)
  · rfl
  · intro m m' hm hstep
    rw [unnamed_step hstep, hm]

theorem disciplined_of_generate {p : Program} {trace : Bool} (h : p.generate trace = .ok code)
    (input : List Word) : Disciplined code input := by
  have hregular := Program.regular_of_generate h
  obtain ⟨hfirst, hfills⟩ := Program.fills_gp_of_generate h
  constructor
  case zero =>
    intro n m hm
    cases hm with
    | running hruns => exact hruns.zero hregular
    | halted hruns hstep =>
      obtain ⟨-, next, -, -, rfl⟩ := step_eq_halted hstep
      rw [get_set, if_neg (by decide)]
      exact hruns.zero hregular
  case unnamed =>
    intro n m hm
    cases hm with
    | running hruns => exact unnamed_of_runs hruns
    | halted hruns hstep =>
      obtain ⟨-, next, -, -, rfl⟩ := step_eq_halted hstep
      rw [unnamed_set]
      exact unnamed_of_runs hruns
  case gp =>
    intro n m hm hpos hpc
    cases hm with
    | running hruns => exact gp_of_runs hfirst hfills hruns hpos hpc
    | @halted n m₀ _ hruns hstep =>
      obtain ⟨op, next, hfaces, hhalt, rfl⟩ := step_eq_halted hstep
      -- The first instruction is not the one that halts.
      have hlater : 0 < n := by
        apply Nat.pos_of_ne_zero
        rintro rfl
        cases hruns
        cases hfirst.symm.trans hfaces.get
        cases hhalt
      rw [get_set, if_neg (by decide)]
      apply gp_of_runs hfirst hfills hruns hlater
      intro k m' hk hkn
      exact hpc k m' hk (Nat.lt_succ_of_lt hkn)

end Machine

namespace Trap

/-- Whether the machine could not read the operands of an instruction. -/
def aboutOperands : Trap → Bool
  | registerOperands _ | memoryOperands _ => true
  | _ => false

end Trap

namespace Machine

/-- A result that is not missing for want of operands. -/
abbrev Readable {α : Type} (x : Except Trap α) : Prop :=
  Fails (·.aboutOperands = false) x

theorem readable_cell (address : Word) : Readable (cell address) := by
  rw [cell]
  split
  · exact .ok _
  · exact .error rfl

theorem readable_checked (x : Except Overflow Word) : Readable (checked x) := by
  cases x with
  | ok w => exact .ok w
  | error o => exact .error rfl

variable (m : Machine)

theorem readable_runRegisters (pc : Word) {opcode : Opcode} (r s t : Register)
    (hform : opcode.form = .registerOnly) (hhalt : opcode ≠ .halt) :
    Readable (m.runRegisters pc opcode r s t) := by
  cases opcode with
  | halt => exact absurd rfl hhalt
  | input =>
    simp only [runRegisters]
    split
    · exact .error rfl
    · exact .ok _
  | div =>
    simp only [runRegisters]
    split
    · exact .error rfl
    · exact (readable_checked _).map _
  | output | add | sub | mul => exact .ok _
  | _ => cases hform

theorem readable_runMemory {opcode : Opcode} (r : Register) (d : Word) (s : Register)
    (hform : opcode.form = .registerMemory) : Readable (m.runMemory opcode r d s) := by
  rw [runMemory]
  apply (readable_checked _).bind
  intro address
  cases opcode with
  | ld =>
    apply ((readable_cell address).map _).bind
    intro w
    exact .ok _
  | st => exact (readable_cell address).map _
  | lda | ldc | jlt | jle | jgt | jge | jeq | jne => exact .ok _
  | _ => cases hform

theorem readable_perform (pc : Word) {op : Operation} (hform : op.opcode.form = op.operands.form) :
    Readable (m.perform pc op) := by
  have hgoes {x : Except Trap Machine} (hx : Readable x) :
      Readable (x >>= fun m' => pure (Progress.running m')) :=
    hx.bind fun m' => .ok _
  obtain ⟨opcode, operands⟩ := op
  cases operands with
  | registers r s t =>
    cases opcode with
    | halt => exact .ok _
    | _ => exact hgoes (m.readable_runRegisters pc r s t hform nofun)
  | memory r d s =>
    cases opcode with
    | halt => cases hform
    | _ => exact hgoes (m.readable_runMemory r d s hform)

theorem readable_step {code : Code}
    (hform : ∀ a i, code.get? a = some i → i.opcode.form = i.operands.form) :
    Readable (m.step code) := by
  rw [step_eq_perform]
  cases hfetch : fetch code (m.get .pc) with
  | error t =>
    rw [fetch] at hfetch
    split at hfetch
    · cases hfetch
    · cases hfetch
      exact .error rfl
  | ok i =>
    apply (readable_checked _).bind
    intro next
    exact readable_perform _ _ (hform _ i (fetch_eq_ok hfetch).2)

theorem readable_runWithin {code : Code}
    (hform : ∀ a i, code.get? a = some i → i.opcode.form = i.operands.form) (limit : Nat) :
    Readable (runWithin code limit m) := by
  intro t h
  by_cases hlimit : t = .stepLimit
  · rw [hlimit]
    rfl
  · obtain ⟨n, m', -, -, hstuck⟩ := (runWithin_eq_error_iff hlimit).1 h
    exact m'.readable_step hform t hstuck

/-- Runs of generated code leave alone the register that holds 0, the register without a name, and
the base of the global cells; and the machine can read whatever a stream accepts. -/
theorem disciplined_and_readable :
    (∀ (p : Program) (trace : Bool) (code : Code), p.generate trace = .ok code →
      ∀ input, Disciplined code input) ∧
    ∀ (trace : Bool) (edits : List Edit) (s : Stream),
      (Stream.new trace).applyAll edits = .ok s → ∀ input opcode,
        s.finish.run input ≠ .error (.registerOperands opcode) ∧
          s.finish.run input ≠ .error (.memoryOperands opcode) := by
  constructor
  · intro p trace code h input
    exact disciplined_of_generate h input
  · intro trace edits s h input opcode
    have hcharted := ((Stream.Tracks.new trace).applyAll h).charted
    have hreadable := readable_runWithin (.start input)
      (fun a i hi => (hcharted.formed a i hi).2) stepLimit
    constructor
    · intro hrun
      cases hreadable _ hrun
    · intro hrun
      cases hreadable _ hrun

/-- A whole run, up to the instruction that halts, and code that was written with gaps. -/
theorem printing_disciplined :
    (∃ code m, (Program.printing (.number 7)).generate false = .ok code ∧ Visits code [] 28 m ∧
      m.get .pc = 8 ∧ m.get .zero = 0 ∧ m.unnamed = 0 ∧ m.get .gp = 1023) ∧
    ∃ s, (Stream.new true).applyAll Stream.rewrites = .ok s ∧ ∀ input opcode,
      s.finish.run input ≠ .error (.registerOperands opcode) ∧
        s.finish.run input ≠ .error (.memoryOperands opcode) := by
  obtain ⟨hdisciplined, hreadable⟩ := disciplined_and_readable
  constructor
  · have hchecks : ((Program.printing (.number 7)).generate false).toOption.any (fun code =>
        (after? code 28 (.start [])).any (·.get .pc = 8) &&
          (List.range 28).all fun k => k = 0 || (after? code k (.start [])).all (·.get .pc ≠ 0)) =
        true := by
      decide +kernel
    cases hcode : (Program.printing (.number 7)).generate false with
    | error e =>
      rw [hcode] at hchecks
      cases hchecks
    | ok code =>
      rw [hcode, Except.toOption, Option.any_some, Bool.and_eq_true] at hchecks
      obtain ⟨hlast, hothers⟩ := hchecks
      obtain ⟨m, hm, hpc⟩ := (Option.any_eq_true _ _).1 hlast
      have hvisits : Visits code [] 28 m := .running (runs_iff_after?.2 hm)
      have h := hdisciplined _ _ code hcode []
      refine ⟨code, m, rfl, hvisits, of_decide_eq_true hpc, h.zero _ m hvisits,
        h.unnamed _ m hvisits, h.gp _ m hvisits (by decide) ?_⟩
      intro k m' hpos hk hruns
      have hk := List.all_eq_true.1 hothers k (List.mem_range.2 hk)
      rw [runs_iff_after?.1 hruns, Option.all_some] at hk
      simpa [Nat.ne_of_gt hpos] using hk
  · obtain ⟨s, hs⟩ : ∃ s, (Stream.new true).applyAll Stream.rewrites = .ok s := ⟨_, rfl⟩
    exact ⟨s, hs, hreadable _ _ s hs⟩

end Machine

end CMinus
