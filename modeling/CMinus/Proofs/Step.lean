import CMinus.Machine.Run
import CMinus.Proofs.Compile
import CMinus.Proofs.Word

namespace CMinus

namespace Opcode

def isJump : Opcode → Bool
  | jlt | jle | jgt | jge | jeq | jne => true
  | _ => false

end Opcode

namespace Operation

/-- Whether the operation can set the program counter. -/
def writesPc (op : Operation) : Bool :=
  match op.operands with
  | .registers r _ _ =>
    match op.opcode with
    | .input | .add | .sub | .mul | .div => r = .pc
    | _ => false
  | .memory r _ _ =>
    match op.opcode with
    | .ld | .lda | .ldc => r = .pc
    | opcode => opcode.isJump

end Operation

namespace Machine

theorem fetch_eq_ok {code : Code} {pc : Word} {i : Instruction} (h : fetch code pc = .ok i) :
    0 ≤ pc.toInt ∧ code.get? pc.toInt.toNat = some i := by
  rw [fetch] at h
  split at h
  · next heq =>
    cases h
    split at heq
    · next hpos => exact ⟨hpos, heq⟩
    · cases heq
  · cases h

theorem get_store {m m' : Machine} {address value : Word} (h : m.store address value = .ok m')
    (r : Register) : m'.get r = m.get r := by
  rw [store] at h
  cases hcell : cell address with
  | error trap =>
    rw [hcell] at h
    cases h
  | ok i =>
    rw [hcell] at h
    cases h
    rfl

theorem get_runRegisters {m m' : Machine} {pc : Word} {opcode : Opcode} {r s t : Register}
    (h : m.runRegisters pc opcode r s t = .ok m')
    (hquiet : (⟨opcode, .registers r s t⟩ : Operation).writesPc = false) :
    m'.get .pc = m.get .pc := by
  have hset (value : Word) (n : Machine) (hr : r ≠ .pc) : (n.set r value).get .pc = n.get .pc := by
    rw [get_set, if_neg hr.symm]
  cases opcode with
  | input =>
    simp only [runRegisters] at h
    split at h
    · cases h
    · cases h
      exact hset _ _ (of_decide_eq_false hquiet)
  | output =>
    cases h
    rfl
  | add | sub | mul =>
    cases h
    exact hset _ _ (of_decide_eq_false hquiet)
  | div =>
    simp only [runRegisters] at h
    split at h
    · cases h
    · cases hdiv : checked ((m.get s).div (m.get t)) with
      | error trap =>
        rw [hdiv] at h
        cases h
      | ok value =>
        rw [hdiv] at h
        cases h
        exact hset _ _ (of_decide_eq_false hquiet)
  | _ => cases h

theorem get_runMemory {m m' : Machine} {opcode : Opcode} {r s : Register} {d : Word}
    (h : m.runMemory opcode r d s = .ok m')
    (hquiet : (⟨opcode, .memory r d s⟩ : Operation).writesPc = false) :
    m'.get .pc = m.get .pc := by
  have hset (value : Word) (hr : r ≠ .pc) : (m.set r value).get .pc = m.get .pc := by
    rw [get_set, if_neg hr.symm]
  rw [runMemory, bind_eq_ok] at h
  obtain ⟨address, _, h⟩ := h
  cases opcode with
  | ld =>
    simp only [bind_eq_ok, pure_eq_ok] at h
    obtain ⟨value, _, rfl⟩ := h
    exact hset _ (of_decide_eq_false hquiet)
  | st => exact get_store h .pc
  | lda | ldc =>
    cases h
    exact hset _ (of_decide_eq_false hquiet)
  | jlt | jle | jgt | jge | jeq | jne => cases hquiet
  | _ => cases h

/-- The effect of one operation once the counter has moved on from `pc`. -/
def perform (m : Machine) (pc : Word) (op : Operation) : Except Trap Progress :=
  match op.opcode, op.operands with
  | .halt, _ => .ok (.halted m)
  | opcode, .registers r s t => return .running (← m.runRegisters pc opcode r s t)
  | opcode, .memory r d s => return .running (← m.runMemory opcode r d s)

theorem perform_memory {m : Machine} {pc : Word} {opcode : Opcode} {r s : Register} {d : Word}
    (hopcode : opcode ≠ .halt) : m.perform pc (.memory opcode r d s) =
      m.runMemory opcode r d s >>= fun m => .ok (.running m) := by
  cases opcode <;> first | rfl | exact absurd rfl hopcode

/-- An effective address that does not fit a word is an overflow, used or not. -/
theorem perform_of_not_fits {m : Machine} {pc : Word} {opcode : Opcode} {r s : Register} {d : Word}
    (hopcode : opcode ≠ .halt) (hfits : ¬ Word.Fits (d.toInt + (m.get s).toInt)) :
    m.perform pc (.memory opcode r d s) = .error (.overflow .add) := by
  rw [perform_memory hopcode, runMemory, Word.add, Word.exact, if_neg hfits]
  rfl

/-- A step at an address that the counter can move on from. -/
theorem step_eq {code : Code} {m : Machine} {a : Nat} {op : Operation}
    (hpc : m.get .pc = Word.low a) (ha : a + 1 < 2147483648)
    (hget : (code.get? a).map (·.toOperation) = some op) :
    m.step code = (m.set .pc (Word.low (a + 1))).perform (Word.low a) op := by
  obtain ⟨i, hi, rfl⟩ := Option.map_eq_some_iff.1 hget
  have hlow : (Word.low a).toInt = a := Word.toInt_low (by omega)
  have hfetch : fetch code (Word.low a) = .ok i := by
    rw [fetch, hlow, if_pos (Int.natCast_nonneg a), Int.toNat_natCast, hi]
  have hnext : checked ((Word.low a).add 1) = .ok (Word.low (a + 1)) := by
    have : (Word.low a).add 1 = .ok (Word.low (a + 1)) := by
      rw [Word.add, Word.exact_eq_ok_iff, hlow, Word.toInt_low ha]
      rfl
    rw [checked, this, mapError_ok]
  simp only [step, hpc, hfetch, hnext, ok_bind]
  rfl

theorem step_pc {code : Code} {m m' : Machine} {i : Instruction} {a : Nat}
    (hstep : m.step code = .ok (.running m')) (hpc : (m.get .pc).toInt = a)
    (hget : code.get? a = some i) (hquiet : i.writesPc = false) :
    (m'.get .pc).toInt = a + 1 := by
  simp only [step, bind_eq_ok] at hstep
  obtain ⟨j, hfetch, next, hnext, hstep⟩ := hstep
  obtain ⟨-, hj⟩ := fetch_eq_ok hfetch
  rw [hpc, Int.toNat_natCast, hget] at hj
  cases hj
  have hword : next.toInt = a + 1 := by
    rw [checked, mapError_eq_ok] at hnext
    rw [Word.exact_eq_ok_iff.1 hnext, hpc]
    rfl
  have hmoved : m'.get .pc = (m.set .pc next).get .pc := by
    split at hstep
    · cases hstep
    · next r s t hoperands _ =>
      simp only [bind_eq_ok, pure_eq_ok, Progress.running.injEq] at hstep
      obtain ⟨_, hrun, rfl⟩ := hstep
      refine get_runRegisters hrun ?_
      rw [← hquiet, ← hoperands]
    · next r d s hoperands _ =>
      simp only [bind_eq_ok, pure_eq_ok, Progress.running.injEq] at hstep
      obtain ⟨_, hrun, rfl⟩ := hstep
      refine get_runMemory hrun ?_
      rw [← hquiet, ← hoperands]
  rw [hmoved, get_set, if_pos rfl, hword]

end Machine

end CMinus
