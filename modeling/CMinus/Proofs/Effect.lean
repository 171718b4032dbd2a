import CMinus.Proofs.Step

namespace CMinus

namespace Operation

/-- The register that the operation sets. A jump sets none: it redirects control. -/
def fills (op : Operation) : Option Register :=
  match op.operands with
  | .registers r _ _ =>
    match op.opcode with
    | .input | .add | .sub | .mul | .div => some r
    | _ => none
  | .memory r _ _ =>
    match op.opcode with
    | .ld | .lda | .ldc => some r
    | _ => none

/-- How far the operation moves the top of the stack. There is no answer when the new top does not
depend on the old one. -/
def raise (op : Operation) : Option Int :=
  match op with
  | ⟨.lda, .memory .sp d .sp⟩ => some d.toInt
  | op => if op.fills = some .sp then none else some 0

/-- Where a jump at address `a` goes when it is taken. -/
def destination (a : Nat) (op : Operation) : Option Int :=
  match op.operands with
  | .registers .. => none
  | .memory r d s =>
    if op.opcode.isJump = true ∨ op.opcode = .lda ∧ r = .pc then
      match s with
      | .zero => some d.toInt
      | .pc => some (d.toInt + (a + 1))
      | _ => none
    else none

/-- How much higher the top of the stack is when control goes on in the same function. A call comes
back with its return address popped. -/
def gain (op : Operation) : Option Int :=
  match op with
  | ⟨.ldc, .memory .pc _ _⟩ => some 1
  | op => op.raise

/-- Control can go from `op` at address `a` to address `b` of the same function. A call goes on
behind its jump when the called function is done. -/
inductive Continues (a : Nat) (op : Operation) : Nat → Prop
  | next : op.opcode ≠ .halt → op.fills ≠ some .pc → Continues a op (a + 1)
  | jump {b : Nat} : op.destination a = some (b : Int) → Continues a op b
  | back {d : Word} {s : Register} : op = .memory .ldc .pc d s → Continues a op (a + 1)

/-- Control can go from `op` at address `a` to address `b` of the same function, and the top of the
stack is then `rise` higher. -/
structure Leads (a : Nat) (op : Operation) (b : Nat) (rise : Int) : Prop where
  continues : op.Continues a b
  gain : op.gain = some rise

theorem fills_ne_pc {op : Operation} (h : op.writesPc = false) : op.fills ≠ some .pc := by
  obtain ⟨opcode, operands⟩ := op
  cases operands <;> cases opcode <;> simp_all [writesPc, fills]

theorem gain_eq_raise {op : Operation} (h : ∀ d s, op ≠ .memory .ldc .pc d s) :
    op.gain = op.raise := by
  unfold gain
  split
  · exact absurd rfl (h _ _)
  · rfl

theorem gain_of_destination {op : Operation} {a : Nat} {b : Int}
    (h : op.destination a = some b) : op.gain = some 0 := by
  obtain ⟨opcode, operands⟩ := op
  cases operands with
  | registers r s t => cases h
  | memory r d s =>
    simp only [destination] at h
    split at h
    · next hkind =>
      rcases hkind with hjump | ⟨rfl, rfl⟩
      · cases opcode <;> first | rfl | cases hjump
      · rfl
    · cases h

end Operation

namespace Machine

variable {code : Code} {m m' : Machine} {pc : Word} {opcode : Opcode} {op : Operation}
  {r s : Register} {d : Word}

theorem step_eq_perform (code : Code) (m : Machine) :
    m.step code = fetch code (m.get .pc) >>= fun i => checked ((m.get .pc).add 1) >>= fun next =>
      (m.set .pc next).perform (m.get .pc) i.toOperation := rfl

theorem step_eq_running (h : m.step code = .ok (.running m')) :
    ∃ op next, (code.get? (m.get .pc).toInt.toNat).map (·.toOperation) = some op ∧
      0 ≤ (m.get .pc).toInt ∧ next.toInt = (m.get .pc).toInt + 1 ∧
      (m.set .pc next).perform (m.get .pc) op = .ok (.running m') := by
  rw [step_eq_perform, bind_eq_ok] at h
  obtain ⟨i, hfetch, h⟩ := h
  obtain ⟨next, hnext, h⟩ := bind_eq_ok.1 h
  obtain ⟨hpos, hget⟩ := fetch_eq_ok hfetch
  rw [checked, mapError_eq_ok] at hnext
  exact ⟨i.toOperation, next, by rw [hget, Option.map_some], hpos, Word.exact_eq_ok_iff.1 hnext, h⟩

theorem perform_registers_eq_running {t : Register}
    (h : m.perform pc (.registers opcode r s t) = .ok (.running m')) :
    m.runRegisters pc opcode r s t = .ok m' := by
  cases opcode with
  | halt => cases h
  | _ =>
    obtain ⟨m₁, hrun, heq⟩ := bind_eq_ok.1 h
    cases heq
    exact hrun

theorem perform_memory_eq_running
    (h : m.perform pc (.memory opcode r d s) = .ok (.running m')) :
    m.runMemory opcode r d s = .ok m' := by
  cases opcode with
  | halt => cases h
  | _ =>
    obtain ⟨m₁, hrun, heq⟩ := bind_eq_ok.1 h
    cases heq
    exact hrun

/-- What a memory operation does, by the kind of its opcode. -/
theorem runMemory_eq_ok (h : m.runMemory opcode r d s = .ok m') :
    ∃ address : Word, address.toInt = d.toInt + (m.get s).toInt ∧
      ((opcode = .ld ∧ ∃ value, m' = m.set r value) ∨
        (opcode = .st ∧ ∀ s, m'.get s = m.get s) ∨
        (opcode = .lda ∧ m' = m.set r address) ∨
        (opcode = .ldc ∧ m' = m.set r d) ∨
        (opcode.isJump = true ∧ (m' = m ∨ m' = m.set .pc address))) := by
  rw [runMemory, bind_eq_ok] at h
  obtain ⟨address, haddress, h⟩ := h
  rw [checked, mapError_eq_ok] at haddress
  refine ⟨address, Word.exact_eq_ok_iff.1 haddress, ?_⟩
  have hjump (taken : Bool) : m.jumpIf taken address = m ∨
      m.jumpIf taken address = m.set .pc address := by
    cases taken with
    | false => exact .inl rfl
    | true => exact .inr rfl
  cases opcode with
  | ld =>
    obtain ⟨value, _, heq⟩ := bind_eq_ok.1 h
    cases heq
    exact .inl ⟨rfl, value, rfl⟩
  | st => exact .inr (.inl ⟨rfl, get_store h⟩)
  | lda =>
    cases h
    exact .inr (.inr (.inl ⟨rfl, rfl⟩))
  | ldc =>
    cases h
    exact .inr (.inr (.inr (.inl ⟨rfl, rfl⟩)))
  | jlt | jle | jgt | jge | jeq | jne =>
    cases h
    exact .inr (.inr (.inr (.inr ⟨rfl, hjump _⟩)))
  | _ => cases h

/-- An operation that goes on keeps every register but the counter and the one it fills. -/
theorem get_perform (h : m.perform pc op = .ok (.running m')) {s : Register} (hpc : s ≠ .pc)
    (hs : op.fills ≠ some s) : m'.get s = m.get s := by
  have hset (n : Machine) (value : Word) {r : Register} (hr : some r ≠ some s) :
      (n.set r value).get s = n.get s := by
    rw [get_set, if_neg fun heq => hr (congrArg some heq.symm)]
  obtain ⟨opcode, operands⟩ := op
  cases operands with
  | registers r a b =>
    have hrun := perform_registers_eq_running h
    cases opcode with
    | input =>
      simp only [runRegisters] at hrun
      split at hrun
      · cases hrun
      · cases hrun
        exact hset _ _ hs
    | output =>
      cases hrun
      rfl
    | add | sub | mul =>
      cases hrun
      exact hset _ _ hs
    | div =>
      simp only [runRegisters] at hrun
      split at hrun
      · cases hrun
      · cases hdiv : checked ((m.get a).div (m.get b)) with
        | error trap =>
          rw [hdiv] at hrun
          cases hrun
        | ok value =>
          rw [hdiv] at hrun
          cases hrun
          exact hset _ _ hs
    | _ => cases hrun
  | memory r d b =>
    obtain ⟨address, -, hcases⟩ := runMemory_eq_ok (perform_memory_eq_running h)
    obtain ⟨rfl, value, rfl⟩ | ⟨rfl, hsame⟩ | ⟨rfl, rfl⟩ | ⟨rfl, rfl⟩ | ⟨-, rfl | rfl⟩ := hcases
    · exact hset _ _ hs
    · exact hsame s
    · exact hset _ _ hs
    · exact hset _ _ hs
    · rfl
    · rw [get_set, if_neg hpc]

theorem get_step (h : m.step code = .ok (.running m'))
    (hop : (code.get? (m.get .pc).toInt.toNat).map (·.toOperation) = some op) {s : Register}
    (hpc : s ≠ .pc) (hs : op.fills ≠ some s) : m'.get s = m.get s := by
  obtain ⟨op', next, hop', -, -, hperform⟩ := step_eq_running h
  cases hop.symm.trans hop'
  rw [get_perform hperform hpc hs, get_set, if_neg hpc]

theorem lda_step (h : m.step code = .ok (.running m'))
    (hop : (code.get? (m.get .pc).toInt.toNat).map (·.toOperation) = some (.memory .lda r d s))
    (hs : s ≠ .pc) : (m'.get r).toInt = d.toInt + (m.get s).toInt := by
  obtain ⟨op', next, hop', -, -, hperform⟩ := step_eq_running h
  cases hop.symm.trans hop'
  obtain ⟨address, haddress, hcases⟩ := runMemory_eq_ok (perform_memory_eq_running hperform)
  obtain ⟨hld, -⟩ | ⟨hst, -⟩ | ⟨-, rfl⟩ | ⟨hldc, -⟩ | ⟨hjump, -⟩ := hcases
  · cases hld
  · cases hst
  · rw [get_set, if_pos rfl, haddress, get_set, if_neg hs]
  · cases hldc
  · cases hjump

theorem sp_step (h : m.step code = .ok (.running m'))
    (hop : (code.get? (m.get .pc).toInt.toNat).map (·.toOperation) = some op) {rise : Int}
    (hraise : op.raise = some rise) : (m'.get .sp).toInt = (m.get .sp).toInt + rise := by
  unfold Operation.raise at hraise
  split at hraise
  · next d =>
    cases hraise
    rw [lda_step h hop (by decide), Int.add_comm]
  · split at hraise
    · cases hraise
    · next hfills =>
      cases hraise
      rw [get_step h hop (by decide) hfills, Int.add_zero]

/-- A step that goes on follows its operation: to the next address, or to where it jumps. -/
theorem continues_of_step {a : Nat} (h : m.step code = .ok (.running m'))
    (hpc : (m.get .pc).toInt = a) (hop : (code.get? a).map (·.toOperation) = some op)
    (hzero : m.get .zero = 0)
    (hdirect : op.writesPc = true → ∃ b : Nat, op.destination a = some (b : Int)) :
    ∃ b : Nat, op.Continues a b ∧ (m'.get .pc).toInt = b := by
  obtain ⟨op', next, hop', -, hnext, hperform⟩ := step_eq_running h
  rw [hpc, Int.toNat_natCast] at hop'
  cases hop.symm.trans hop'
  have hhalt : op.opcode ≠ .halt := by
    intro hhalt
    rw [perform, hhalt] at hperform
    cases hperform
  cases hw : op.writesPc with
  | false =>
    obtain ⟨i, hi, rfl⟩ := Option.map_eq_some_iff.1 hop
    exact ⟨a + 1, .next hhalt (Operation.fills_ne_pc hw), step_pc h hpc hi hw⟩
  | true =>
    obtain ⟨b, hb⟩ := hdirect hw
    have hjump := Operation.Continues.jump hb
    obtain ⟨opcode, operands⟩ := op
    cases operands with
    | registers r s t => cases hb
    | memory r d s =>
      obtain ⟨address, haddress, hcases⟩ :=
        runMemory_eq_ok (perform_memory_eq_running hperform)
      simp only [Operation.destination] at hb
      split at hb
      · next hkind =>
        have htarget : address.toInt = b := by
          split at hb
          · rw [haddress, get_set, if_neg (by decide), hzero, ← Option.some.inj hb]
            simp
          · rw [haddress, get_set, if_pos rfl, hnext, hpc, ← Option.some.inj hb]
          · cases hb
        rcases hkind with hkind | ⟨rfl, rfl⟩
        · obtain ⟨rfl, -⟩ | ⟨rfl, -⟩ | ⟨rfl, -⟩ | ⟨rfl, -⟩ | ⟨-, rfl | rfl⟩ := hcases
          · cases hkind
          · cases hkind
          · cases hkind
          · cases hkind
          · have hfills : (⟨opcode, .memory r d s⟩ : Operation).fills = none := by
              cases opcode <;> first | rfl | cases hkind
            refine ⟨a + 1, .next hhalt (by rw [hfills]; nofun), ?_⟩
            rw [get_set, if_pos rfl, hnext, hpc]
            rfl
          · exact ⟨b, hjump, by rw [get_set, if_pos rfl, htarget]⟩
        · obtain ⟨hld, -⟩ | ⟨hst, -⟩ | ⟨-, rfl⟩ | ⟨hldc, -⟩ | ⟨hkind, -⟩ := hcases
          · cases hld
          · cases hst
          · exact ⟨b, hjump, by rw [get_set, if_pos rfl, htarget]⟩
          · cases hldc
          · cases hkind
      · cases hb

end Machine

end CMinus
