import CMinus.Proofs.Backpatch
import CMinus.Proofs.Execution
import CMinus.Proofs.Overflow

namespace CMinus

/-- What was written between the streams `s` and `s'` stands in `code` from address `k` on. -/
def Code.Copies (code : Code) (k : Nat) (s s' : Stream) : Prop :=
  ∀ i, s.cursor + i < s'.cursor →
    (code.get? (k + i)).map (·.toOperation) = (s'.finish.get? (s.cursor + i)).map (·.toOperation)

theorem Stream.get?_finish (s : Stream) (a : Nat) :
    (s.finish.get? a).map (·.toOperation) = s.view[a]?.join.map Prod.fst := by
  rw [Code.get?, finish, view, List.getElem?_map, Array.getElem?_toList]
  cases s.slots[a]? with
  | none => rfl
  | some slot => cases slot <;> rfl

theorem Code.Copies.holds {code : Code} {k : Nat} {s s' : Stream} {ops : List Operation}
    (h : code.Copies k s s') (hs : s.AtEnd) (happ : s.Appends s' (ops.map some)) :
    code.Holds k ops := by
  intro i op hop
  have hi : s.cursor + i < s'.cursor := by
    rw [happ.cursor, List.length_map]
    exact Nat.add_lt_add_left (List.getElem?_eq_some_iff.1 hop).1 _
  have hlow : s.cursor = s.view.length := by
    rw [Stream.length_view]
    exact hs
  rw [h i hi, Stream.get?_finish, happ.view, hlow, List.getElem?_append_right (Nat.le_add_right ..),
    Nat.add_sub_cancel_left, Stream.getElem?_placed, List.getElem?_map, hop]
  rfl

/-- The code that an expression adds to a stream is the code of the expression, wherever it is
copied to. -/
theorem Generate.holds_of_expression {env : Env} {access : Access} {node : Node} {s s' : Stream}
    {code : Code} {k : Nat} (h : expression env access node s = .ok s') (hs : s.AtEnd)
    (hcode : code.Copies k s s') :
    ∃ ops, Compile.expression env access node = .ok ops ∧ s'.cursor = s.cursor + ops.length ∧
      code.Holds k ops := by
  have hfollows := expression_follows env access hs node
  rw [h] at hfollows
  obtain ⟨ops, hops, happ⟩ := hfollows
  exact ⟨ops, hops, by rw [happ.cursor, List.length_map], hcode.holds hs happ⟩

namespace Code

/-- The code with nothing but the slots from `first` up to `stop`. -/
def only (code : Code) (first stop : Nat) : Code :=
  { code with slots := Array.ofFn fun a : Fin stop => if first ≤ a.val then code.get? a else none }

variable {code : Code} {first stop k : Nat}

theorem size_only : (code.only first stop).size = stop :=
  Array.size_ofFn

theorem get?_only (a : Nat) :
    (code.only first stop).get? a = if first ≤ a ∧ a < stop then code.get? a else none := by
  rw [get?, only, Array.getElem?_ofFn]
  by_cases hstop : a < stop
  · rw [dif_pos hstop, Option.join_some]
    simp only [hstop, and_true]
  · rw [dif_neg hstop, if_neg (fun h => hstop h.2)]
    rfl

theorem Holds.only {ops : List Operation} (h : code.Holds k ops) (hfirst : first ≤ k)
    (hstop : k + ops.length ≤ stop) : (code.only first stop).Holds k ops := by
  intro i op hop
  have hi := (List.getElem?_eq_some_iff.1 hop).1
  rw [get?_only, if_pos (by omega)]
  exact h i op hop

end Code

namespace Machine

variable {code : Code} {first stop : Nat} {m m' m'' : Machine} {op : Operation}

theorem faces_only (h : m.Faces (code.only first stop) op) :
    first ≤ (m.get .pc).toInt ∧ (m.get .pc).toInt < stop ∧ m.Faces code op := by
  have hget := h.get
  have hpos := h.pos
  rw [Code.get?_only] at hget
  split at hget
  · next hin => exact ⟨by omega, by omega, hpos, hget⟩
  · cases hget

theorem Faces.step_only (h : m.Faces (code.only first stop) op) :
    m.step code = m.step (code.only first stop) := by
  rw [(faces_only h).2.2.step, h.step]

theorem Runs.of_only {n : Nat} (h : Runs (code.only first stop) n m m') : Runs code n m m' := by
  induction h with
  | refl m => exact .refl m
  | step hstep _ ih =>
    obtain ⟨op, next, hop, hpos, -, -⟩ := step_eq_running hstep
    have hfaces : Faces (code.only first stop) _ op := ⟨hpos, hop⟩
    rw [← hfaces.step_only] at hstep
    exact .step hstep ih

/-- The machine gets from one state to another by instructions between `first` and `stop`. -/
inductive RunsIn (code : Code) (first stop : Nat) : Machine → Machine → Prop
  | refl (m : Machine) : RunsIn code first stop m m
  | step {m m' m'' : Machine} : first ≤ (m.get .pc).toInt → (m.get .pc).toInt < stop →
      m.step code = .ok (.running m') → RunsIn code first stop m' m'' → RunsIn code first stop m m''

theorem RunsIn.exists_runs (h : RunsIn code first stop m m') : ∃ n, Runs code n m m' := by
  induction h with
  | refl m => exact ⟨0, .refl m⟩
  | step _ _ hstep _ ih =>
    obtain ⟨n, hruns⟩ := ih
    exact ⟨n + 1, .step hstep hruns⟩

/-- The effective address of an operation, before it is checked. What is counted from the counter is
counted from the next instruction. -/
def effective? (m : Machine) (op : Operation) : Option Int :=
  match op.operands with
  | .registers .. => none
  | .memory _ d s => some (d.toInt + if s = .pc then (m.get .pc).toInt + 1 else (m.get s).toInt)

/-- The effective address of the next instruction fits a word, if it has one. -/
def Addresses (code : Code) (m : Machine) : Prop :=
  ∀ x ∈ (code.get? (m.get .pc).toInt.toNat).bind (m.effective? ·.toOperation), Word.Fits x

instance (code : Code) (m : Machine) : Decidable (m.Addresses code) :=
  inferInstanceAs (Decidable (∀ x ∈ Option.bind _ _, _))

/-- Every effective address fits a word as long as control stays between `first` and `stop`. -/
def AddressesIn (code : Code) (first stop : Nat) (m : Machine) : Prop :=
  ∀ m', RunsIn code first stop m m' → first ≤ (m'.get .pc).toInt → (m'.get .pc).toInt < stop →
    m'.Addresses code

theorem AddressesIn.step (h : m.AddressesIn code first stop) (hfirst : first ≤ (m.get .pc).toInt)
    (hlt : (m.get .pc).toInt < stop) (hstep : m.step code = .ok (.running m')) :
    m'.AddressesIn code first stop := by
  intro m'' hruns
  exact h m'' (.step hfirst hlt hstep hruns)

/-- Follows a run through the segment, for less than `n` steps. -/
def checkAddresses (code : Code) (first stop : Nat) : Nat → Machine → Bool
  | 0, _ => false
  | n + 1, m =>
    if first ≤ (m.get .pc).toInt ∧ (m.get .pc).toInt < stop then
      decide (m.Addresses code) &&
        match m.step code with
        | .ok (.running m') => checkAddresses code first stop n m'
        | _ => true
    else true

theorem addressesIn_of_check {n : Nat} (h : checkAddresses code first stop n m = true) :
    m.AddressesIn code first stop := by
  induction n generalizing m with
  | zero => cases h
  | succ n ih =>
    intro m' hruns hfirst hlt
    cases hruns with
    | refl =>
      rw [checkAddresses, if_pos ⟨hfirst, hlt⟩, Bool.and_eq_true] at h
      exact of_decide_eq_true h.1
    | step hfirst₁ hlt₁ hstep hruns =>
      rw [checkAddresses, if_pos ⟨hfirst₁, hlt₁⟩, Bool.and_eq_true, hstep] at h
      exact ih h.2 m' hruns hfirst hlt

/-- Nothing but an effective address makes a sum overflow, as long as the counter can move on. -/
theorem not_addresses_of_overflow (h : m.step code = .error (.overflow .add))
    (hpc : (m.get .pc).toInt < 2147483647) : ¬ m.Addresses code := by
  intro haddresses
  obtain ⟨op, hfaces⟩ := faces_of_overflow h
  rw [hfaces.step] at h
  obtain ⟨hlast, -⟩ | ⟨-, next, hnext, hchecked⟩ := checked_next (m.get .pc)
  · omega
  rw [hchecked, ok_bind] at h
  obtain ⟨i, hi, rfl⟩ := Option.map_eq_some_iff.1 hfaces.get
  rw [Addresses, hi, Option.bind_some, effective?] at haddresses
  obtain ⟨⟨opcode, operands⟩, address, remark⟩ := i
  cases operands with
  | registers r s t => cases (perform_registers_overflow_iff.1 h).2.1
  | memory r d s =>
    have hhalt : opcode ≠ .halt := by
      rintro rfl
      cases h
    apply ((perform_memory_overflow_iff hhalt).1 h).2
    have hfits := haddresses _ rfl
    rw [get_set]
    split
    · next hs => rwa [if_pos hs, ← hnext] at hfits
    · next hs => rwa [if_neg hs] at hfits

end Machine

/-- What the segment reaches on its own, the whole code reaches without leaving the segment, if
every effective address on the way fits. -/
theorem Reaches.runsIn {code : Code} {first stop : Nat} {Q : View → Prop} {m : Machine}
    (h : Reaches (code.only first stop) Q (· = .overflow .add) m) (hstop : stop < 2147483648)
    (haddresses : m.AddressesIn code first stop) :
    ∃ m', Machine.RunsIn code first stop m m' ∧ Q m'.view := by
  have hstuck {m : Machine} (hstep : m.step (code.only first stop) = .error (.overflow .add)) :
      ¬ m.AddressesIn code first stop := by
    intro haddresses
    obtain ⟨op, hfaces⟩ := Machine.faces_of_overflow hstep
    obtain ⟨hfirst, hlt, -⟩ := Machine.faces_only hfaces
    rw [← hfaces.step_only] at hstep
    apply Machine.not_addresses_of_overflow hstep (by omega)
    exact haddresses m (.refl m) hfirst hlt
  induction h with
  | here h => exact ⟨_, .refl _, h⟩
  | @next m m₁ hstep _ ih =>
    obtain ⟨op, next, hop, hpos, -, -⟩ := Machine.step_eq_running hstep
    have hfaces : m.Faces (code.only first stop) op := ⟨hpos, hop⟩
    obtain ⟨hfirst, hlt, -⟩ := Machine.faces_only hfaces
    rw [← hfaces.step_only] at hstep
    obtain ⟨m', hruns, hm'⟩ := ih (haddresses.step hfirst hlt hstep)
    exact ⟨m', .step hfirst hlt hstep hruns, hm'⟩
  | trap hstep ht =>
    subst ht
    exact absurd haddresses (hstuck hstep)
  | overstep hover => exact absurd haddresses (hstuck hover.step)

end CMinus
