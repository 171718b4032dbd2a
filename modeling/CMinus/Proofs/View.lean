import CMinus.Proofs.Layout
import CMinus.Proofs.Run
import CMinus.Proofs.Step

namespace CMinus

/-- What a program can see of the machine, with the memory as a function. -/
@[ext]
structure View where
  get : Register → Word
  mem : Nat → Word
  input : List Word
  output : List Word

namespace View

def set (v : View) (r : Register) (w : Word) : View :=
  { v with get := fun s => if s = r then w else v.get s }

def poke (v : View) (a : Nat) (w : Word) : View :=
  { v with mem := fun b => if b = a then w else v.mem b }

/-- Control is at address `k`. -/
def goto (v : View) (k : Nat) : View :=
  v.set .pc (Word.low k)

variable {v : View}

@[simp]
theorem get_set (v : View) (r s : Register) (w : Word) :
    (v.set r w).get s = if s = r then w else v.get s := rfl

@[simp]
theorem mem_set (v : View) (r : Register) (w : Word) : (v.set r w).mem = v.mem := rfl

@[simp]
theorem input_set (v : View) (r : Register) (w : Word) : (v.set r w).input = v.input := rfl

@[simp]
theorem output_set (v : View) (r : Register) (w : Word) : (v.set r w).output = v.output := rfl

@[simp]
theorem get_poke (v : View) (a : Nat) (w : Word) : (v.poke a w).get = v.get := rfl

@[simp]
theorem mem_poke (v : View) (a b : Nat) (w : Word) :
    (v.poke a w).mem b = if b = a then w else v.mem b := rfl

@[simp]
theorem input_poke (v : View) (a : Nat) (w : Word) : (v.poke a w).input = v.input := rfl

@[simp]
theorem output_poke (v : View) (a : Nat) (w : Word) : (v.poke a w).output = v.output := rfl

@[simp]
theorem get_goto (v : View) (k : Nat) (r : Register) :
    (v.goto k).get r = if r = .pc then Word.low k else v.get r := rfl

@[simp]
theorem mem_goto (v : View) (k : Nat) : (v.goto k).mem = v.mem := rfl

@[simp]
theorem input_goto (v : View) (k : Nat) : (v.goto k).input = v.input := rfl

@[simp]
theorem output_goto (v : View) (k : Nat) : (v.goto k).output = v.output := rfl

theorem pc_goto (v : View) {k l : Nat} (h : k = l) : (v.goto k).get .pc = Word.low l := by
  rw [get_goto, if_pos rfl, h]

theorem goto_self {k : Nat} (h : v.get .pc = Word.low k) : v.goto k = v := by
  refine View.ext (funext fun r => ?_) rfl rfl rfl
  by_cases hr : r = .pc
  · rw [get_goto, if_pos hr, hr, h]
  · rw [get_goto, if_neg hr]

theorem set_goto {k l : Nat} {r : Register} {w : Word} (hr : r ≠ .pc) :
    ((v.goto k).goto l).set r w = (v.set r w).goto l := by
  refine View.ext (funext fun s => ?_) rfl rfl rfl
  simp only [get_set, get_goto]
  by_cases hs : s = r
  · subst hs
    simp [hr]
  · by_cases hpc : s = .pc <;> simp [hs, hpc, hr.symm]

theorem set_set (v : View) (r : Register) (w x : Word) : (v.set r w).set r x = v.set r x := by
  refine View.ext (funext fun s => ?_) rfl rfl rfl
  simp only [get_set]
  by_cases hs : s = r <;> simp [hs]

theorem goto_goto (v : View) (k l : Nat) : (v.goto k).goto l = v.goto l := by
  refine View.ext (funext fun s => ?_) rfl rfl rfl
  simp only [get_goto]
  by_cases hpc : s = .pc <;> simp [hpc]

end View

namespace Machine

def view (m : Machine) : View where
  get := m.get
  mem a := if h : a < 1024 then m.data[a] else 0
  input := m.input
  output := m.output.toList

theorem view_set (m : Machine) (r : Register) (w : Word) : (m.set r w).view = m.view.set r w :=
  View.ext (funext fun s => get_set m r s w) rfl rfl rfl

theorem cell_low {a : Nat} (h : a < 1024) : cell (Word.low a) = .ok ⟨a, h⟩ := by
  have hlow : (Word.low a).toInt = a := Word.toInt_low (by omega)
  have hrange : 0 ≤ (Word.low a).toInt ∧ (Word.low a).toInt < 1024 := by omega
  rw [cell, dif_pos hrange]
  congr
  rw [hlow, Int.toNat_natCast]

theorem load_low (m : Machine) {a : Nat} (h : a < 1024) :
    m.load (Word.low a) = .ok (m.view.mem a) := by
  simp only [load, cell_low h, view, dif_pos h]
  rfl

theorem load_eq_ok {m : Machine} {w x : Word} (h : m.load w = .ok x) :
    ∃ a, a < 1024 ∧ w = Word.low a ∧ m.view.mem a = x := by
  have hcell : 0 ≤ w.toInt ∧ w.toInt < 1024 := by
    rw [load, cell] at h
    split at h
    · next hrange => exact hrange
    · cases h
  have hlow : w = Word.low w.toInt.toNat := by
    apply Word.ext
    rw [Word.toInt_low (by omega)]
    omega
  have hlt : w.toInt.toNat < 1024 := by omega
  rw [hlow, load_low m hlt] at h
  exact ⟨_, hlt, hlow, Except.ok.inj h⟩

theorem store_low (m : Machine) {a : Nat} (h : a < 1024) (w : Word) :
    ∃ m', m.store (Word.low a) w = .ok m' ∧ m'.view = m.view.poke a w := by
  refine ⟨_, by rw [store, cell_low h]; rfl, ?_⟩
  refine View.ext rfl (funext fun b => ?_) rfl rfl
  simp only [view, View.mem_poke]
  by_cases hb : b < 1024
  · rw [dif_pos hb, dif_pos hb, Vector.getElem_set]
    by_cases hab : b = a
    · rw [if_pos hab.symm, if_pos hab]
    · rw [if_neg (Ne.symm hab), if_neg hab]
  · rw [dif_neg hb, dif_neg hb, if_neg (by omega)]

end Machine

theorem Code.lt_size_of_get? {code : Code} {k : Nat} {op : Operation}
    (h : (code.get? k).map (·.toOperation) = some op) : k < code.size := by
  obtain ⟨i, hi, -⟩ := Option.map_eq_some_iff.1 h
  rw [Code.get?, Option.join_eq_some_iff] at hi
  exact (Array.getElem?_eq_some_iff.1 hi).1

def Opcode.taken : Opcode → Word → Bool
  | jlt, w => w < 0
  | jle, w => w ≤ 0
  | jgt, w => 0 < w
  | jge, w => 0 ≤ w
  | jeq, w => w = 0
  | jne, w => w ≠ 0
  | _, _ => false

theorem Word.add_low {d : Word} {a b : Nat} (n : Int) (hd : d.toInt = n) (ha : a < 2147483648)
    (hb : b < 2147483648) (h : n + a = b) : d.add (Word.low a) = .ok (Word.low b) := by
  rw [Word.add, Word.exact_eq_ok_iff, Word.toInt_low ha, Word.toInt_low hb, hd, h]

/-- A step takes every machine with the view `v` to one with the view `v'`. -/
def View.Steps (code : Code) (v v' : View) : Prop :=
  ∀ m : Machine, m.view = v → ∃ m', m.step code = .ok (.running m') ∧ m'.view = v'

namespace View

variable {code : Code} {v : View} {k : Nat} {r s t : Register} {d w : Word}

/-- A machine about to run the instruction at `k`, once the counter has moved on. -/
structure Ready (v : View) (k : Nat) (m : Machine) : Prop where
  view : m.view = (v.goto k).goto (k + 1)

theorem Ready.get {m : Machine} (h : Ready v k m) {s : Register} (hs : s ≠ .pc) :
    m.get s = v.get s := by
  have : m.view.get s = v.get s := by
    rw [h.view, get_goto, if_neg hs, get_goto, if_neg hs]
  exact this

theorem Ready.get_pc {m : Machine} (h : Ready v k m) : m.get .pc = Word.low (k + 1) :=
  congrArg (·.get .pc) h.view

theorem Ready.mem {m : Machine} (h : Ready v k m) : m.view.mem = v.mem := by
  rw [h.view, mem_goto, mem_goto]

theorem Ready.set {m : Machine} (h : Ready v k m) (hr : r ≠ .pc) (w : Word) :
    (m.set r w).view = (v.set r w).goto (k + 1) := by
  rw [Machine.view_set, h.view, set_goto hr]

theorem Ready.jump {m : Machine} (h : Ready v k m) (l : Nat) :
    (m.set .pc (Word.low l)).view = v.goto l := by
  rw [Machine.view_set, h.view]
  exact (goto_goto _ _ _).trans (goto_goto _ _ _)

/-- A step is settled by what the operation does once the counter has moved on. -/
theorem steps_of_ready (hsize : code.size < 2147483648) {op : Operation} {v' : View}
    (hop : (code.get? k).map (·.toOperation) = some op)
    (h : ∀ m, Ready v k m → ∃ m', m.perform (Word.low k) op = .ok (.running m') ∧ m'.view = v') :
    Steps code (v.goto k) v' := by
  intro m hm
  have hk := Code.lt_size_of_get? hop
  have hpc : m.get .pc = Word.low k := congrArg (·.get .pc) hm
  rw [Machine.step_eq hpc (by omega) hop]
  exact h _ ⟨by rw [Machine.view_set, hm]; rfl⟩

theorem step_of_not_fits (hsize : code.size < 2147483648) {opcode : Opcode}
    (hop : (code.get? k).map (·.toOperation) = some (.memory opcode r d s)) (hhalt : opcode ≠ .halt)
    (hs : s ≠ .pc) (hfits : ¬ Word.Fits (d.toInt + (v.get s).toInt)) {m : Machine}
    (hm : m.view = v.goto k) :
    (code.get? (m.get .pc).toInt.toNat).map (·.toOperation) = some (.memory opcode r d s) ∧
      ¬ Word.Fits (d.toInt + (m.get s).toInt) ∧ m.step code = .error (.overflow .add) := by
  have hk := Code.lt_size_of_get? hop
  have hpc : m.get .pc = Word.low k := congrArg (·.get .pc) hm
  have hget : m.view.get s = v.get s := by
    rw [hm, get_goto, if_neg hs]
  rw [← hget] at hfits
  refine ⟨by rwa [hpc, Word.toInt_low (by omega), Int.toNat_natCast], hfits, ?_⟩
  rw [Machine.step_eq hpc (by omega) hop]
  apply Machine.perform_of_not_fits hhalt
  rwa [Machine.get_set, if_neg hs]

section Instructions

variable (hsize : code.size < 2147483648)

include hsize

theorem steps_lda (hop : (code.get? k).map (·.toOperation) = some (.memory .lda r d s))
    (hr : r ≠ .pc) (hs : s ≠ .pc) (hw : d.add (v.get s) = .ok w) :
    Steps code (v.goto k) ((v.set r w).goto (k + 1)) := by
  refine steps_of_ready hsize hop fun m hm => ⟨m.set r w, ?_, hm.set hr w⟩
  rw [← hm.get hs] at hw
  simp only [Machine.perform, Operation.memory, Machine.runMemory, Machine.checked, hw,
    mapError_ok, ok_bind]
  rfl

/-- The address of a constant is not used, but it must fit. -/
theorem steps_ldc (hop : (code.get? k).map (·.toOperation) = some (.memory .ldc r d s))
    (hr : r ≠ .pc) (hs : s ≠ .pc) (hfits : Word.Fits (d.toInt + (v.get s).toInt)) :
    Steps code (v.goto k) ((v.set r d).goto (k + 1)) := by
  refine steps_of_ready hsize hop fun m hm => ⟨m.set r d, ?_, hm.set hr d⟩
  obtain ⟨w, hw, -⟩ := Word.add_isOk hfits
  rw [← hm.get hs] at hw
  simp only [Machine.perform, Operation.memory, Machine.runMemory, Machine.checked, hw,
    mapError_ok, ok_bind]
  rfl

theorem steps_ld {a : Nat} (hop : (code.get? k).map (·.toOperation) = some (.memory .ld r d s))
    (hr : r ≠ .pc) (hs : s ≠ .pc) (hw : d.add (v.get s) = .ok (Word.low a)) (ha : a < 1024) :
    Steps code (v.goto k) ((v.set r (v.mem a)).goto (k + 1)) := by
  refine steps_of_ready hsize hop fun m hm => ⟨m.set r (v.mem a), ?_, hm.set hr _⟩
  rw [← hm.get hs] at hw
  simp only [Machine.perform, Operation.memory, Machine.runMemory, Machine.checked, hw,
    mapError_ok, ok_bind, Machine.load_low m ha, hm.mem]
  rfl

theorem steps_st {a : Nat} (hop : (code.get? k).map (·.toOperation) = some (.memory .st r d s))
    (hr : r ≠ .pc) (hs : s ≠ .pc) (hw : d.add (v.get s) = .ok (Word.low a)) (ha : a < 1024) :
    Steps code (v.goto k) ((v.poke a (v.get r)).goto (k + 1)) := by
  refine steps_of_ready hsize hop fun m hm => ?_
  obtain ⟨m', hstore, hview⟩ := m.store_low ha (m.get r)
  refine ⟨m', ?_, ?_⟩
  · rw [← hm.get hs] at hw
    simp only [Machine.perform, Operation.memory, Machine.runMemory, Machine.checked, hw,
      mapError_ok, ok_bind, hstore]
    rfl
  · rw [hview, hm.view, hm.get hr]
    refine View.ext (funext fun s => ?_) rfl rfl rfl
    simp only [get_poke, get_goto]
    by_cases hpc : s = .pc <;> simp [hpc]

theorem steps_ldPc {a l : Nat} (hop : (code.get? k).map (·.toOperation) = some (.memory .ld .pc d s))
    (hs : s ≠ .pc) (hw : d.add (v.get s) = .ok (Word.low a)) (ha : a < 1024)
    (hl : v.mem a = Word.low l) : Steps code (v.goto k) (v.goto l) := by
  refine steps_of_ready hsize hop fun m hm => ⟨m.set .pc (Word.low l), ?_, hm.jump l⟩
  rw [← hm.get hs] at hw
  simp only [Machine.perform, Operation.memory, Machine.runMemory, Machine.checked, hw,
    mapError_ok, ok_bind, Machine.load_low m ha, hm.mem, hl]
  rfl

theorem steps_jump {l : Nat} (hop : (code.get? k).map (·.toOperation) = some (Compile.jump l))
    (hzero : v.get .zero = 0) : Steps code (v.goto k) (v.goto l) := by
  refine steps_of_ready hsize hop fun m hm => ⟨m.set .pc (Word.low l), ?_, hm.jump l⟩
  have hw : (Word.low l).add (m.get .zero) = .ok (Word.low l) := by
    rw [hm.get (by decide), hzero, Word.add, Word.exact_eq_ok_iff]
    simp
  simp only [Machine.perform, Compile.jump, Operation.memory, Machine.runMemory, Machine.checked,
    hw, mapError_ok, ok_bind]
  rfl

theorem steps_jumpIfZero {l : Nat}
    (hop : (code.get? k).map (·.toOperation) = some (Compile.jumpIfZero l))
    (hzero : v.get .zero = 0) :
    Steps code (v.goto k) (v.goto (if v.get .ax = 0 then l else k + 1)) := by
  refine steps_of_ready hsize hop fun m hm => ?_
  have hw : (Word.low l).add (m.get .zero) = .ok (Word.low l) := by
    rw [hm.get (by decide), hzero, Word.add, Word.exact_eq_ok_iff]
    simp
  refine ⟨m.jumpIf (m.get .ax = 0) (Word.low l), ?_, ?_⟩
  · simp only [Machine.perform, Compile.jumpIfZero, Operation.memory, Machine.runMemory,
      Machine.checked, hw, mapError_ok, ok_bind]
    rfl
  · rw [hm.get (by decide), Machine.jumpIf]
    by_cases hax : v.get .ax = 0
    · simpa [hax] using hm.jump l
    · simpa [hax, goto_goto] using hm.view

theorem steps_jumpIf {opcode : Opcode}
    (hop : (code.get? k).map (·.toOperation) = some (.memory opcode .ax 2 .pc))
    (hjump : opcode.isJump = true) (hk : k + 3 < 2147483648) :
    Steps code (v.goto k) (v.goto (if opcode.taken (v.get .ax) then k + 3 else k + 1)) := by
  refine steps_of_ready hsize hop fun m hm => ?_
  have hw : (2 : Word).add (m.get .pc) = .ok (Word.low (k + 3)) := by
    rw [hm.get_pc]
    exact Word.add_low 2 rfl (by omega) hk (by omega)
  refine ⟨m.jumpIf (opcode.taken (m.get .ax)) (Word.low (k + 3)), ?_, ?_⟩
  · cases opcode with
    | jlt | jle | jgt | jge | jeq | jne =>
      simp only [Machine.perform, Operation.memory, Machine.runMemory, Machine.checked, hw,
        mapError_ok, ok_bind]
      rfl
    | _ => cases hjump
  · rw [hm.get (by decide), Machine.jumpIf]
    by_cases htaken : opcode.taken (v.get .ax) = true
    · simpa [htaken] using hm.jump (k + 3)
    · simpa [htaken, goto_goto] using hm.view

theorem steps_pass (hop : (code.get? k).map (·.toOperation) = some (.memory .lda .pc 1 .pc))
    (hk : k + 2 < 2147483648) : Steps code (v.goto k) (v.goto (k + 2)) := by
  refine steps_of_ready hsize hop fun m hm => ⟨m.set .pc (Word.low (k + 2)), ?_, hm.jump _⟩
  have hw : (1 : Word).add (m.get .pc) = .ok (Word.low (k + 2)) := by
    rw [hm.get_pc]
    exact Word.add_low 1 rfl (by omega) hk (by omega)
  simp only [Machine.perform, Operation.memory, Machine.runMemory, Machine.checked, hw,
    mapError_ok, ok_bind]
  rfl

theorem steps_returnAddress
    (hop : (code.get? k).map (·.toOperation) = some (.memory .lda .ax 3 .pc))
    (hk : k + 4 < 2147483648) :
    Steps code (v.goto k) ((v.set .ax (Word.low (k + 4))).goto (k + 1)) := by
  refine steps_of_ready hsize hop fun m hm =>
    ⟨m.set .ax (Word.low (k + 4)), ?_, hm.set (by decide) _⟩
  have hw : (3 : Word).add (m.get .pc) = .ok (Word.low (k + 4)) := by
    rw [hm.get_pc]
    exact Word.add_low 3 rfl (by omega) hk (by omega)
  simp only [Machine.perform, Operation.memory, Machine.runMemory, Machine.checked, hw,
    mapError_ok, ok_bind]
  rfl

theorem steps_registers {opcode : Opcode} (f : Word → Word → Word)
    (hop : (code.get? k).map (·.toOperation) = some (.registers opcode r s t))
    (hr : r ≠ .pc) (hs : s ≠ .pc) (ht : t ≠ .pc)
    (hf : ∀ (m : Machine) (pc : Word), m.perform pc (.registers opcode r s t) =
      .ok (.running (m.set r (f (m.get s) (m.get t))))) :
    Steps code (v.goto k) ((v.set r (f (v.get s) (v.get t))).goto (k + 1)) := by
  refine steps_of_ready hsize hop fun m hm => ⟨m.set r (f (v.get s) (v.get t)), ?_, hm.set hr _⟩
  rw [hf, hm.get hs, hm.get ht]

theorem steps_div (hop : (code.get? k).map (·.toOperation) = some (.registers .div r s t))
    (hr : r ≠ .pc) (hs : s ≠ .pc) (ht : t ≠ .pc) (hzero : v.get t ≠ 0)
    (hw : (v.get s).div (v.get t) = .ok w) :
    Steps code (v.goto k) ((v.set r w).goto (k + 1)) := by
  refine steps_of_ready hsize hop fun m hm => ⟨m.set r w, ?_, hm.set hr w⟩
  rw [← hm.get hs, ← hm.get ht] at hw
  rw [← hm.get ht] at hzero
  simp only [Machine.perform, Operation.registers, Machine.runRegisters, if_neg hzero,
    Machine.checked, hw, mapError_ok]
  rfl

theorem steps_input {rest : List Word}
    (hop : (code.get? k).map (·.toOperation) = some (.registers .input r s t)) (hr : r ≠ .pc)
    (hinput : v.input = w :: rest) :
    Steps code (v.goto k) (({ v with input := rest }.set r w).goto (k + 1)) := by
  refine steps_of_ready hsize hop fun m hm => ⟨{ m with input := rest }.set r w, ?_, ?_⟩
  · have hm' : m.input = w :: rest := by
      rw [← hinput]
      exact congrArg View.input hm.view
    simp only [Machine.perform, Operation.registers, Machine.runRegisters, hm']
    rfl
  · have hview : { m with input := rest }.view = (({ v with input := rest }).goto k).goto (k + 1) := by
      have := hm.view
      rw [View.ext_iff] at this
      exact View.ext this.1 this.2.1 rfl this.2.2.2
    exact Ready.set ⟨hview⟩ hr w

theorem steps_output (hop : (code.get? k).map (·.toOperation) = some (.registers .output r s t))
    (hr : r ≠ .pc) :
    Steps code (v.goto k) ({ v with output := v.output ++ [v.get r] }.goto (k + 1)) := by
  refine steps_of_ready hsize hop fun m hm => ⟨{ m with output := m.output.push (m.get r) }, rfl, ?_⟩
  have := hm.view
  rw [View.ext_iff] at this
  obtain ⟨hget, hmem, hinput, houtput⟩ := this
  refine View.ext ?_ hmem hinput ?_
  · rw [goto_goto] at hget
    exact hget
  · change (m.output.push (m.get r)).toList = v.output ++ [v.get r]
    rw [Array.toList_push, hm.get hr]
    exact congrArg (· ++ [v.get r]) houtput

end Instructions

/-- The machine gets from every state with the view `v` to one with the view `v'`. -/
def Gets (code : Code) (v v' : View) : Prop :=
  ∀ m : Machine, m.view = v → ∃ n m', Machine.Runs code n m m' ∧ m'.view = v'

theorem Gets.refl (v : View) : Gets code v v := by
  intro m hm
  exact ⟨0, m, .refl m, hm⟩

theorem Gets.trans {v' v'' : View} (h : Gets code v v') (h' : Gets code v' v'') :
    Gets code v v'' := by
  intro m hm
  obtain ⟨n, m₁, hruns, hm₁⟩ := h m hm
  obtain ⟨n', m', hruns', hm'⟩ := h' m₁ hm₁
  obtain ⟨n'', hall⟩ := hruns.trans hruns'
  exact ⟨n'', m', hall, hm'⟩

theorem Gets.step {v' v'' : View} (hstep : v.Steps code v') (h : Gets code v' v'') :
    Gets code v v'' := by
  intro m hm
  obtain ⟨m₁, hrun, hview⟩ := hstep m hm
  obtain ⟨n, m', hruns, hm'⟩ := h m₁ hview
  exact ⟨n + 1, m', .step hrun hruns, hm'⟩

section Sequences

variable {sp : Nat} (hsize : code.size < 2147483648)

include hsize

theorem gets_push {reg : Register} (hcode : code.Holds k (Compile.push reg)) (hpc : reg ≠ .pc)
    (hreg : reg ≠ .sp) (hsp : v.get .sp = Word.low (sp + 1)) (hlt : sp < 1024) :
    Gets code (v.goto k) (((v.set .sp (Word.low sp)).poke sp (v.get reg)).goto (k + 2)) := by
  have hdown : (-1 : Word).add (v.get .sp) = .ok (Word.low sp) := by
    rw [hsp]
    exact Word.add_low (-1) rfl (by omega) (by omega) (by omega)
  have hsame : (0 : Word).add ((v.set .sp (Word.low sp)).get .sp) = .ok (Word.low sp) := by
    rw [View.get_set, if_pos rfl]
    exact Word.add_low 0 rfl (by omega) (by omega) (by omega)
  have hstore := steps_st hsize (hcode 1 _ rfl) hpc (by decide) hsame (by omega)
  rw [View.get_set, if_neg hreg] at hstore
  apply Gets.step (steps_lda hsize (hcode 0 _ rfl) (by decide) (by decide) hdown)
  exact Gets.step hstore (.refl _)

theorem gets_pop {reg : Register} (hcode : code.Holds k (Compile.pop reg)) (hpc : reg ≠ .pc)
    (hsp : v.get .sp = Word.low sp) (hlt : sp < 1024) :
    Gets code (v.goto k) (((v.set .sp (Word.low (sp + 1))).set reg (v.mem sp)).goto (k + 2)) := by
  have hup : (1 : Word).add (v.get .sp) = .ok (Word.low (sp + 1)) := by
    rw [hsp]
    exact Word.add_low 1 rfl (by omega) (by omega) (by omega)
  have hback : (-1 : Word).add ((v.set .sp (Word.low (sp + 1))).get .sp) = .ok (Word.low sp) := by
    rw [View.get_set, if_pos rfl]
    exact Word.add_low (-1) rfl (by omega) (by omega) (by omega)
  apply Gets.step (steps_lda hsize (hcode 0 _ rfl) (by decide) (by decide) hup)
  exact Gets.step (steps_ld hsize (hcode 1 _ rfl) hpc (by decide) hback hlt) (.refl _)

theorem gets_save {reg : Register} {ops : List Operation}
    (hcode : code.Holds k (Compile.push reg ++ ops ++ Compile.pop .bx))
    (hreg : reg = .ax ∨ reg = .bx) (hsp : v.get .sp = Word.low (sp + 1)) (hlt : sp < 1024) :
    Gets code (v.goto k) (((v.set .sp (Word.low sp)).poke sp (v.get reg)).goto (k + 2)) := by
  have hpc : reg ≠ .pc ∧ reg ≠ .sp := by
    rcases hreg with rfl | rfl <;> decide
  exact gets_push hsize hcode.left.left hpc.1 hpc.2 hsp hlt

theorem gets_restore {reg : Register} {ops : List Operation}
    (hcode : code.Holds k (Compile.push reg ++ ops ++ Compile.pop .bx))
    (hpc : v.get .pc = Word.low (k + 2 + ops.length)) (hsp : v.get .sp = Word.low sp)
    (hlt : sp < 1024) :
    Gets code v (((v.set .sp (Word.low (sp + 1))).set .bx (v.mem sp)).goto
      (k + 2 + ops.length + 2)) := by
  have hpop := hcode.right
  rw [List.length_append, ← Nat.add_assoc] at hpop
  have hgets : Gets code (v.goto (k + 2 + ops.length)) _ :=
    gets_pop hsize hpop (by decide) hsp hlt
  rw [goto_self hpc] at hgets
  exact hgets

theorem gets_branch {jump : Opcode} (hcode : code.Holds k (Compile.compare jump))
    (hjump : jump.isJump = true) :
    Gets code (v.goto k) ((v.set .ax (v.get .bx - v.get .ax)).goto
      (if jump.taken (v.get .bx - v.get .ax) then k + 4 else k + 2)) := by
  have hlast := Code.lt_size_of_get? (hcode 4 _ rfl)
  have hbranch := steps_jumpIf (v := v.set .ax (v.get .bx - v.get .ax)) hsize (hcode 1 _ rfl) hjump
    (by omega)
  rw [get_set, if_pos rfl] at hbranch
  apply Gets.step (steps_registers hsize (· - ·) (hcode 0 _ rfl) (by decide) (by decide)
    (by decide) fun _ _ => rfl)
  exact Gets.step hbranch (.refl _)

end Sequences

end View

end CMinus
