import CMinus.Proofs.Evaluation
import CMinus.Proofs.Registers
import CMinus.Proofs.Segment

namespace CMinus

namespace Word

def IsCell (w : Word) : Prop :=
  0 ≤ w.toInt ∧ w.toInt < 1024

instance (w : Word) : Decidable w.IsCell :=
  inferInstanceAs (Decidable (_ ∧ _))

theorem IsCell.exists_low {w : Word} (h : w.IsCell) : ∃ a, a < 1024 ∧ w = low a := by
  obtain ⟨hpos, hlt⟩ := h
  refine ⟨w.toInt.toNat, by omega, ext ?_⟩
  rw [toInt_low (by omega)]
  omega

theorem add_of_fits {a b : Word} (h : Fits (a.toInt + b.toInt)) : a.add b = .ok (a + b) := by
  obtain ⟨hlow, hhigh⟩ := h
  rw [add, exact_eq_ok_iff, Int32.toInt_add, Int.bmod_eq_of_le (by omega) (by omega)]

/-- The `n` addresses below `sp` are those of data cells. -/
def Room (sp : Word) (n : Nat) : Prop :=
  ∀ j : Nat, j < n → 0 ≤ sp.toInt - (j + 1) ∧ sp.toInt - (j + 1) < 1024

instance (sp : Word) (n : Nat) : Decidable (Room sp n) :=
  inferInstanceAs (Decidable (∀ j, j < n → _))

theorem Room.mono {sp : Word} {n n' : Nat} (h : Room sp n) (hle : n' ≤ n) : Room sp n' := by
  intro j hj
  exact h j (Nat.lt_of_lt_of_le hj hle)

theorem Room.push {sp : Word} {n : Nat} (h : Room sp (n + 1)) :
    ∃ top, top < 1024 ∧ sp = low (top + 1) ∧ Room (low top) n := by
  obtain ⟨hpos, hlt⟩ := h 0 (Nat.succ_pos n)
  have htop : (low (sp.toInt - 1).toNat).toInt = sp.toInt - 1 := by
    rw [toInt_low (by omega)]
    omega
  refine ⟨(sp.toInt - 1).toNat, by omega, ext ?_, ?_⟩
  · rw [toInt_low (by omega)]
    omega
  · intro j hj
    have := h (j + 1) (by omega)
    rw [htop]
    omega

end Word

/-- The machine gets from the view `v` to a view in `Q`, unless an effective address has no word. -/
def Attains (code : Code) (Q : View → Prop) (v : View) : Prop :=
  ∀ m : Machine, m.view = v → Reaches code Q (· = .overflow .add) m

namespace Attains

variable {code : Code} {Q R : View → Prop} {v v' : View} {k a : Nat} {r s : Register} {d : Word}

theorem here (h : Q v) : Attains code Q v := by
  rintro m rfl
  exact .here h

theorem step (hstep : v.Steps code v') (h : Attains code Q v') : Attains code Q v := by
  intro m hm
  obtain ⟨m', hrun, hview⟩ := hstep m hm
  exact .next hrun (h m' hview)

theorem bind (h : Attains code Q v) (hQ : ∀ v', Q v' → Attains code R v') :
    Attains code R v := by
  intro m hm
  apply (h m hm).bind
  · intro m' hm'
    exact hQ m'.view hm' m' rfl
  · intro t ht
    exact ht

theorem of_meets {α : Type} {x : α} {Q : α → View → Prop} (h : Meets code (.ok x) Q v) :
    Attains code (Q x) v := by
  intro m hm
  apply (h m hm).bind
  · intro m' hm'
    exact .here hm'
  · intro t ht
    exact ht.elim

theorem gets (hgets : v.Gets code v') (h : Attains code Q v') : Attains code Q v := by
  intro m hm
  obtain ⟨n, m', hruns, hview⟩ := hgets m hm
  exact (h m' hview).of_runs hruns

section Instructions

variable (hsize : code.size < 2147483648)

include hsize

/-- The effective address of the next instruction may be taken to fit a word. -/
theorem addressed {opcode : Opcode}
    (hop : (code.get? k).map (·.toOperation) = some (.memory opcode r d s)) (hhalt : opcode ≠ .halt)
    (hs : s ≠ .pc) (h : Word.Fits (d.toInt + (v.get s).toInt) → Attains code Q (v.goto k)) :
    Attains code Q (v.goto k) := by
  by_cases hfits : Word.Fits (d.toInt + (v.get s).toInt)
  · exact h hfits
  · intro m hm
    obtain ⟨-, -, hstep⟩ := View.step_of_not_fits hsize hop hhalt hs hfits hm
    exact .trap hstep rfl

theorem lda (hop : (code.get? k).map (·.toOperation) = some (.memory .lda r d s)) (hr : r ≠ .pc)
    (hs : s ≠ .pc) (h : Attains code Q ((v.set r (d + v.get s)).goto (k + 1))) :
    Attains code Q (v.goto k) := by
  apply addressed hsize hop (by decide) hs
  intro hfits
  exact step (View.steps_lda hsize hop hr hs (Word.add_of_fits hfits)) h

theorem ldc (hop : (code.get? k).map (·.toOperation) = some (.memory .ldc r d s)) (hr : r ≠ .pc)
    (hs : s ≠ .pc) (h : Attains code Q ((v.set r d).goto (k + 1))) : Attains code Q (v.goto k) := by
  apply addressed hsize hop (by decide) hs
  intro hfits
  exact step (View.steps_ldc hsize hop hr hs hfits) h

theorem ld (hop : (code.get? k).map (·.toOperation) = some (.memory .ld r d s)) (hr : r ≠ .pc)
    (hs : s ≠ .pc) (ha : d + v.get s = Word.low a) (hlt : a < 1024)
    (h : Attains code Q ((v.set r (v.mem a)).goto (k + 1))) : Attains code Q (v.goto k) := by
  apply addressed hsize hop (by decide) hs
  intro hfits
  have hadd := Word.add_of_fits hfits
  rw [ha] at hadd
  exact step (View.steps_ld hsize hop hr hs hadd hlt) h

theorem st (hop : (code.get? k).map (·.toOperation) = some (.memory .st r d s)) (hr : r ≠ .pc)
    (hs : s ≠ .pc) (ha : d + v.get s = Word.low a) (hlt : a < 1024)
    (h : Attains code Q ((v.poke a (v.get r)).goto (k + 1))) : Attains code Q (v.goto k) := by
  apply addressed hsize hop (by decide) hs
  intro hfits
  have hadd := Word.add_of_fits hfits
  rw [ha] at hadd
  exact step (View.steps_st hsize hop hr hs hadd hlt) h

end Instructions

end Attains

/-- The memory `M` is that of the machine from the cell `floor` on. -/
def Memory.Agrees (M : Memory) (floor : Nat) (v : View) : Prop :=
  ∀ a, floor ≤ a → a < 1024 → v.mem a = M (Word.low a)

theorem Memory.Agrees.poke {M : Memory} {floor a : Nat} {v : View} (h : M.Agrees floor v)
    (ha : a < 1024) (w : Word) : (M.write (Word.low a) w).Agrees floor (v.poke a w) := by
  intro b hfloor hb
  rw [View.mem_poke, Memory.write]
  by_cases hab : b = a
  · rw [if_pos hab, if_pos (by rw [hab])]
  · have hne : Word.low b ≠ Word.low a := by
      intro heq
      have := congrArg Int32.toInt heq
      rw [Word.toInt_low (by omega), Word.toInt_low (by omega)] at this
      omega
    rw [if_neg hab, if_neg hne, h b hfloor hb]

/-- Below `floor` nothing is changed but the `depth` cells under the top of the stack, and no
register but `ax`, `bx` and the counter. -/
structure View.Spares (floor depth : Nat) (u v : View) : Prop where
  get : ∀ r, r ≠ .ax → r ≠ .bx → r ≠ .pc → v.get r = u.get r
  mem : ∀ a : Nat, a < floor →
    ¬ ((u.get .sp).toInt - depth ≤ a ∧ (a : Int) < (u.get .sp).toInt) → v.mem a = u.mem a
  input : v.input = u.input
  output : v.output = u.output

namespace View.Spares

variable {floor depth depth' k : Nat} {u v v' : View}

theorem refl (u : View) : u.Spares floor depth u :=
  ⟨fun _ _ _ _ => rfl, fun _ _ _ => rfl, rfl, rfl⟩

theorem sp (h : u.Spares floor depth v) : v.get .sp = u.get .sp :=
  h.get .sp (by decide) (by decide) (by decide)

theorem trans (h : u.Spares floor depth v) (h' : v.Spares floor depth v') :
    u.Spares floor depth v' where
  get r hax hbx hpc := (h'.get r hax hbx hpc).trans (h.get r hax hbx hpc)
  mem a ha hout := (h'.mem a ha (by rwa [h.sp])).trans (h.mem a ha hout)
  input := h'.input.trans h.input
  output := h'.output.trans h.output

theorem mono (h : u.Spares floor depth v) (hle : depth ≤ depth') : u.Spares floor depth' v where
  get := h.get
  mem a ha hout := h.mem a ha (by omega)
  input := h.input
  output := h.output

theorem set (h : u.Spares floor depth v) {r : Register} (hr : r = .ax ∨ r = .bx ∨ r = .pc)
    (w : Word) : u.Spares floor depth (v.set r w) where
  get s hax hbx hpc := by
    have hne : s ≠ r := by
      rintro rfl
      rcases hr with hr | hr | hr
      · exact hax hr
      · exact hbx hr
      · exact hpc hr
    rw [View.get_set, if_neg hne, h.get s hax hbx hpc]
  mem := h.mem
  input := h.input
  output := h.output

theorem goto (h : u.Spares floor depth v) (k : Nat) : u.Spares floor depth (v.goto k) :=
  h.set (.inr (.inr rfl)) _

theorem poke (h : u.Spares floor depth v) {a : Nat} (ha : floor ≤ a) (w : Word) :
    u.Spares floor depth (v.poke a w) where
  get := h.get
  mem b hb hout := by
    rw [View.mem_poke, if_neg (by omega), h.mem b hb hout]
  input := h.input
  output := h.output

end View.Spares

/-- The machine is at `k` with the result of an evaluation in `r`. -/
structure Evaluated (floor depth : Nat) (u : View) (k : Nat) (r : Register) (e : Evaluation)
    (v : View) : Prop where
  pc : v.get .pc = Word.low k
  result : v.get r = e.result
  agrees : e.memory.Agrees floor v
  spares : u.Spares floor depth v

/-- The machine is ready for code that pushes no more than `depth` cells at one time, in the memory
`M` from `floor` on. -/
structure Prepared (base : Register → Word) (M : Memory) (floor depth : Nat) (u : View) : Prop where
  gp : u.get .gp = base .gp
  bp : u.get .bp = base .bp
  agrees : M.Agrees floor u
  below : (u.get .sp).toInt ≤ floor
  room : Word.Room (u.get .sp) depth

namespace Prepared

variable {base : Register → Word} {M M' : Memory} {floor depth depth' : Nat} {u v : View}

theorem base_eq (h : Prepared base M floor depth u) {r : Register} (hr : r ∈ [.gp, .bp]) :
    u.get r = base r := by
  simp only [List.mem_cons, List.not_mem_nil, or_false] at hr
  rcases hr with rfl | rfl
  · exact h.gp
  · exact h.bp

theorem mono (h : Prepared base M floor depth u) (hle : depth' ≤ depth) :
    Prepared base M floor depth' u :=
  ⟨h.gp, h.bp, h.agrees, h.below, h.room.mono hle⟩

theorem keep (h : Prepared base M floor depth u) (hspares : u.Spares floor depth' v)
    (hagrees : M'.Agrees floor v) : Prepared base M' floor depth v where
  gp := (hspares.get .gp (by decide) (by decide) (by decide)).trans h.gp
  bp := (hspares.get .bp (by decide) (by decide) (by decide)).trans h.bp
  agrees := hagrees
  below := by
    rw [hspares.sp]
    exact h.below
  room := by
    rw [hspares.sp]
    exact h.room

end Prepared

theorem Code.Holds.inner {code : Code} {k : Nat} {before a b c : List Operation}
    (h : code.Holds k (before ++ a ++ b ++ c)) :
    code.Holds (k + before.length) (a ++ b ++ c) := by
  rw [List.append_assoc, List.append_assoc, ← List.append_assoc a] at h
  exact h.right

/-- Every cell is a data cell from `floor` on. -/
def Clear (floor : Nat) (cells : List Word) : Prop :=
  ∀ c ∈ cells, ∃ a, floor ≤ a ∧ a < 1024 ∧ c = Word.low a

theorem Clear.left {floor : Nat} {cells more : List Word} (h : Clear floor (cells ++ more)) :
    Clear floor cells := by
  intro c hc
  exact h c (List.mem_append_left _ hc)

theorem Clear.right {floor : Nat} {cells more : List Word} (h : Clear floor (cells ++ more)) :
    Clear floor more := by
  intro c hc
  exact h c (List.mem_append_right _ hc)

section Expressions

variable {code : Code} {env : Env} {base : Register → Word} {M : Memory} {e : Evaluation}
  {floor depth k : Nat} {u : View} {ops : List Operation} {Q : View → Prop}

theorem Attains.site (hsize : code.size < 2147483648) {name : String} {var : Variable}
    (hplace : Compile.place env name = .ok (var, ops)) (hcode : code.Holds k ops) {site : Site}
    (hsite : env.scopes.site base name M = .ok site) (hcells : Clear floor site.cells)
    (hu : Prepared base M floor depth u)
    (h : Attains code Q ((u.set .bx site.address).goto (k + 1))) :
    Attains code Q (u.goto k) := by
  obtain ⟨hlookup, location, hlocate, rfl⟩ := place_eq_ok hplace
  obtain ⟨hopcode, hbase⟩ := Compile.locate_eq_ok hlocate
  obtain ⟨opcode, displacement, reg⟩ := location
  have hreg := hu.base_eq hbase
  have hpc : reg ≠ .pc := by
    rintro rfl
    simp at hbase
  simp only [List.mem_cons, List.not_mem_nil, or_false] at hopcode
  rcases hopcode with rfl | rfl
  · simp only [Scopes.site, hlookup, hlocate] at hsite
    cases hsite
    apply lda hsize (hcode 0 _ rfl) (by decide) hpc
    rwa [hreg]
  · simp only [Scopes.site, hlookup, hlocate] at hsite
    cases hsite
    obtain ⟨a, hfloor, hlt, ha⟩ := hcells _ (List.mem_singleton_self _)
    rw [ha, ← hu.agrees a hfloor hlt] at h
    exact ld hsize (hcode 0 _ rfl) (by decide) hpc (by rw [hreg, ha]) hlt h

theorem Attains.protect (hsize : code.size < 2147483648) {reg : Register}
    (hcode : code.Holds k (Compile.push reg ++ ops ++ Compile.pop .bx))
    (hreg : reg = .ax ∨ reg = .bx) (hu : Prepared base M floor (depth + 1) u)
    (h : ∀ u', Prepared base M floor depth u' →
      Attains code (Evaluated floor depth u' (k + 2 + ops.length) .ax e) (u'.goto (k + 2))) :
    Attains code (fun v => Evaluated floor (depth + 1) u (k + 2 + ops.length + 2) .ax e v ∧
      v.get .bx = u.get reg) (u.goto k) := by
  obtain ⟨top, htop, hlow, hroom⟩ := hu.room.push
  have hbelow := hu.below
  rw [hlow, Word.toInt_low (by omega)] at hbelow
  have hpushed : Prepared base M floor depth ((u.set .sp (Word.low top)).poke top (u.get reg)) := by
    refine ⟨?_, ?_, ?_, ?_, ?_⟩
    · simpa using hu.gp
    · simpa using hu.bp
    · intro a hfloor ha
      rw [View.mem_poke, if_neg (by omega), View.mem_set, hu.agrees a hfloor ha]
    · rw [View.get_poke, View.get_set, if_pos rfl, Word.toInt_low (by omega)]
      omega
    · rwa [View.get_poke, View.get_set, if_pos rfl]
  apply gets (View.gets_save hsize hcode hreg hlow htop)
  apply (h _ hpushed).bind
  intro v hv
  have hvsp : v.get .sp = Word.low top := hv.spares.sp.trans (by simp)
  -- The value that was pushed lies above the cells that the expression pushed itself.
  have hsaved : v.mem top = u.get reg := by
    rw [hv.spares.mem top (by omega), View.mem_poke, if_pos rfl]
    rw [View.get_poke, View.get_set, if_pos rfl, Word.toInt_low (by omega)]
    omega
  apply gets (View.gets_restore hsize hcode hv.pc hvsp htop)
  apply here
  refine ⟨⟨View.pc_goto _ rfl, ?_, hv.agrees, ?_⟩, ?_⟩
  · simpa using hv.result
  · refine View.Spares.goto (.set ⟨?_, ?_, ?_, ?_⟩ (.inr (.inl rfl)) _) _
    · intro r hax hbx hrpc
      rw [View.get_set]
      split
      · next hr => rw [hr, hlow]
      · next hr =>
        rw [hv.spares.get r hax hbx hrpc, View.get_poke, View.get_set, if_neg hr]
    · intro a ha hout
      rw [hlow, Word.toInt_low (by omega)] at hout
      have hne : a ≠ top := by omega
      rw [View.mem_set, hv.spares.mem a ha, View.mem_poke, if_neg hne, View.mem_set]
      rw [View.get_poke, View.get_set, if_pos rfl, Word.toInt_low (by omega)]
      omega
    · exact hv.spares.input
    · exact hv.spares.output
  · simpa using hsaved

theorem Scopes.ty_of_site {name : String} {var : Variable} {site : Site}
    (hplace : Compile.place env name = .ok (var, ops))
    (hsite : env.scopes.site base name M = .ok site) : site.ty = var.ty := by
  obtain ⟨hlookup, location, hlocate, -⟩ := place_eq_ok hplace
  simp only [Scopes.site, hlookup, hlocate] at hsite
  split at hsite <;> cases hsite <;> rfl

/-- Wherever the code of `node` stands, it leaves what evaluation gives. -/
def Computes (code : Code) (env : Env) (base : Register → Word) (node : Node) : Prop :=
  ∀ (access : Access) (ops : List Operation) (M : Memory) (e : Evaluation) (floor k : Nat) (u : View),
    Compile.expression env access node = .ok ops → code.Holds k ops →
      node.evaluate env.scopes base access M = .ok e → Clear floor e.cells →
      Prepared base M floor node.pushes u →
      Attains code (Evaluated floor node.pushes u (k + ops.length) (node.resultIn access) e)
        (u.goto k)

theorem computes_number (hsize : code.size < 2147483648) (w : Word) :
    Computes code env base (.number w) := by
  intro access ops M e floor k u hops hcode heval _ hu
  cases hops
  cases heval
  have hax : (Node.number w).resultIn access = .ax := by
    cases access <;> rfl
  rw [hax]
  apply Attains.ldc hsize (hcode 0 _ rfl) (by decide) (by decide)
  apply Attains.here
  exact ⟨View.pc_goto _ rfl, by simp, hu.agrees, ((View.Spares.refl u).set (.inl rfl) _).goto _⟩

theorem computes_var (hsize : code.size < 2147483648) (name : String) :
    Computes code env base (.var name) := by
  intro access ops M e floor k u hops hcode heval hcells hu
  simp only [Compile.expression, bind_eq_ok, pure_eq_ok] at hops
  obtain ⟨⟨var, target⟩, hplace, rfl⟩ := hops
  simp only [Node.evaluate, bind_eq_ok] at heval
  obtain ⟨site, hsite, heval⟩ := heval
  have hty := Scopes.ty_of_site hplace hsite
  have hlength := Compile.length_place hplace
  have hload := hcode.right
  rw [hlength] at hload
  have hspares : u.Spares floor 0 (u.set .bx site.address) :=
    (View.Spares.refl u).set (.inr (.inl rfl)) _
  cases access with
  | address =>
    cases heval
    apply Attains.site hsize hplace hcode.left hsite hcells hu
    apply Attains.here
    exact ⟨View.pc_goto _ (by simp [hlength, Compile.loadVariable]),
      by simp [Node.resultIn, Node.isPlace], hu.agrees, hspares.goto _⟩
  | value =>
    cases hkind : var.ty with
    | array =>
      simp only [hty, hkind] at heval
      cases heval
      rw [Compile.loadVariable, hkind] at hload
      apply Attains.site hsize hplace hcode.left hsite hcells hu
      apply Attains.lda hsize (hload 0 _ rfl) (by decide) (by decide)
      apply Attains.here
      exact ⟨View.pc_goto _ (by simp [hlength, Compile.loadVariable, hkind]),
        by simp [Node.resultIn], hu.agrees, (hspares.set (.inl rfl) _).goto _⟩
    | int =>
      simp only [hty, hkind] at heval
      cases heval
      rw [Compile.loadVariable, hkind] at hload
      obtain ⟨a, hfloor, hlt, ha⟩ := hcells.right _ (List.mem_singleton_self _)
      apply Attains.site hsize hplace hcode.left hsite hcells.left hu
      apply Attains.ld hsize (hload 0 _ rfl) (by decide) (by decide) (a := a) (by simp [ha]) hlt
      apply Attains.here
      exact ⟨View.pc_goto _ (by simp [hlength, Compile.loadVariable, hkind]),
        by simp [Node.resultIn, ha, hu.agrees a hfloor hlt], hu.agrees,
        (hspares.set (.inl rfl) _).goto _⟩

theorem computes_element (hsize : code.size < 2147483648) (name : String) {index : Node}
    (ih : Computes code env base index) : Computes code env base (.element name index) := by
  intro access ops M e floor k u hops hcode heval hcells hu
  simp only [Compile.expression, bind_eq_ok, pure_eq_ok] at hops
  obtain ⟨⟨var, target⟩, hplace, idx, hindex, rfl⟩ := hops
  simp only [Node.evaluate, bind_eq_ok] at heval
  obtain ⟨site, hsite, i, hi, heval⟩ := heval
  have hlength := Compile.length_place hplace
  have hclear : Clear floor (site.cells ++ i.cells) := by
    cases access with
    | value =>
      cases heval
      exact hcells.left
    | address =>
      cases heval
      exact hcells
  have hinner : code.Holds (k + 1) (Compile.push .bx ++ idx ++ Compile.pop .bx) :=
    hcode.left.left.inner.cast (by rw [hlength])
  have hsub : code.Holds (k + 1 + 2 + idx.length + 2) [.registers .sub .bx .bx .ax] :=
    hcode.left.right.cast (by simp [hlength, Compile.push, Compile.pop]; omega)
  have hload : code.Holds (k + 1 + 2 + idx.length + 2 + 1) (Compile.loadElement access) :=
    hcode.right.cast (by simp [hlength, Compile.push, Compile.pop]; omega)
  apply Attains.site hsize hplace hcode.left.left.left.left.left hsite hclear.left hu
  have hspares : u.Spares floor (index.pushes + 1) (u.set .bx site.address) :=
    (View.Spares.refl u).set (.inr (.inl rfl)) _
  apply (Attains.protect hsize hinner (.inr rfl) (hu.keep hspares hu.agrees)
    fun u' hu' => ih .value idx M i floor _ u' hindex hinner.left.right hi hclear.right hu').bind
  rintro v ⟨hv, hbx⟩
  rw [← View.goto_self hv.pc]
  apply Attains.step (View.steps_registers hsize (· - ·) (hsub 0 _ rfl) (by decide) (by decide)
    (by decide) fun _ _ => rfl)
  have haddress : v.get .bx - v.get .ax = site.address - i.result := by
    rw [hbx, hv.result, View.get_set, if_pos rfl]
  rw [haddress]
  have hspares := (hspares.trans hv.spares).set (.inr (.inl rfl)) (site.address - i.result)
  cases access with
  | address =>
    cases heval
    apply Attains.here
    exact ⟨View.pc_goto _ (by simp [hlength, Compile.push, Compile.pop, Compile.loadElement]; omega),
      by simp [Node.resultIn, Node.isPlace], hv.agrees, hspares.goto _⟩
  | value =>
    cases heval
    obtain ⟨a, hfloor, hlt, ha⟩ := hcells.right _ (List.mem_singleton_self _)
    apply Attains.ld hsize (hload 0 _ rfl) (by decide) (by decide) (a := a) (by simp [ha]) hlt
    apply Attains.here
    exact ⟨View.pc_goto _ (by simp [hlength, Compile.push, Compile.pop, Compile.loadElement]; omega),
      by simp [Node.resultIn, ha, hv.agrees a hfloor hlt], hv.agrees,
      (hspares.set (.inl rfl) _).goto _⟩

theorem computes_assign (hsize : code.size < 2147483648) {target value : Node}
    (iht : Computes code env base target) (ihv : Computes code env base value) :
    Computes code env base (.assign target value) := by
  intro access ops M e floor k u hops hcode heval hcells hu
  rw [Compile.expression] at hops
  rw [Node.evaluate] at heval
  split at hops
  · next hplace =>
    rw [if_pos hplace] at heval
    simp only [bind_eq_ok, pure_eq_ok] at hops heval
    obtain ⟨tops, htarget, vops, hvalue, rfl⟩ := hops
    obtain ⟨t, ht, w, hw, heval⟩ := heval
    cases heval
    have hax : (Node.assign target value).resultIn access = .ax := by
      cases access <;> rfl
    have hbx : target.resultIn .address = .bx := if_pos hplace
    rw [hax]
    have hinner := hcode.left.inner
    have hstore : code.Holds (k + tops.length + 2 + vops.length + 2) [.memory .st .ax 0 .bx] :=
      hcode.right.cast (by simp [Compile.push, Compile.pop]; omega)
    have hdepth : target.pushes ≤ (Node.assign target value).pushes := Nat.le_max_left ..
    have hdepth' : value.pushes + 1 ≤ (Node.assign target value).pushes := Nat.le_max_right ..
    apply (iht .address tops M t floor k u htarget hcode.left.left.left.left ht hcells.left.left
      (hu.mono hdepth)).bind
    intro v hv
    rw [hbx] at hv
    rw [← View.goto_self hv.pc]
    apply (Attains.protect hsize hinner (.inr rfl) ((hu.keep hv.spares hv.agrees).mono hdepth')
      fun u' hu' => ihv .value vops t.memory w floor _ u' hvalue hinner.left.right hw
        hcells.left.right hu').bind
    rintro v' ⟨hv', hbx'⟩
    rw [← View.goto_self hv'.pc]
    obtain ⟨a, hfloor, hlt, ha⟩ := hcells.right _ (List.mem_singleton_self _)
    have hat : v'.get .bx = Word.low a := by
      rw [hbx', hv.result, ha]
    apply Attains.st hsize (hstore 0 _ rfl) (by decide) (by decide) (a := a) (by simp [hat]) hlt
    apply Attains.here
    have hresult : v'.get .ax = w.result := hv'.result
    refine ⟨View.pc_goto _ (by simp [Compile.push, Compile.pop]; omega), by simp [hresult], ?_, ?_⟩
    · rw [hresult, ha]
      exact hv'.agrees.poke hlt _
    · exact (((hv.spares.mono hdepth).trans (hv'.spares.mono hdepth')).poke hfloor _).goto _
  · cases hops

theorem computes_binary (hsize : code.size < 2147483648) (op : BinaryOp) {left right : Node}
    (ihl : Computes code env base left) (ihr : Computes code env base right) :
    Computes code env base (.binary op left right) := by
  intro access ops M e floor k u hops hcode heval hcells hu
  simp only [Compile.expression, bind_eq_ok, pure_eq_ok] at hops
  simp only [Node.evaluate, bind_eq_ok] at heval
  obtain ⟨lops, hleft, rops, hright, rfl⟩ := hops
  obtain ⟨l, hl, r, hr, w, hw, heval⟩ := heval
  cases heval
  have hax : (Node.binary op left right).resultIn access = .ax := by
    cases access <;> rfl
  rw [hax]
  have hinner := hcode.left.inner
  have happly : code.Holds (k + lops.length + 2 + rops.length + 2) (Compile.apply op) :=
    hcode.right.cast (by simp [Compile.push, Compile.pop]; omega)
  have hdepth : left.pushes ≤ (Node.binary op left right).pushes := Nat.le_max_left ..
  have hdepth' : right.pushes + 1 ≤ (Node.binary op left right).pushes := Nat.le_max_right ..
  apply (ihl .value lops M l floor k u hleft hcode.left.left.left.left hl hcells.left
    (hu.mono hdepth)).bind
  intro v hv
  rw [← View.goto_self hv.pc]
  apply (Attains.protect hsize hinner (.inl rfl) ((hu.keep hv.spares hv.agrees).mono hdepth')
    fun u' hu' => ihr .value rops l.memory r floor _ u' hright hinner.left.right hr hcells.right
      hu').bind
  rintro v' ⟨hv', hbx⟩
  rw [← View.goto_self hv'.pc]
  have hvalue : op.value (v'.get .bx) (v'.get .ax) = .ok w := by
    rw [hbx, hv'.result, ← hw]
    exact congrArg (op.value · r.result) hv.result
  have hmeets := Meets.apply (v := v') hsize happly
  rw [hvalue] at hmeets
  apply (Attains.of_meets hmeets).bind
  rintro _ rfl
  apply Attains.here
  exact ⟨View.pc_goto _ (by simp [Compile.push, Compile.pop]; omega), by simp, hv'.agrees,
    (((hv.spares.mono hdepth).trans (hv'.spares.mono hdepth')).set (.inl rfl) _).goto _⟩

theorem computes (hsize : code.size < 2147483648) : (node : Node) → Computes code env base node
  | .function .. | .compound .. | .branch .. | .loop .. | .ret .. | .call .. => by
    intro access ops M e floor k u _ _ heval
    cases heval
  | .number w => computes_number hsize w
  | .var name => computes_var hsize name
  | .element name index => computes_element hsize name (computes hsize index)
  | .assign target value => computes_assign hsize (computes hsize target) (computes hsize value)
  | .binary op left right =>
    computes_binary hsize op (computes hsize left) (computes hsize right)

end Expressions

namespace Machine

variable {code : Code} {first stop : Nat} {m m' : Machine}

/-- The data cells by address. There is nothing at other addresses. -/
def memory (m : Machine) : Memory :=
  fun a => (m.load a).toOption.getD 0

theorem memory_low {a : Nat} (h : a < 1024) : m.memory (Word.low a) = m.view.mem a := by
  rw [memory, load_low m h]
  rfl

/-- The state `m'` that the code of an expression leads to from `m`. It holds what evaluation gives;
all else is as before, but for the registers that code works with and for the cells that were
pushed. -/
structure Delivers (m m' : Machine) (stop : Nat) (r : Register) (depth : Nat) (e : Evaluation) :
    Prop where
  pc : m'.get .pc = Word.low stop
  result : m'.get r = e.result
  memory : ∀ a : Word, a.IsCell →
    ¬ ((m.get .sp).toInt - depth ≤ a.toInt ∧ a.toInt < (m.get .sp).toInt) →
    m'.memory a = e.memory a
  registers : ∀ r, r ≠ .ax → r ≠ .bx → r ≠ .pc → m'.get r = m.get r
  unnamed : m'.unnamed = m.unnamed
  input : m'.input = m.input
  output : m'.output = m.output

/-- Evaluation changes no cell below the floor, so what the machine has spared there is what
evaluation gives. -/
theorem memory_of_evaluated {node : Node} {scopes : Scopes} {base : Register → Word}
    {access : Access} {e : Evaluation} {floor depth k a : Nat} {r : Register}
    (h : Evaluated floor depth m.view k r e m'.view)
    (heval : node.evaluate scopes base access m.memory = .ok e) (hclear : Clear floor e.cells)
    (ha : a < 1024)
    (hout : ¬ ((m.get .sp).toInt - depth ≤ a ∧ (a : Int) < (m.get .sp).toInt)) :
    m'.memory (Word.low a) = e.memory (Word.low a) := by
  rw [memory_low ha]
  by_cases hfloor : floor ≤ a
  · exact h.agrees a hfloor ha
  · rw [h.spares.mem a (by omega) hout, ← memory_low ha]
    symm
    apply node.memory_evaluate heval
    intro hmem
    obtain ⟨b, hb, hblt, heq⟩ := hclear _ hmem
    have := congrArg Int32.toInt heq
    rw [Word.toInt_low (by omega), Word.toInt_low (by omega)] at this
    omega

/-- The code of an expression without calls computes what evaluation over memory cells gives, from
any state and at any address. Evaluation itself fails only for want of a quotient. -/
theorem delivers_expression {env : Env} {access : Access} {node : Node} {s s' : Stream} {k : Nat}
    (h : Generate.expression env access node s = .ok s') (hs : s.AtEnd)
    (hfree : node.callFree = true) (hcode : code.Copies k s s')
    (hstop : stop = k + (s'.cursor - s.cursor)) (hfits : stop < 2147483648)
    (hpc : m.get .pc = Word.low k) :
    Fails Stop.IsQuotient (node.evaluate env.scopes m.get access m.memory) ∧
      ∀ e, node.evaluate env.scopes m.get access m.memory = .ok e →
        (∀ c ∈ e.cells, c.IsCell ∧ (m.get .sp).toInt ≤ c.toInt) →
        Word.Room (m.get .sp) node.pushes →
        m.AddressesIn code k stop →
        ∃ m', RunsIn code k stop m m' ∧
          m.Delivers m' stop (node.resultIn access) node.pushes e := by
  obtain ⟨ops, hops, hcursor, hholds⟩ := Generate.holds_of_expression h hs hcode
  have hlength : stop = k + ops.length := by omega
  refine ⟨node.fails_evaluate hops hfree m.memory, ?_⟩
  intro e heval hcells hroom haddresses
  -- The cells from the top of the stack on, or all of them where the top is below the first.
  obtain ⟨floor, hfloor⟩ : ∃ floor : Nat, floor = (m.get .sp).toInt.toNat := ⟨_, rfl⟩
  have hclear : Clear floor e.cells := by
    intro c hc
    obtain ⟨hcell, hle⟩ := hcells c hc
    obtain ⟨a, hlt, rfl⟩ := hcell.exists_low
    rw [Word.toInt_low (by omega)] at hle
    exact ⟨a, by omega, hlt, rfl⟩
  have hprepared : Prepared m.get m.memory floor node.pushes m.view := by
    refine ⟨rfl, rfl, ?_, ?_, hroom⟩
    · intro a _ ha
      exact (memory_low ha).symm
    · show (m.get .sp).toInt ≤ floor
      omega
  have hsize : (code.only k stop).size < 2147483648 := by
    rwa [Code.size_only]
  have hholds := hholds.only (Nat.le_refl k) (Nat.le_of_eq hlength.symm)
  have hattains := computes hsize node access ops m.memory e floor k m.view hops hholds heval hclear
    hprepared
  rw [View.goto_self hpc] at hattains
  obtain ⟨m', hruns, hm'⟩ := (hattains m rfl).runsIn hfits haddresses
  refine ⟨m', hruns, ?_⟩
  obtain ⟨n, hsteps⟩ := hruns.exists_runs
  refine ⟨hlength ▸ hm'.pc, hm'.result, ?_, hm'.spares.get, ?_, hm'.spares.input, ?_⟩
  · intro a hcell hout
    obtain ⟨a, hlt, rfl⟩ := hcell.exists_low
    rw [Word.toInt_low (by omega)] at hout
    exact memory_of_evaluated hm' heval hclear hlt hout
  · exact hsteps.invariant (P := fun m' => m'.unnamed = m.unnamed) rfl
      fun _ _ hm hstep => (unnamed_step hstep).trans hm
  · exact Array.toList_inj.1 hm'.spares.output

end Machine

/-- Assigns to the element at `i` of the array `a`. -/
def Node.overwriting : Node :=
  .assign (.element "a" (.var "i")) (.binary .add (.var "x") (.number 4))

/-- The block of `i`, `x` and an array `a` of three elements. -/
def Env.overwriting : Env where
  functions := .empty
  entries := .empty
  scopes := [⟨.block, 5, ((NameMap.empty.insert "i" ⟨.block, .int, 0⟩).insert "x"
    ⟨.block, .int, 1⟩).insert "a" ⟨.block, .array, 3⟩⟩]

/-- A frame with the base 100, where `i` is -1 and `x` is 5, and control at the address 7. -/
def Machine.overwriting : Machine :=
  (({ start [] with data := ((Vector.replicate 1024 0).set 99 (-1)).set 98 5 }.set .bp 100).set .sp
    95).set .pc 7

/-- The element before the first one of `a` is `x`, so `x` is overwritten, as evaluation says. -/
theorem Machine.overwriting_delivers :
    ∃ s' e m', Generate.expression .overwriting .value .overwriting
        ⟨Array.replicate 7 none, #[], .empty, 7, false⟩ = .ok s' ∧
      Node.overwriting.evaluate Env.overwriting.scopes Machine.overwriting.get .value
        Machine.overwriting.memory = .ok e ∧
      RunsIn s'.finish 7 28 .overwriting m' ∧ Machine.overwriting.Delivers m' 28 .ax 2 e ∧
      m'.get .ax = 9 ∧ m'.memory 98 = 9 := by
  have hcode : (Generate.expression .overwriting .value .overwriting
      ⟨Array.replicate 7 none, #[], .empty, 7, false⟩).toOption.any (fun s =>
        s.cursor = 28 && checkAddresses s.finish 7 28 22 .overwriting) = true := by
    decide +kernel
  have heval : (Node.overwriting.evaluate Env.overwriting.scopes Machine.overwriting.get .value
      Machine.overwriting.memory).toOption.any (fun e => e.result = 9 && e.memory 98 = 9 &&
        e.cells.all fun c => 0 ≤ c.toInt && c.toInt < 1024 && 95 ≤ c.toInt) = true := by
    decide +kernel
  obtain ⟨s', hs', hcode⟩ := (Option.any_eq_true _ _).1 hcode
  obtain ⟨e, he, heval⟩ := (Option.any_eq_true _ _).1 heval
  simp only [Bool.and_eq_true, decide_eq_true_eq, List.all_eq_true] at hcode heval
  obtain ⟨hcursor, haddresses⟩ := hcode
  obtain ⟨⟨hresult, hmemory⟩, hcells⟩ := heval
  have hs' := eq_ok_of_toOption hs'
  have he := eq_ok_of_toOption he
  have hcopies : s'.finish.Copies 7 ⟨Array.replicate 7 none, #[], .empty, 7, false⟩ s' :=
    fun i _ => rfl
  have hstop : 28 = 7 + (s'.cursor - 7) := by
    rw [hcursor]
  obtain ⟨-, hdelivers⟩ := delivers_expression (m := .overwriting) hs' rfl rfl hcopies hstop
    (by decide) rfl
  obtain ⟨m', hruns, hm'⟩ := hdelivers e he
    (fun c hc => ⟨(hcells c hc).1, (hcells c hc).2⟩) (by decide) (addressesIn_of_check haddresses)
  exact ⟨s', e, m', hs', he, hruns, hm', hm'.result.trans hresult,
    (hm'.memory 98 (by decide) (by decide)).trans hmemory⟩

end CMinus
