import CMinus.Proofs.Execution
import CMinus.Proofs.Storage

namespace CMinus

/-- The memory holds the cells of the store at the addresses `addrs`. -/
structure Store.Agrees (σ : Store) (addrs : List Nat) (v : View) : Prop where
  length : σ.cells.length = addrs.length
  value : ∀ (i a : Nat) (w : Word), addrs[i]? = some a → σ.cells[i]? = some (some w) → v.mem a = w
  input : v.input = σ.input
  output : v.output = σ.output

namespace Store.Agrees

variable {σ : Store} {addrs extra : List Nat} {u v : View}

theorem set (h : σ.Agrees addrs v) (r : Register) (w : Word) : σ.Agrees addrs (v.set r w) :=
  ⟨h.length, h.value, h.input, h.output⟩

theorem goto (h : σ.Agrees addrs v) (k : Nat) : σ.Agrees addrs (v.goto k) :=
  h.set .pc _

theorem poke (h : σ.Agrees addrs v) {a : Nat} (ha : a ∉ addrs) (w : Word) :
    σ.Agrees addrs (v.poke a w) := by
  refine ⟨h.length, fun i b x hb hx => ?_, h.input, h.output⟩
  have hne : b ≠ a := fun heq => ha (heq ▸ List.mem_of_getElem? hb)
  rw [View.mem_poke, if_neg hne]
  exact h.value i b x hb hx

theorem allocate (h : σ.Agrees addrs u) (hmem : ∀ a ∈ addrs, v.mem a = u.mem a)
    (hinput : v.input = u.input) (houtput : v.output = u.output) {cells : List (Option Word)}
    (hlength : cells.length = extra.length)
    (hvalue : ∀ (j a : Nat) (w : Word), extra[j]? = some a → cells[j]? = some (some w) →
      v.mem a = w) : (σ.allocate cells).Agrees (addrs ++ extra) v where
  length := by rw [Store.allocate, List.length_append, List.length_append, h.length, hlength]
  value i a w ha hw := by
    simp only [Store.allocate, List.getElem?_append, h.length] at ha hw
    split at ha
    · next hi =>
      rw [if_pos hi] at hw
      rw [hmem a (List.mem_of_getElem? ha), h.value i a w ha hw]
    · next hi =>
      rw [if_neg hi] at hw
      exact hvalue _ a w ha hw
  input := hinput.trans h.input
  output := houtput.trans h.output

theorem release (h : σ.Agrees (addrs ++ extra) v) {n : Nat} (hn : n = addrs.length) :
    (σ.release n).Agrees addrs v where
  length := by
    rw [Store.release, List.length_take, h.length, List.length_append]
    omega
  value i a w ha hw := by
    have hi := (List.getElem?_eq_some_iff.1 ha).1
    rw [Store.release, List.getElem?_take_of_lt (by omega)] at hw
    exact h.value i a w (by rw [List.getElem?_append_left hi, ha]) hw
  input := h.input
  output := h.output

end Store.Agrees

/-- The cells of an array lie downward from the address `w`. -/
def ArrayAt (addrs : List Nat) (first length : Nat) (w : Word) : Prop :=
  ∀ i, i < length → ∃ a, addrs[first + i]? = some a ∧ w.toInt = a + i

theorem ArrayAt.append {addrs : List Nat} {first length : Nat} {w : Word}
    (h : ArrayAt addrs first length w) (extra : List Nat) :
    ArrayAt (addrs ++ extra) first length w := by
  intro i hi
  obtain ⟨a, ha, hw⟩ := h i hi
  exact ⟨a, by rw [List.getElem?_append_left (List.getElem?_eq_some_iff.1 ha).1, ha], hw⟩

/-- The address of a variable, relative to the register `base`, is that of the cells that it is
bound to. -/
inductive Placed (addrs : List Nat) (base : Register) (v : View) (var : Variable) : Binding → Prop
  | scalar {cell a : Nat} {d : Word} : var.ty = .int → var.locate = .ok ⟨.lda, d, base⟩ →
      d.add (v.get base) = .ok (Word.low a) → addrs[cell]? = some a →
      Placed addrs base v var (.scalar cell)
  | array {first length : Nat} {d w : Word} : var.ty = .array →
      var.locate = .ok ⟨.lda, d, base⟩ → d.add (v.get base) = .ok w →
      ArrayAt addrs first length w → Placed addrs base v var (.array first length)

namespace Placed

variable {addrs : List Nat} {base : Register} {u v : View} {var : Variable} {b : Binding}

theorem keep (h : Placed addrs base u var b) (hbase : v.get base = u.get base) :
    Placed addrs base v var b := by
  cases h with
  | scalar hty hlocate hadd hcell => exact .scalar hty hlocate (hbase ▸ hadd) hcell
  | array hty hlocate hadd hcells => exact .array hty hlocate (hbase ▸ hadd) hcells

theorem append (h : Placed addrs base v var b) (extra : List Nat) :
    Placed (addrs ++ extra) base v var b := by
  cases h with
  | scalar hty hlocate hadd hcell =>
    refine .scalar hty hlocate hadd ?_
    rw [List.getElem?_append_left (List.getElem?_eq_some_iff.1 hcell).1, hcell]
  | array hty hlocate hadd hcells => exact .array hty hlocate hadd (hcells.append extra)

end Placed

/-- The addresses of `n` cells, downward from below `top`. -/
def cellsBelow (top n : Nat) : List Nat :=
  (List.range n).map fun j => top - 1 - j

@[simp]
theorem length_cellsBelow (top n : Nat) : (cellsBelow top n).length = n := by
  simp [cellsBelow]

theorem getElem?_cellsBelow {top n j : Nat} (h : j < n) :
    (cellsBelow top n)[j]? = some (top - 1 - j) := by
  simp [cellsBelow, h]

theorem mem_cellsBelow {top n a : Nat} (hn : n ≤ top) (h : a ∈ cellsBelow top n) :
    top ≤ a + n ∧ a < top := by
  obtain ⟨j, hj, rfl⟩ := List.mem_map.1 h
  have := List.mem_range.1 hj
  omega

theorem nodup_cellsBelow {top n : Nat} (hn : n ≤ top) : (cellsBelow top n).Nodup := by
  refine List.pairwise_map.2 (List.pairwise_lt_range.imp_of_mem fun {i j} hi hj hlt => ?_)
  have := List.mem_range.1 hi
  have := List.mem_range.1 hj
  omega

/-- The register that the addresses of a scope are relative to. -/
inductive Scope.Based : Scope → Register → Prop
  | global : Based .global .gp
  | block : Based .block .bp

theorem Scope.Based.locate_int {scope : Scope} {base : Register} (h : scope.Based base)
    {offset : Size} (hoffset : offset.toNat < 1024) :
    ∃ d, (⟨scope, .int, offset⟩ : Variable).locate = .ok ⟨.lda, d, base⟩ ∧
      d.toInt = -1 - offset.toNat := by
  have hlow := Size.toInt_low (by omega : offset.toNat < 2147483648)
  have hone : (-1 : Word).toInt = -1 := rfl
  refine ⟨-1 - offset.low, by cases h <;> rfl, ?_⟩
  rw [Word.toInt_sub, hlow, hone]
  rw [hlow, hone]
  constructor <;> omega

theorem Scope.Based.locate_array {scope : Scope} {base : Register} (h : scope.Based base)
    {offset : Size} (hoffset : offset.toNat ≤ 1024) :
    ∃ d, (⟨scope, .array, offset⟩ : Variable).locate = .ok ⟨.lda, d, base⟩ ∧
      d.toInt = -offset.toNat := by
  have hlow := Size.toInt_low (by omega : offset.toNat < 2147483648)
  obtain ⟨d, hd, hint⟩ := Word.neg_isOk (by omega : -2147483648 < offset.low.toInt)
  refine ⟨d, ?_, by rw [hint, hlow]⟩
  cases h <;> simp only [Variable.locate, hd] <;> rfl

/-- The cells of a list of variables lie downward from a base register. -/
theorem Table.Slot.placed {t : Table} {name : String} {start n extent top : Nat} {b : Binding}
    {base : Register} {addrs : List Nat} (h : t.Slot name start n extent b)
    (hbase : t.scope.Based base) (hn : n = addrs.length) (hle : start + extent ≤ top)
    (htop : top < 1024) :
    ∃ var, t.get? name = some var ∧ ∀ v : View, v.get base = Word.low top →
      Placed (addrs ++ cellsBelow (top - start) extent) base v var b := by
  subst hn
  cases h with
  | @scalar j offset hj hoffset hget =>
    obtain ⟨d, hlocate, hd⟩ := hbase.locate_int (by omega : offset.toNat < 1024)
    refine ⟨_, hget, fun v hv => .scalar rfl hlocate ?_ ?_ (a := top - start - 1 - j)⟩
    · rw [hv]
      exact Word.add_low _ hd (by omega) (by omega) (by omega)
    · rw [List.getElem?_append_right (by omega), Nat.add_sub_cancel_left, getElem?_cellsBelow hj]
  | @array j length offset hj hoffset hget =>
    obtain ⟨d, hlocate, hd⟩ := hbase.locate_array (by omega : offset.toNat ≤ 1024)
    have htop' : (Word.low top).toInt = top := Word.toInt_low (by omega)
    obtain ⟨w, hw, hint⟩ := Word.add_isOk (a := d) (b := Word.low top)
      (by rw [hd, htop']; constructor <;> omega)
    refine ⟨_, hget, fun v hv => .array rfl hlocate (hv ▸ hw) fun i hi => ?_⟩
    refine ⟨top - start - 1 - (j + i), ?_, by omega⟩
    rw [Nat.add_assoc, List.getElem?_append_right (by omega), Nat.add_sub_cancel_left,
      getElem?_cellsBelow (by omega)]

/-- A variable is found where its table says. The slot of an array parameter is not a cell of the
store; it lies at `floor` or above. -/
inductive Located (addrs : List Nat) (floor : Nat) (v : View) (var : Variable) (b : Binding) : Prop
  | placed {base : Register} : base = .gp ∨ base = .bp → Placed addrs base v var b →
      Located addrs floor v var b
  | param {first length slot : Nat} {d : Word} : b = .array first length → var.ty = .array →
      var.locate = .ok ⟨.ld, d, .bp⟩ → d.add (v.get .bp) = .ok (Word.low slot) → floor ≤ slot →
      slot < 1024 → slot ∉ addrs → ArrayAt addrs first length (v.mem slot) →
      Located addrs floor v var b

theorem Located.keep {addrs : List Nat} {floor : Nat} {u v : View} {var : Variable} {b : Binding}
    (h : Located addrs floor u var b) (hgp : v.get .gp = u.get .gp) (hbp : v.get .bp = u.get .bp)
    (hmem : ∀ a, floor ≤ a → a ∉ addrs → v.mem a = u.mem a) : Located addrs floor v var b := by
  cases h with
  | @placed base hbase hplaced =>
    refine .placed hbase (hplaced.keep ?_)
    rcases hbase with rfl | rfl
    · exact hgp
    · exact hbp
  | param hb hty hlocate hadd hfloor hlt hslot hcells =>
    exact .param hb hty hlocate (hbp ▸ hadd) hfloor hlt hslot (hmem _ hfloor hslot ▸ hcells)

theorem Located.append {addrs extra : List Nat} {floor : Nat} {v : View} {var : Variable}
    {b : Binding} (h : Located addrs floor v var b) (hextra : ∀ a ∈ extra, a < floor) :
    Located (addrs ++ extra) floor v var b := by
  cases h with
  | placed hbase hplaced => exact .placed hbase (hplaced.append extra)
  | param hb hty hlocate hadd hfloor hlt hslot hcells =>
    refine .param hb hty hlocate hadd hfloor hlt ?_ (hcells.append extra)
    intro hmem
    rcases List.mem_append.1 hmem with hmem | hmem
    · exact hslot hmem
    · have := hextra _ hmem
      omega

/-- Nothing is changed from `floor` on but cells of the store, and the registers of the frame are
as before. -/
structure View.Keeps (addrs : List Nat) (floor : Nat) (u v : View) : Prop where
  sp : v.get .sp = u.get .sp
  bp : v.get .bp = u.get .bp
  gp : v.get .gp = u.get .gp
  zero : v.get .zero = u.get .zero
  mem : ∀ a, floor ≤ a → a ∉ addrs → v.mem a = u.mem a

namespace View.Keeps

variable {addrs : List Nat} {floor : Nat} {u v : View}

theorem refl (v : View) : v.Keeps addrs floor v :=
  ⟨rfl, rfl, rfl, rfl, fun _ _ _ => rfl⟩

theorem trans {w : View} (h : u.Keeps addrs floor v) (h' : v.Keeps addrs floor w) :
    u.Keeps addrs floor w where
  sp := h'.sp.trans h.sp
  bp := h'.bp.trans h.bp
  gp := h'.gp.trans h.gp
  zero := h'.zero.trans h.zero
  mem a ha hmem := (h'.mem a ha hmem).trans (h.mem a ha hmem)

theorem mono {floor' : Nat} (h : u.Keeps addrs floor v) (hle : floor ≤ floor') :
    u.Keeps addrs floor' v :=
  ⟨h.sp, h.bp, h.gp, h.zero, fun a ha => h.mem a (Nat.le_trans hle ha)⟩

theorem set (h : u.Keeps addrs floor v) {r : Register} (hr : r = .ax ∨ r = .bx ∨ r = .pc)
    (w : Word) : u.Keeps addrs floor (v.set r w) := by
  rcases hr with rfl | rfl | rfl <;>
    exact ⟨by simpa using h.sp, by simpa using h.bp, by simpa using h.gp, by simpa using h.zero,
      h.mem⟩

theorem goto (h : u.Keeps addrs floor v) (k : Nat) : u.Keeps addrs floor (v.goto k) :=
  h.set (.inr (.inr rfl)) _

end View.Keeps

/-- The machine in a state of the interpreter. The names in `env` are resolved in `scopes`, those in
`globals` in `table`. -/
structure Matches (globals : Bindings) (table : Table) (env : Bindings) (scopes : Scopes)
    (addrs : List Nat) (sp floor : Nat) (σ : Store) (v : View) : Prop where
  top : v.get .sp = Word.low sp
  base : v.get .gp = Word.low 1023
  zero : v.get .zero = 0
  below : sp ≤ floor
  limit : sp < 1024
  agrees : σ.Agrees addrs v
  nodup : addrs.Nodup
  range : ∀ a ∈ addrs, sp ≤ a ∧ a < 1024
  visible : ∀ name b, env.lookup name = some b →
    ∃ var, scopes.lookup name = some var ∧ Located addrs floor v var b
  global : ∀ name b, globals.lookup name = some b →
    ∃ var, table.get? name = some var ∧
      ∀ u, u.get .gp = Word.low 1023 → Placed addrs .gp u var b

namespace Matches

variable {globals env : Bindings} {table : Table} {scopes : Scopes} {addrs : List Nat}
  {sp floor : Nat} {σ σ' : Store} {u v : View}

/-- Below `floor` only the cells of the store matter. -/
theorem keepFrame (h : Matches globals table env scopes addrs sp floor σ u)
    (hkeeps : u.Keeps addrs floor v) (hagrees : σ'.Agrees addrs v) :
    Matches globals table env scopes addrs sp floor σ' v where
  top := hkeeps.sp.trans h.top
  base := hkeeps.gp.trans h.base
  zero := hkeeps.zero.trans h.zero
  below := h.below
  limit := h.limit
  agrees := hagrees
  nodup := h.nodup
  range := h.range
  visible name b hb := by
    obtain ⟨var, hvar, hlocated⟩ := h.visible name b hb
    exact ⟨var, hvar, hlocated.keep hkeeps.gp hkeeps.bp hkeeps.mem⟩
  global := h.global

theorem keep (h : Matches globals table env scopes addrs sp floor σ u) (hkeeps : u.Keeps addrs sp v)
    (hagrees : σ'.Agrees addrs v) : Matches globals table env scopes addrs sp floor σ' v :=
  h.keepFrame (hkeeps.mono h.below) hagrees

theorem not_mem (h : Matches globals table env scopes addrs (sp + 1) floor σ u) : sp ∉ addrs := by
  intro hmem
  have := h.range sp hmem
  omega

theorem push (h : Matches globals table env scopes addrs (sp + 1) floor σ u) (w : Word) :
    Matches globals table env scopes addrs sp floor σ
      ((u.set .sp (Word.low sp)).poke sp w) where
  top := by simp
  base := by simpa using h.base
  zero := by simpa using h.zero
  below := Nat.le_of_succ_le h.below
  limit := Nat.lt_of_succ_lt h.limit
  agrees := (h.agrees.set .sp _).poke h.not_mem w
  nodup := h.nodup
  range a ha := by
    have := h.range a ha
    omega
  visible name b hb := by
    obtain ⟨var, hvar, hlocated⟩ := h.visible name b hb
    refine ⟨var, hvar, hlocated.keep (by simp) (by simp) fun a ha hmem => ?_⟩
    have := h.below
    rw [View.mem_poke, if_neg (by omega), View.mem_set]
  global := h.global

end Matches

/-- The machine is at `k` with the value of an expression. -/
structure Computed (addrs : List Nat) (sp : Nat) (u : View) (k : Nat) (x : Word × Store) (v : View) :
    Prop where
  pc : v.get .pc = Word.low k
  ax : v.get .ax = x.1
  keeps : u.Keeps addrs sp v
  agrees : x.2.Agrees addrs v

theorem Meets.protect {code : Code} {r : Except Stop (Word × Store)} {globals env : Bindings}
    {table : Table} {scopes : Scopes} {addrs : List Nat} {sp floor k : Nat} {σ : Store} {u : View}
    {reg : Register} {ops : List Operation} (hsize : code.size < 2147483648)
    (hcode : code.Holds k (Compile.push reg ++ ops ++ Compile.pop .bx))
    (hreg : reg = .ax ∨ reg = .bx)
    (hm : Matches globals table env scopes addrs (sp + 1) floor σ u)
    (hr : ∀ u', Matches globals table env scopes addrs sp floor σ u' →
      Meets code r (Computed addrs sp u' (k + 2 + ops.length)) (u'.goto (k + 2))) :
    Meets code r (fun x v => Computed addrs (sp + 1) u (k + 2 + ops.length + 2) x v ∧
      v.get .bx = u.get reg) (u.goto k) := by
  have hlimit := hm.limit
  refine gets (View.gets_save hsize hcode hreg hm.top (by omega)) ?_
  refine (hr _ (hm.push (u.get reg))).after fun x v _ hx => ?_
  have htop : v.get .sp = Word.low sp := hx.keeps.sp.trans (by simp)
  -- The protected value lies below all cells of the store.
  have hsaved : v.mem sp = u.get reg := by
    rw [hx.keeps.mem sp (Nat.le_refl _) hm.not_mem, View.mem_poke, if_pos rfl]
  refine gets (View.gets_restore hsize hcode hx.pc htop (by omega)) (ok ⟨⟨rfl, ?_, ?_, ?_⟩, ?_⟩)
  · simpa using hx.ax
  · refine ⟨by simp [hm.top], ?_, ?_, ?_, fun a ha hmem => ?_⟩
    · simpa using hx.keeps.bp
    · simpa using hx.keeps.gp
    · simpa using hx.keeps.zero
    · have hx := hx.keeps.mem a (by omega) hmem
      rw [View.mem_poke, if_neg (by omega)] at hx
      simpa using hx
  · exact ((hx.agrees.set _ _).set _ _).goto _
  · simpa using hsaved

end CMinus
