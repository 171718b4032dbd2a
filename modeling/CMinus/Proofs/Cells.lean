import CMinus.Machine.Run
import CMinus.Proofs.Storage
import CMinus.Proofs.Word

namespace CMinus

/-- A cell of storage, by its distance from a base register. -/
structure Cell where
  base : Register
  offset : Int
  deriving DecidableEq

namespace Cell

def address (m : Machine) (c : Cell) : Int :=
  (m.get c.base).toInt + c.offset

end Cell

namespace Scope

/-- The cell with the number `n` of the tables of a scope. -/
def cell : Scope → Nat → Cell
  | .global, n => ⟨.gp, -1 - n⟩
  | .block, n => ⟨.bp, -1 - n⟩
  | .param, n => ⟨.bp, 2 + n⟩

theorem cell_injective {s s' : Scope} {n n' : Nat} (h : s.cell n = s'.cell n') :
    s = s' ∧ n = n' := by
  cases s <;> cases s' <;> simp only [cell, Cell.mk.injEq, reduceCtorEq, false_and, true_and] at h
  case param.block | block.param => omega
  all_goals exact ⟨rfl, by omega⟩

@[simp]
theorem address_global (m : Machine) (n : Nat) :
    (cell .global n).address m = (m.get .gp).toInt + (-1 - n) := rfl

@[simp]
theorem address_block (m : Machine) (n : Nat) :
    (cell .block n).address m = (m.get .bp).toInt + (-1 - n) := rfl

@[simp]
theorem address_param (m : Machine) (n : Nat) :
    (cell .param n).address m = (m.get .bp).toInt + (2 + n) := rfl

end Scope

namespace Declaration

def name : Declaration → String
  | int name => name
  | array name _ => name
  | param name _ => name

/-- The cells that the declaration takes in a table of the scope. -/
def cells (scope : Scope) : Declaration → Nat
  | array _ length => if scope = .param then 1 else length.toNat
  | int _ | param _ _ => 1

/-- Only tables of parameters are asked for parameters. -/
def suits (scope : Scope) : Declaration → Bool
  | param _ _ => scope == .param
  | int _ | array _ _ => true

def ty : Declaration → VarType
  | int _ => .int
  | array _ _ => .array
  | param _ ty => ty

/-- Declares an array that lies in the table, not one that is passed by reference. -/
def inPlace (scope : Scope) : Declaration → Bool
  | array _ _ => scope != .param
  | int _ | param _ _ => false

/-- How far the offset of the variable lies beyond the cells taken before. -/
def skip (scope : Scope) (d : Declaration) : Nat :=
  if d.inPlace scope then 1 else 0

theorem cells_param (d : Declaration) : d.cells .param = 1 := by
  cases d <;> rfl

end Declaration

namespace Variable

/-- The variable starts at the cell with the number `n`, by its offset. -/
inductive Starts : Variable → Nat → Prop
  | param {ty : VarType} {offset : Size} : Starts ⟨.param, ty, offset⟩ offset.toNat
  | scalar {scope : Scope} {offset : Size} : Starts ⟨scope, .int, offset⟩ offset.toNat
  | array {scope : Scope} {offset : Size} {n : Nat} : scope ≠ .param → offset.toNat = n + 1 →
      Starts ⟨scope, .array, offset⟩ n

theorem Starts.locate {v : Variable} {n : Nat} (h : v.Starts n) (hsmall : n < 2147483646) :
    ∃ location, v.locate = .ok location ∧
      (⟨location.base, location.displacement.toInt⟩ : Cell) = v.scope.cell n := by
  have hparam (ty : VarType) (offset : Size) (h : offset.toNat < 2147483646) :
      ∃ location, (⟨.param, ty, offset⟩ : Variable).locate = .ok location ∧
        (⟨location.base, location.displacement.toInt⟩ : Cell) =
          Scope.cell .param offset.toNat := by
    have hlow := Size.toInt_low (n := offset) (by omega)
    have htwo : (2 : Word).toInt = 2 := rfl
    obtain ⟨w, hw, hval⟩ := Word.add_isOk (a := 2) (b := offset.low) ⟨by omega, by omega⟩
    refine ⟨⟨if ty = .array then .ld else .lda, w, .bp⟩, ?_, ?_⟩
    · cases ty <;> simp only [Variable.locate, hw] <;> rfl
    · rw [hval, hlow]
      rfl
  cases h with
  | param => exact hparam _ _ hsmall
  | @scalar scope offset =>
    have hlow := Size.toInt_low (n := offset) (by omega)
    have hone : (-1 : Word).toInt = -1 := rfl
    have hval : ((-1 : Word) - offset.low).toInt = -1 - offset.toNat := by
      rw [Word.toInt_sub ⟨by omega, by omega⟩, hone, hlow]
    cases scope with
    | param => exact hparam _ _ hsmall
    | global | block => exact ⟨_, rfl, by rw [Scope.cell, ← hval]⟩
  | @array scope offset n hscope hoffset =>
    have hlow := Size.toInt_low (n := offset) (by omega)
    obtain ⟨w, hw, hval⟩ := Word.neg_isOk (a := offset.low) (by omega)
    have hval : w.toInt = -1 - n := by omega
    cases scope with
    | param => exact absurd rfl hscope
    | global | block =>
      refine ⟨_, by simp only [Variable.locate, hw]; rfl, ?_⟩
      rw [hval, Scope.cell]

end Variable

/-- A declared variable, with the number of cells it takes. -/
structure Holding where
  name : String
  symbol : Variable
  extent : Nat

namespace Holding

/-- The cells of a variable. An array extends downward from its first element. -/
def cells (h : Holding) : Except Overflow (List Cell) := do
  let location ← h.symbol.locate
  return (List.range h.extent).map fun (i : Nat) =>
    ⟨location.base, location.displacement.toInt - i⟩

def Owns (h : Holding) (c : Cell) : Prop :=
  ∃ cells, h.cells = .ok cells ∧ c ∈ cells

end Holding

/-- A table and what was declared in it. -/
structure Area where
  table : Table
  holdings : List Holding

namespace Table

/-- Makes declarations one after another. One that is refused as a duplicate changes nothing. -/
def extend (t : Table) : List Declaration → Except Overflow Area
  | [] => .ok ⟨t, []⟩
  | d :: rest =>
    match t.declare d with
    | .ok (v, t') => do
      let area ← t'.extend rest
      return ⟨area.table, ⟨d.name, v, d.cells t.scope⟩ :: area.holdings⟩
    | .error (.duplicate _) => t.extend rest
    | .error (.overflow operation) => .error operation

/-- Extends a table, then one nested in it, and so on. -/
def extendNested (t : Table) : List (List Declaration) → Except Overflow (List Area)
  | [] => .ok []
  | declarations :: rest => do
    let area ← t.extend declarations
    return area :: (← area.table.nested.extendNested rest)

/-- Only a name that the table knows is refused. -/
theorem get?_of_duplicate {t : Table} {d : Declaration} {name : String}
    (h : t.declare d = .error (.duplicate name)) : t.get? d.name ≠ none := by
  have hknown {ty : VarType} {offset cells : Size}
      (h : t.allocate d.name ty offset cells = .error (.duplicate name)) :
      t.get? d.name ≠ none := by
    rw [allocate] at h
    split at h
    · next hcontains => exact Option.isSome_iff_ne_none.1 hcontains
    · simp only at h
      split at h <;> cases h
  cases d with
  | int name =>
    rw [declare, declareInt] at h
    split at h <;> exact hknown h
  | param name ty => exact hknown h
  | array name length =>
    rw [declare, declareArray] at h
    split at h
    · exact hknown h
    all_goals
      split at h
      · exact hknown h
      · cases h

theorem extend_cons_eq_ok {t : Table} {d : Declaration} {rest : List Declaration} {area : Area}
    (h : t.extend (d :: rest) = .ok area) :
    t.get? d.name ≠ none ∧ t.extend rest = .ok area ∨
      ∃ v t' later, t.declare d = .ok (v, t') ∧ t'.extend rest = .ok later ∧
        area = ⟨later.table, ⟨d.name, v, d.cells t.scope⟩ :: later.holdings⟩ := by
  rw [extend] at h
  split at h
  · next v t' hdeclare =>
    simp only [bind_eq_ok, pure_eq_ok] at h
    obtain ⟨later, hlater, rfl⟩ := h
    exact .inr ⟨v, t', later, hdeclare, hlater, rfl⟩
  · next hdeclare => exact .inl ⟨get?_of_duplicate hdeclare, h⟩
  · cases h

theorem allocate_symbol {t t' : Table} {name : String} {ty : VarType} {offset cells : Size}
    {v : Variable} (h : t.allocate name ty offset cells = .ok (v, t')) :
    v = ⟨t.scope, ty, offset⟩ := by
  rw [allocate] at h
  split at h
  · cases h
  · simp only at h
    split at h
    · cases h
      rfl
    · cases h

theorem allocate_of_declare {t t' : Table} {d : Declaration} {v : Variable}
    (h : t.declare d = .ok (v, t')) :
    ∃ offset cells : Size, offset.toNat = t.size.toNat + d.skip t.scope ∧
      cells.toNat = d.cells t.scope ∧ t.allocate d.name d.ty offset cells = .ok (v, t') := by
  cases d with
  | int name =>
    refine ⟨t.size, 1, rfl, rfl, ?_⟩
    rw [declare, declareInt] at h
    split at h <;> exact h
  | param name ty => exact ⟨t.size, 1, rfl, rfl, h⟩
  | array name length =>
    by_cases hparam : t.scope = .param
    · rw [declare, declareArray, hparam] at h
      rw [hparam]
      exact ⟨t.size, 1, rfl, rfl, h⟩
    · obtain ⟨offset, hadd, halloc⟩ := declareArray_eq_ok hparam h
      have hskip : Declaration.skip t.scope (.array name length) = 1 := by
        simp [Declaration.skip, Declaration.inPlace, hparam]
      refine ⟨offset, length, ?_, (if_neg hparam).symm, halloc⟩
      rw [hskip]
      exact Size.add_eq_ok hadd

theorem declare_eq_ok {t t' : Table} {d : Declaration} {v : Variable}
    (h : t.declare d = .ok (v, t')) :
    (d.suits t.scope = true → v.Starts t.size.toNat) ∧
      ∃ cells : Size, cells.toNat = d.cells t.scope ∧
        t.allocate d.name v.ty v.offset cells = .ok (v, t') := by
  obtain ⟨offset, cells, hoffset, hcells, halloc⟩ := allocate_of_declare h
  obtain rfl := allocate_symbol halloc
  refine ⟨fun hsuits => ?_, cells, hcells, halloc⟩
  cases d with
  | int name =>
    have hsame : t.size.toNat = offset.toNat := hoffset.symm
    rw [hsame]
    exact .scalar
  | param name ty =>
    have hparam : t.scope = .param := by simpa [Declaration.suits] using hsuits
    have hsame : t.size.toNat = offset.toNat := hoffset.symm
    rw [hparam, hsame]
    exact .param
  | array name length =>
    by_cases hparam : t.scope = .param
    · rw [hparam] at hoffset
      have hsame : t.size.toNat = offset.toNat := hoffset.symm
      rw [hparam, hsame]
      exact .param
    · refine .array hparam ?_
      simpa [Declaration.skip, Declaration.inPlace, hparam] using hoffset

theorem declare_spec {t t' : Table} {d : Declaration} {v : Variable}
    (h : t.declare d = .ok (v, t')) :
    t.get? d.name = none ∧ t'.scope = t.scope ∧ v.scope = t.scope ∧
      t'.size.toNat = t.size.toNat + d.cells t.scope ∧
      ∀ other, t'.get? other = if other = d.name then some v else t.get? other := by
  obtain ⟨-, cells, hcells, halloc⟩ := declare_eq_ok h
  have hv := allocate_symbol halloc
  obtain ⟨hnew, hscope, hsize, hget⟩ := allocate_eq_ok halloc
  rw [← hv] at hget
  exact ⟨hnew, hscope, by rw [hv], by rw [hsize, hcells], hget⟩

/-- The cells that resolving finds are those that the declaration takes. -/
theorem cells_declare {t t' : Table} {d : Declaration} {v : Variable}
    (h : t.declare d = .ok (v, t')) (hsuits : d.suits t.scope = true)
    (hsmall : t'.size.toNat < 2147483646) :
    (⟨d.name, v, d.cells t.scope⟩ : Holding).cells =
      .ok ((List.range' t.size.toNat (d.cells t.scope)).map t.scope.cell) := by
  obtain ⟨hstarts, -⟩ := declare_eq_ok h
  obtain ⟨-, -, hscope, hsize, -⟩ := declare_spec h
  obtain ⟨location, hlocate, hcell⟩ := (hstarts hsuits).locate (by omega)
  rw [hscope] at hcell
  have hextent : t.scope = .param → d.cells t.scope = 1 := by
    intro hparam
    rw [hparam, Declaration.cells_param]
  simp only [Holding.cells, hlocate, ok_bind, pure_eq]
  rw [List.range'_eq_map_range, List.map_map]
  congr 1
  refine List.map_congr_left fun i hi => ?_
  have hi := List.mem_range.1 hi
  generalize t.size.toNat = n at *
  rw [Function.comp_apply]
  cases hs : t.scope with
  | global | block =>
    simp only [hs, Scope.cell, Cell.mk.injEq] at hcell ⊢
    exact ⟨hcell.1, by omega⟩
  | param =>
    have hextent := hextent hs
    simp only [hs, Scope.cell, Cell.mk.injEq] at hcell ⊢
    exact ⟨hcell.1, by omega⟩

end Table

/-- The variables take the cells with the numbers from `n` to `stop`, one variable after the
other. -/
inductive Tiles (scope : Scope) : Nat → List Holding → Nat → Prop
  | nil {n : Nat} : Tiles scope n [] n
  | cons {n stop : Nat} {h : Holding} {rest : List Holding} :
      h.cells = .ok ((List.range' n h.extent).map scope.cell) →
      Tiles scope (n + h.extent) rest stop → Tiles scope n (h :: rest) stop

namespace Tiles

variable {scope : Scope} {n k stop : Nat} {hs hs' : List Holding}

theorem le (h : Tiles scope n hs stop) : n ≤ stop := by
  induction h with
  | nil => exact Nat.le_refl _
  | cons _ _ ih => omega

theorem append (h : Tiles scope n hs k) (h' : Tiles scope k hs' stop) :
    Tiles scope n (hs ++ hs') stop := by
  induction h with
  | nil => exact h'
  | cons hcells _ ih => exact .cons hcells (ih h')

theorem isOk (h : Tiles scope n hs stop) {x : Holding} (hx : x ∈ hs) :
    ∃ cells, x.cells = .ok cells := by
  induction h with
  | nil => cases hx
  | cons hcells _ ih =>
    cases hx with
    | head => exact ⟨_, hcells⟩
    | tail _ hx => exact ih hx

theorem range (h : Tiles scope n hs stop) {x : Holding} (hx : x ∈ hs) {c : Cell} (hc : x.Owns c) :
    ∃ i, n ≤ i ∧ i < stop ∧ c = scope.cell i := by
  induction h with
  | nil => cases hx
  | cons hcells hrest ih =>
    cases hx with
    | head =>
      obtain ⟨cells, hcells', hmem⟩ := hc
      cases hcells.symm.trans hcells'
      obtain ⟨i, hi, rfl⟩ := List.mem_map.1 hmem
      have hi := List.mem_range'_1.1 hi
      have := hrest.le
      exact ⟨i, hi.1, by omega, rfl⟩
    | tail _ hx =>
      obtain ⟨i, hlow, hhigh, rfl⟩ := ih hx
      exact ⟨i, by omega, hhigh, rfl⟩

theorem pairwise (h : Tiles scope n hs stop) :
    hs.Pairwise fun a b => ∀ c, a.Owns c → ¬ b.Owns c := by
  induction h with
  | nil => exact .nil
  | @cons n stop x rest hcells hrest ih =>
    refine List.pairwise_cons.2 ⟨?_, ih⟩
    intro y hy c hx hc
    obtain ⟨i, hlow, -, rfl⟩ := hrest.range hy hc
    have hfirst : Tiles scope n [x] (n + x.extent) := .cons hcells .nil
    obtain ⟨j, -, hhigh, heq⟩ := hfirst.range List.mem_cons_self hx
    have := (Scope.cell_injective heq).2
    omega

end Tiles

namespace Table

theorem tiles_extend {t : Table} {declarations : List Declaration} {area : Area}
    (h : t.extend declarations = .ok area) (hsuits : ∀ d ∈ declarations, d.suits t.scope = true)
    (hsmall : area.table.size.toNat < 2147483646) :
    area.table.scope = t.scope ∧
      Tiles t.scope t.size.toNat area.holdings area.table.size.toNat := by
  induction declarations generalizing t area with
  | nil =>
    cases h
    exact ⟨rfl, .nil⟩
  | cons d rest ih =>
    obtain ⟨hfirst, hrest⟩ := List.forall_mem_cons.1 hsuits
    rcases extend_cons_eq_ok h with ⟨-, h⟩ | ⟨v, t', later, hdeclare, hlater, rfl⟩
    · exact ih h hrest hsmall
    · obtain ⟨-, hscope, -, hsize, -⟩ := declare_spec hdeclare
      obtain ⟨hfinal, htiles⟩ := ih hlater (hscope ▸ hrest) hsmall
      rw [hscope] at hfinal htiles
      have hsmall := Nat.lt_of_le_of_lt htiles.le hsmall
      rw [hsize] at htiles
      exact ⟨hfinal, .cons (cells_declare hdeclare hfirst hsmall) htiles⟩

theorem get?_extend {t : Table} {declarations : List Declaration} {area : Area}
    (h : t.extend declarations = .ok area) :
    (area.holdings.map Holding.name).Nodup ∧ (∀ x ∈ area.holdings, t.get? x.name = none) ∧
      ∀ name v, area.table.get? name = some v ↔
        t.get? name = some v ∨ ∃ x ∈ area.holdings, x.name = name ∧ x.symbol = v := by
  induction declarations generalizing t area with
  | nil =>
    cases h
    simp
  | cons d rest ih =>
    rcases extend_cons_eq_ok h with ⟨-, h⟩ | ⟨v, t', later, hdeclare, hlater, rfl⟩
    · exact ih h
    · obtain ⟨hnew, -, -, -, hget⟩ := declare_spec hdeclare
      obtain ⟨hnodup, hfresh, hknows⟩ := ih hlater
      have hother {x : Holding} (hx : x ∈ later.holdings) : x.name ≠ d.name := by
        intro heq
        have := hfresh x hx
        rw [hget, if_pos heq] at this
        cases this
      refine ⟨?_, ?_, ?_⟩
      · refine List.nodup_cons.2 ⟨?_, hnodup⟩
        intro hmem
        obtain ⟨x, hx, heq⟩ := List.mem_map.1 hmem
        exact hother hx heq
      · refine List.forall_mem_cons.2 ⟨hnew, ?_⟩
        intro x hx
        have := hfresh x hx
        rwa [hget, if_neg (hother hx)] at this
      · intro name w
        rw [hknows, hget]
        by_cases heq : name = d.name
        · subst heq
          simp [hnew]
        · simp [if_neg heq, Ne.symm heq]

end Table

/-- Every block takes cells of the frame from where the block around it ends. -/
inductive Stacked : Nat → List Area → Prop
  | nil {n : Nat} : Stacked n []
  | cons {n : Nat} {area : Area} {inner : List Area} :
      Tiles .block n area.holdings area.table.size.toNat →
      Stacked area.table.size.toNat inner → Stacked n (area :: inner)

namespace Stacked

theorem tiles {n : Nat} {areas : List Area} (h : Stacked n areas) :
    ∃ stop, Tiles .block n (areas.flatMap Area.holdings) stop := by
  induction h with
  | nil => exact ⟨_, .nil⟩
  | cons harea _ ih =>
    obtain ⟨stop, hinner⟩ := ih
    exact ⟨stop, harea.append hinner⟩

/-- A block takes the cells between those of the last block around it and its own size. -/
theorem tiles_between {n : Nat} {outer inner : List Area} {area : Area}
    (h : Stacked n (outer ++ area :: inner)) :
    Tiles .block (outer.getLast?.elim n (·.table.size.toNat)) area.holdings
      area.table.size.toNat := by
  induction outer generalizing n with
  | nil =>
    obtain - | ⟨harea, -⟩ := h
    exact harea
  | cons first outer ih =>
    obtain - | ⟨-, hinner⟩ := h
    have := ih hinner
    rw [List.getLast?_cons]
    cases hlast : outer.getLast? with
    | none => rwa [hlast] at this
    | some last => rwa [hlast] at this

end Stacked

theorem Table.stacked_extendNested {t : Table} {blocks : List (List Declaration)}
    {areas : List Area} (h : t.extendNested blocks = .ok areas) (hscope : t.scope = .block)
    (hsuits : ∀ declarations ∈ blocks, ∀ d ∈ declarations, d.suits .block = true)
    (hsmall : ∀ area ∈ areas, area.table.size.toNat < 2147483646) :
    Stacked t.size.toNat areas := by
  induction blocks generalizing t areas with
  | nil =>
    cases h
    exact .nil
  | cons declarations blocks ih =>
    simp only [extendNested, bind_eq_ok, pure_eq_ok] at h
    obtain ⟨area, harea, inner, hinner, rfl⟩ := h
    obtain ⟨hfirst, hrest⟩ := List.forall_mem_cons.1 hsuits
    obtain ⟨hlow, hsmall⟩ := List.forall_mem_cons.1 hsmall
    obtain ⟨-, htiles⟩ := tiles_extend harea (hscope ▸ hfirst) hlow
    rw [hscope] at htiles
    have hinner := ih hinner rfl hrest hsmall
    exact .cons htiles hinner

/-- Every block is made from a table without names. -/
theorem Table.extends_of_mem {t : Table} {blocks : List (List Declaration)} {areas : List Area}
    (h : t.extendNested blocks = .ok areas) (ht : ∀ name, t.get? name = none) {area : Area}
    (harea : area ∈ areas) :
    ∃ (fresh : Table) (declarations : List Declaration), (∀ name, fresh.get? name = none) ∧
      fresh.extend declarations = .ok area := by
  induction blocks generalizing t areas with
  | nil =>
    cases h
    cases harea
  | cons declarations blocks ih =>
    simp only [extendNested, bind_eq_ok, pure_eq_ok] at h
    obtain ⟨first, hfirst, inner, hinner, rfl⟩ := h
    cases harea with
    | head => exact ⟨t, declarations, ht, hfirst⟩
    | tail _ harea => exact ih hinner (fun _ => rfl) harea

/-- The tables whose names are visible at a point of a function body, the outermost block first. -/
structure Visible where
  globals : Area
  params : Area
  blocks : List Area

namespace Visible

/-- Declares global variables, parameters, and the variables of nested blocks. -/
def build (globals params : List Declaration) (blocks : List (List Declaration)) :
    Except Overflow Visible := do
  let globals ← (Table.new .global).extend globals
  let params ← (Table.new .param).extend params
  let blocks ← (Table.new .block).extendNested blocks
  return ⟨globals, params, blocks⟩

def areas (v : Visible) : List Area :=
  v.globals :: v.params :: v.blocks

def holdings (v : Visible) : List Holding :=
  v.areas.flatMap Area.holdings

/-- The frame at `bp`, with its parameters, lies below the global variables. -/
def Below (v : Visible) (m : Machine) : Prop :=
  (m.get .bp).toInt + 2 + v.params.table.size.toNat ≤
    (m.get .gp).toInt - v.globals.table.size.toNat

/-- The cells that blocks take, the outermost first. -/
def taken (blocks : List Area) : Nat :=
  blocks.getLast?.elim 0 (·.table.size.toNat)

/-- The cells of the variables of an area have addresses from `low` to `high`. -/
def Within (area : Area) (m : Machine) (low high : Int) : Prop :=
  ∀ x ∈ area.holdings, ∀ c, x.Owns c → low ≤ c.address m ∧ c.address m ≤ high

/-- The variables have storage of their own. -/
structure Separate (v : Visible) : Prop where
  named : ∀ area ∈ v.areas, (area.holdings.map Holding.name).Nodup ∧
    ∀ name x, area.table.get? name = some x ↔ ∃ h ∈ area.holdings, h.name = name ∧ h.symbol = x
  located : ∀ x ∈ v.holdings, ∃ cells, x.cells = .ok cells
  globals : ∀ m : Machine, Within v.globals m
    ((m.get .gp).toInt - v.globals.table.size.toNat) ((m.get .gp).toInt - 1)
  params : ∀ m : Machine, Within v.params m
    ((m.get .bp).toInt + 2) ((m.get .bp).toInt + 1 + v.params.table.size.toNat)
  blocks : ∀ outer area inner, v.blocks = outer ++ area :: inner → ∀ m : Machine, Within area m
    ((m.get .bp).toInt - area.table.size.toNat)
    ((m.get .bp).toInt - 1 - taken outer)
  disjoint : v.holdings.Pairwise fun a b => ∀ c, a.Owns c → ¬ b.Owns c
  addresses : ∀ m, v.Below m → v.holdings.Pairwise fun a b =>
    ∀ c d, a.Owns c → b.Owns d → c.address m ≠ d.address m
  /-- No variable covers the caller's `bp` and the return address, which a frame keeps at `bp` and
  above it. -/
  saved : ∀ m, ∀ x ∈ v.holdings, ∀ c, x.Owns c → (c.base = .gp → v.Below m) →
    c.address m ≠ (m.get .bp).toInt ∧ c.address m ≠ (m.get .bp).toInt + 1

variable {v : Visible} {m : Machine}

theorem within_of_tiles {area : Area} {scope : Scope} {n stop : Nat}
    (h : Tiles scope n area.holdings stop) {low high : Int}
    (hrange : ∀ i, n ≤ i → i < stop →
      low ≤ (scope.cell i).address m ∧ (scope.cell i).address m ≤ high) :
    Within area m low high := by
  intro x hx c hc
  obtain ⟨i, hlow, hhigh, rfl⟩ := h.range hx hc
  exact hrange i hlow hhigh

/-- The cells of the visible variables. -/
inductive Reaches (v : Visible) : Cell → Prop
  | global {i : Nat} : i < v.globals.table.size.toNat → Reaches v (Scope.cell .global i)
  | param {i : Nat} : i < v.params.table.size.toNat → Reaches v (Scope.cell .param i)
  | block {i : Nat} : Reaches v (Scope.cell .block i)

/-- When the frame lies below the global variables, different cells have different addresses. -/
theorem Reaches.address_injective {c d : Cell} (hbelow : v.Below m) (hc : v.Reaches c)
    (hd : v.Reaches d) (h : c.address m = d.address m) : c = d := by
  rw [Below] at hbelow
  cases hc <;> cases hd <;>
    simp only [Scope.address_global, Scope.address_param, Scope.address_block] at h
  case global.global | param.param | block.block => exact congrArg _ (by omega)
  all_goals omega

theorem Reaches.saved {c : Cell} (hc : v.Reaches c) (hbelow : c.base = .gp → v.Below m) :
    c.address m ≠ (m.get .bp).toInt ∧ c.address m ≠ (m.get .bp).toInt + 1 := by
  cases hc with
  | global hi =>
    have hbelow := hbelow rfl
    rw [Below] at hbelow
    rw [Scope.address_global]
    omega
  | param hi =>
    rw [Scope.address_param]
    omega
  | block =>
    rw [Scope.address_block]
    omega

theorem disjoint_of_scope_ne {s s' : Scope} {n n' k k' : Nat} {hs hs' : List Holding}
    (h : Tiles s n hs k) (h' : Tiles s' n' hs' k') (hne : s ≠ s') :
    ∀ a ∈ hs, ∀ b ∈ hs', ∀ c, a.Owns c → ¬ b.Owns c := by
  intro a ha b hb c hac hbc
  obtain ⟨i, -, -, rfl⟩ := h.range ha hac
  obtain ⟨j, -, -, heq⟩ := h'.range hb hbc
  exact hne (Scope.cell_injective heq).1

/-- The tables hand out their cells without gaps. -/
structure Tiled (v : Visible) : Prop where
  globals : Tiles .global 0 v.globals.holdings v.globals.table.size.toNat
  params : Tiles .param 0 v.params.holdings v.params.table.size.toNat
  blocks : Stacked 0 v.blocks

namespace Tiled

theorem mem_holdings {x : Holding} (hx : x ∈ v.holdings) :
    x ∈ v.globals.holdings ∨ x ∈ v.params.holdings ∨ x ∈ v.blocks.flatMap Area.holdings := by
  rw [holdings, areas, List.flatMap_cons, List.flatMap_cons, List.mem_append,
    List.mem_append] at hx
  exact hx

theorem located (h : v.Tiled) {x : Holding} (hx : x ∈ v.holdings) :
    ∃ cells, x.cells = .ok cells := by
  obtain ⟨stop, hblocks⟩ := h.blocks.tiles
  rcases mem_holdings hx with hx | hx | hx
  · exact h.globals.isOk hx
  · exact h.params.isOk hx
  · exact hblocks.isOk hx

theorem reaches (h : v.Tiled) {x : Holding} (hx : x ∈ v.holdings) {c : Cell} (hc : x.Owns c) :
    v.Reaches c := by
  obtain ⟨stop, hblocks⟩ := h.blocks.tiles
  rcases mem_holdings hx with hx | hx | hx
  · obtain ⟨i, -, hi, rfl⟩ := h.globals.range hx hc
    exact .global hi
  · obtain ⟨i, -, hi, rfl⟩ := h.params.range hx hc
    exact .param hi
  · obtain ⟨i, -, -, rfl⟩ := hblocks.range hx hc
    exact .block

theorem disjoint (h : v.Tiled) :
    v.holdings.Pairwise fun a b => ∀ c, a.Owns c → ¬ b.Owns c := by
  obtain ⟨stop, hblocks⟩ := h.blocks.tiles
  rw [holdings, areas, List.flatMap_cons, List.flatMap_cons]
  refine List.pairwise_append.2 ⟨h.globals.pairwise,
    List.pairwise_append.2 ⟨h.params.pairwise, hblocks.pairwise, ?_⟩, ?_⟩
  · exact disjoint_of_scope_ne h.params hblocks (by decide)
  · intro a ha b hb
    rcases List.mem_append.1 hb with hb | hb
    · exact disjoint_of_scope_ne h.globals h.params (by decide) a ha b hb
    · exact disjoint_of_scope_ne h.globals hblocks (by decide) a ha b hb

theorem addresses (h : v.Tiled) (hbelow : v.Below m) :
    v.holdings.Pairwise fun a b => ∀ c d, a.Owns c → b.Owns d → c.address m ≠ d.address m := by
  refine h.disjoint.imp_of_mem ?_
  intro a b ha hb hdisjoint c d hc hd heq
  have hcd := (h.reaches ha hc).address_injective hbelow (h.reaches hb hd) heq
  exact hdisjoint c hc (hcd ▸ hd)

end Tiled

variable {globals params : List Declaration} {blocks : List (List Declaration)}

theorem tiled_of_build (h : build globals params blocks = .ok v)
    (hglobals : ∀ d ∈ globals, d.suits .global = true)
    (hblocks : ∀ declarations ∈ blocks, ∀ d ∈ declarations, d.suits .block = true)
    (hsmall : ∀ area ∈ v.areas, area.table.size.toNat < 2147483646) : v.Tiled := by
  simp only [build, bind_eq_ok, pure_eq_ok] at h
  obtain ⟨g, hg, p, hp, bs, hbs, rfl⟩ := h
  simp only [areas, List.forall_mem_cons] at hsmall
  obtain ⟨hsmallGlobals, hsmallParams, hsmallBlocks⟩ := hsmall
  have hparams : ∀ d ∈ params, d.suits .param = true := by
    intro d _
    cases d <;> rfl
  exact ⟨(Table.tiles_extend hg hglobals hsmallGlobals).2,
    (Table.tiles_extend hp hparams hsmallParams).2,
    Table.stacked_extendNested hbs rfl hblocks hsmallBlocks⟩

theorem named_of_build (h : build globals params blocks = .ok v) {area : Area}
    (harea : area ∈ v.areas) :
    (area.holdings.map Holding.name).Nodup ∧ ∀ name x, area.table.get? name = some x ↔
      ∃ h ∈ area.holdings, h.name = name ∧ h.symbol = x := by
  simp only [build, bind_eq_ok, pure_eq_ok] at h
  obtain ⟨g, hg, p, hp, bs, hbs, rfl⟩ := h
  have hextend : ∃ (fresh : Table) (declarations : List Declaration),
      (∀ name, fresh.get? name = none) ∧ fresh.extend declarations = .ok area := by
    simp only [areas, List.mem_cons] at harea
    rcases harea with rfl | rfl | harea
    · exact ⟨_, globals, fun _ => rfl, hg⟩
    · exact ⟨_, params, fun _ => rfl, hp⟩
    · exact Table.extends_of_mem hbs (fun _ => rfl) harea
  obtain ⟨fresh, declarations, hfresh, hextend⟩ := hextend
  obtain ⟨hnodup, -, hget⟩ := Table.get?_extend hextend
  refine ⟨hnodup, fun name x => ?_⟩
  rw [hget, hfresh]
  simp

/-- Visible variables have storage of their own, and keep off what a call saves in the frame. -/
theorem separate_of_build (h : build globals params blocks = .ok v)
    (hglobals : ∀ d ∈ globals, d.suits .global = true)
    (hblocks : ∀ declarations ∈ blocks, ∀ d ∈ declarations, d.suits .block = true)
    (hsmall : ∀ area ∈ v.areas, area.table.size.toNat < 2147483646) : v.Separate := by
  have htiled := tiled_of_build h hglobals hblocks hsmall
  constructor
  case named => exact fun _ => named_of_build h
  case located => exact fun _ => htiled.located
  case globals =>
    intro m
    refine within_of_tiles htiled.globals fun i _ hi => ?_
    rw [Scope.address_global]
    omega
  case params =>
    intro m
    refine within_of_tiles htiled.params fun i _ hi => ?_
    rw [Scope.address_param]
    omega
  case blocks =>
    intro outer area inner heq m
    have hstacked := htiled.blocks
    rw [heq] at hstacked
    refine within_of_tiles hstacked.tiles_between fun i hlow hhigh => ?_
    rw [Scope.address_block, taken]
    omega
  case disjoint => exact htiled.disjoint
  case addresses => exact fun _ => htiled.addresses
  case saved => exact fun _ _ hx _ hc => (htiled.reaches hx hc).saved

/-- Names that are declared twice or hidden, and arrays without elements. -/
theorem hiding_separate :
    ∃ v, build [.int "a", .array "b" 0, .array "c" 3, .int "c"]
        [.int "a", .array "b" 7, .param "c" .array, .int "b"]
        [[.array "a" 2, .int "i"], [.array "b" 0, .int "i", .array "i" 5, .int "a"]] = .ok v ∧
      v.holdings.length = 11 ∧ v.Separate := by
  have hchecks : (build [.int "a", .array "b" 0, .array "c" 3, .int "c"]
        [.int "a", .array "b" 7, .param "c" .array, .int "b"]
        [[.array "a" 2, .int "i"], [.array "b" 0, .int "i", .array "i" 5, .int "a"]]).toOption.any
      (fun v => v.holdings.length = 11 ∧ ∀ area ∈ v.areas, area.table.size.toNat < 2147483646) =
      true := by
    decide +kernel
  generalize hbuild : build _ _ _ = r at hchecks
  cases r with
  | error operation => cases hchecks
  | ok v =>
    obtain ⟨hlength, hsmall⟩ := of_decide_eq_true hchecks
    exact ⟨v, rfl, hlength, separate_of_build hbuild (by decide) (by decide) hsmall⟩

end Visible

end CMinus
