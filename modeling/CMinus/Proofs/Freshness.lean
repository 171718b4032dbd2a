import CMinus.Proofs.Offsets

namespace CMinus

namespace Scope

/-- The cell with the number `z`. The number `-1` is that of the cell before the first one. -/
def place : Scope → Int → Cell
  | .global, z => ⟨.gp, -1 - z⟩
  | .block, z => ⟨.bp, -1 - z⟩
  | .param, z => ⟨.bp, 2 + z⟩

theorem place_natCast (s : Scope) (n : Nat) : s.place n = s.cell n := by
  cases s <;> rfl

theorem place_injective {s : Scope} {y z : Int} (h : s.place y = s.place z) : y = z := by
  cases s <;> simp only [place, Cell.mk.injEq, true_and] at h <;> omega

end Scope

namespace Declaration

/-- Declares an array parameter in a table of other variables. -/
def isStray (scope : Scope) : Declaration → Bool
  | param _ .array => scope != .param
  | param _ .int | int _ | array _ _ => false

/-- The number of the first cell that resolving finds, when `n` cells are taken before. -/
def first (scope : Scope) (n : Nat) (d : Declaration) : Int :=
  if d.isStray scope then n - 1 else n

/-- The variable of a later declaration `e` is not found in a cell of `d`, when nothing with cells
comes between them. -/
def Spares (scope : Scope) (d e : Declaration) : Prop :=
  e.isStray scope = true → d.isStray scope = true ∨ d.cells scope = 0

instance (scope : Scope) (d e : Declaration) : Decidable (d.Spares scope e) :=
  inferInstanceAs (Decidable (_ → _))

theorem cells_of_isStray {scope : Scope} {d : Declaration} (h : d.isStray scope = true) :
    d.cells scope = 1 := by
  cases d with
  | int name => cases h
  | array name length => cases h
  | param name ty => rfl

end Declaration

namespace Variable

/-- The number of the cell where the variable is found. -/
def number (v : Variable) : Int :=
  if v.ty = .array ∧ v.scope ≠ .param then v.offset.toNat - 1 else v.offset.toNat

theorem locate_number {v : Variable} (h : v.number < 2147483646) :
    ∃ location, v.locate = .ok location ∧
      (⟨location.base, location.displacement.toInt⟩ : Cell) = v.scope.place v.number := by
  obtain ⟨scope, ty, offset⟩ := v
  have hstarts {n : Nat} (hn : Starts ⟨scope, ty, offset⟩ n)
      (hnumber : number ⟨scope, ty, offset⟩ = n) :
      ∃ location, locate ⟨scope, ty, offset⟩ = .ok location ∧
        (⟨location.base, location.displacement.toInt⟩ : Cell) =
          scope.place (number ⟨scope, ty, offset⟩) := by
    rw [hnumber, Scope.place_natCast]
    exact hn.locate (by omega)
  by_cases harray : ty = .array ∧ scope ≠ .param
  · obtain ⟨rfl, hscope⟩ := harray
    have hnumber : number ⟨scope, .array, offset⟩ = offset.toNat - 1 := if_pos ⟨rfl, hscope⟩
    cases hoffset : offset.toNat with
    | zero =>
      -- Such an array is found at the base itself, which is no cell of the table.
      obtain rfl : offset = 0 := UInt64.toNat.inj hoffset
      cases scope with
      | param => exact absurd rfl hscope
      | global | block => exact ⟨_, rfl, rfl⟩
    | succ n => exact hstarts (.array hscope hoffset) (by omega)
  · have hnumber : number ⟨scope, ty, offset⟩ = offset.toNat := if_neg harray
    cases ty with
    | int => exact hstarts .scalar hnumber
    | array =>
      obtain rfl : scope = .param := by simpa using harray
      exact hstarts .param hnumber

end Variable

namespace Holding

def Apart (a b : Holding) : Prop :=
  ∀ c, a.Owns c → ¬ b.Owns c

end Holding

namespace Declaration.Gives

variable {d : Declaration} {scope : Scope} {n : Nat} {v : Variable}

theorem number_eq (h : d.Gives scope n v) : v.number = d.first scope n := by
  rw [Variable.number, first, h.scope, h.ty, h.offset]
  cases d with
  | int name => simp [Declaration.ty, skip, inPlace, isStray]
  | array name length =>
    by_cases hparam : scope = .param <;> simp [hparam, Declaration.ty, skip, inPlace, isStray]
  | param name ty =>
    cases ty with
    | int => simp [Declaration.ty, skip, inPlace, isStray]
    | array =>
      by_cases hparam : scope = .param <;> simp [hparam, Declaration.ty, skip, inPlace, isStray]

theorem cells_eq (h : d.Gives scope n v) (hsmall : n + d.cells scope < 2147483646) :
    (⟨d.name, v, d.cells scope⟩ : Holding).cells =
      .ok ((List.range (d.cells scope)).map fun (i : Nat) =>
        scope.place (d.first scope n + i)) := by
  have hfirst : d.first scope n ≤ n := by
    rw [first]
    split <;> omega
  obtain ⟨location, hlocate, hcell⟩ := Variable.locate_number (v := v) (by
    rw [h.number_eq]
    omega)
  rw [h.scope, h.number_eq] at hcell
  simp only [Holding.cells, hlocate, ok_bind, pure_eq]
  congr 1
  refine List.map_congr_left fun i hi => ?_
  have hi := List.mem_range.1 hi
  cases scope with
  | global | block =>
    simp only [Scope.place, Cell.mk.injEq] at hcell ⊢
    exact ⟨hcell.1, by omega⟩
  | param =>
    rw [cells_param] at hi
    simp only [Scope.place, Cell.mk.injEq] at hcell ⊢
    exact ⟨hcell.1, by omega⟩

theorem owns_iff (h : d.Gives scope n v) (hsmall : n + d.cells scope < 2147483646) {c : Cell} :
    (⟨d.name, v, d.cells scope⟩ : Holding).Owns c ↔
      ∃ z, d.first scope n ≤ z ∧ z < d.first scope n + d.cells scope ∧ c = scope.place z := by
  rw [Holding.Owns, h.cells_eq hsmall]
  constructor
  · rintro ⟨cells, heq, hmem⟩
    cases heq
    obtain ⟨i, hi, rfl⟩ := List.mem_map.1 hmem
    have hi := List.mem_range.1 hi
    exact ⟨_, by omega, by omega, rfl⟩
  · rintro ⟨z, hlow, hhigh, rfl⟩
    refine ⟨_, rfl, List.mem_map.2 ⟨(z - d.first scope n).toNat, ?_, ?_⟩⟩
    · rw [List.mem_range]
      omega
    · congr 1
      omega

end Declaration.Gives

namespace Allots

variable {scope : Scope} {n stop : Nat} {ds : List Declaration} {hs : List Holding}

theorem isOk (h : Allots scope n ds hs stop) (hsmall : stop < 2147483646) {x : Holding}
    (hx : x ∈ hs) : ∃ cells, x.cells = .ok cells := by
  induction h with
  | nil => cases hx
  | cons hgives hrest ih =>
    have hlast := hrest.le
    rcases List.mem_cons.1 hx with rfl | hx
    · exact ⟨_, hgives.cells_eq (by omega)⟩
    · exact ih hsmall hx

/-- The cells of the variables come after those taken before, but for the one before them, which
only a stray parameter can reach. -/
theorem range (h : Allots scope n ds hs stop) (hsmall : stop < 2147483646) {x : Holding}
    (hx : x ∈ hs) {c : Cell} (hc : x.Owns c) :
    ∃ z : Int, n - 1 ≤ z ∧ ((∀ d ∈ ds, d.isStray scope = false) → n ≤ z) ∧
      c = scope.place z := by
  induction h with
  | nil => cases hx
  | @cons n stop d v ds hs hgives hrest ih =>
    have hlast := hrest.le
    rcases List.mem_cons.1 hx with rfl | hx
    · obtain ⟨z, hlow, -, rfl⟩ := (hgives.owns_iff (by omega)).1 hc
      rw [Declaration.first] at hlow
      refine ⟨z, by split at hlow <;> omega, ?_, rfl⟩
      intro hnone
      rw [if_neg (by simp [hnone d List.mem_cons_self])] at hlow
      exact hlow
    · obtain ⟨z, hlow, hhigh, rfl⟩ := ih hsmall hx
      refine ⟨z, by omega, ?_, rfl⟩
      intro hnone
      have := hhigh fun e he => hnone e (List.mem_cons_of_mem _ he)
      omega

/-- The first stray parameter is found in the cell before, if no other variable has cells before
it. -/
theorem exists_owns_of_isStray (h : Allots scope n ds hs stop) (hsmall : stop < 2147483646)
    (hspares : ds.Pairwise (Declaration.Spares scope)) {e : Declaration} (he : e ∈ ds)
    (hstray : e.isStray scope = true) : ∃ x ∈ hs, x.Owns (scope.place (n - 1)) := by
  induction h with
  | nil => cases he
  | @cons n stop d v ds hs hgives hrest ih =>
    have hlast := hrest.le
    obtain ⟨hhead, htail⟩ := List.pairwise_cons.1 hspares
    by_cases hd : d.isStray scope = true
    · have hfirst : d.first scope n = n - 1 := if_pos hd
      have hcells := Declaration.cells_of_isStray hd
      exact ⟨_, List.mem_cons_self, (hgives.owns_iff (by omega)).2 ⟨_, by omega, by omega, rfl⟩⟩
    · have he : e ∈ ds := by
        rcases List.mem_cons.1 he with rfl | he
        · exact absurd hstray hd
        · exact he
      -- A variable with cells would have to be another stray parameter.
      have hempty : d.cells scope = 0 := (hhead e he hstray).resolve_left hd
      obtain ⟨x, hx, howns⟩ := ih hsmall htail he
      rw [hempty, Nat.add_zero] at howns
      exact ⟨x, List.mem_cons_of_mem _ hx, howns⟩

theorem apart_of_spares {d : Declaration} {v : Variable} (hgives : d.Gives scope n v)
    (h : Allots scope (n + d.cells scope) ds hs stop) (hsmall : stop < 2147483646)
    (hspares : ∀ e ∈ ds, d.Spares scope e) :
    ∀ x ∈ hs, Holding.Apart ⟨d.name, v, d.cells scope⟩ x := by
  intro x hx c hown hc
  have hlast := h.le
  obtain ⟨y, hylow, hyhigh, rfl⟩ := (hgives.owns_iff (by omega)).1 hown
  obtain ⟨z, hzlow, hznone, heq⟩ := h.range hsmall hx hc
  have heq := Scope.place_injective heq
  by_cases hd : d.isStray scope = true
  · have hfirst : d.first scope n = n - 1 := if_pos hd
    omega
  · have hfirst : d.first scope n = n := if_neg hd
    have := hznone fun e he => by
      by_contra hstray
      have hempty := (hspares e he (by simpa using hstray)).resolve_left hd
      omega
    omega

theorem apart_iff (h : Allots scope n ds hs stop) (hsmall : stop < 2147483646) :
    hs.Pairwise Holding.Apart ↔ ds.Pairwise (Declaration.Spares scope) := by
  induction h with
  | nil => simp
  | @cons n stop d v ds hs hgives hrest ih =>
    have hlast := hrest.le
    rw [List.pairwise_cons, List.pairwise_cons, ih hsmall]
    refine and_congr_left fun htail => ⟨?_, apart_of_spares hgives hrest hsmall⟩
    intro hapart e he hstray
    by_contra hnot
    obtain ⟨hd, hcells⟩ := not_or.1 hnot
    -- The first stray parameter behind the variable is found in its last cell.
    obtain ⟨x, hx, howns⟩ := hrest.exists_owns_of_isStray hsmall htail he hstray
    have hfirst : d.first scope n = n := if_neg hd
    exact hapart x hx _ ((hgives.owns_iff (by omega)).2 ⟨_, by omega, by omega, rfl⟩) howns

end Allots

namespace Table

/-- Declarations of any kind, in a fresh table of any scope, make variables that can be found; and
no two of them share a cell if and only if no array parameter is declared in a table of other
variables after a variable that takes cells and is no such parameter. -/
theorem apart_iff_spares {t : Table} {declarations : List Declaration} {area : Area}
    (ht : t.Fresh) (h : t.extend declarations = .ok area)
    (hsmall : area.table.size.toNat < 2147483646) :
    (∀ name v, area.table.get? name = some v ↔
        ∃ x ∈ area.holdings, x.name = name ∧ x.symbol = v) ∧
      (area.holdings.map Holding.name).Nodup ∧
      (∀ x ∈ area.holdings, ∃ cells, x.cells = .ok cells) ∧
      (area.holdings.Pairwise Holding.Apart ↔
        (Declaration.accepted [] declarations).Pairwise (Declaration.Spares t.scope)) := by
  have hallots := ht.allots h
  obtain ⟨hnodup, -, hget⟩ := get?_extend h
  refine ⟨?_, hnodup, fun x => hallots.isOk hsmall, hallots.apart_iff hsmall⟩
  intro name v
  rw [hget, ht.get?]
  simp

/-- Array parameters in a block do no harm before all other variables that take cells. -/
theorem leadingParams_apart :
    ∃ area, (Table.nested (.new .global)).extend [.param "p" .array, .array "e" 0,
        .param "q" .array, .int "x", .array "b" 2, .int "p", .param "k" .int] = .ok area ∧
      area.table.size.toNat < 2147483646 ∧ area.holdings.Pairwise Holding.Apart := by
  have hchecks : ((Table.nested (.new .global)).extend [.param "p" .array, .array "e" 0,
      .param "q" .array, .int "x", .array "b" 2, .int "p", .param "k" .int]).toOption.any
      (fun area => area.table.size.toNat < 2147483646) = true := by
    decide +kernel
  obtain ⟨area, harea, hsmall⟩ := (Option.any_eq_true _ _).1 hchecks
  have harea := eq_ok_of_toOption harea
  have hsmall := of_decide_eq_true hsmall
  obtain ⟨-, -, -, hiff⟩ := apart_iff_spares (.nested _) harea hsmall
  exact ⟨area, harea, hsmall, hiff.2 (by decide)⟩

/-- An array parameter that is declared in a block after a scalar is found in its cell. -/
theorem strayParam_shares_cell :
    ∃ area, (Table.new .block).extend [.int "x", .param "p" .array] = .ok area ∧
      area.table.size.toNat < 2147483646 ∧
      area.holdings.map (fun x => x.cells.toOption) = [some [⟨.bp, -1⟩], some [⟨.bp, -1⟩]] ∧
      ¬ area.holdings.Pairwise Holding.Apart := by
  have hchecks : ((Table.new .block).extend [.int "x", .param "p" .array]).toOption.any
      (fun area => area.table.size.toNat < 2147483646 ∧
        area.holdings.map (fun x => x.cells.toOption) =
          [some [⟨.bp, -1⟩], some [⟨.bp, -1⟩]]) = true := by
    decide +kernel
  obtain ⟨area, harea, hchecks⟩ := (Option.any_eq_true _ _).1 hchecks
  obtain ⟨hsmall, hcells⟩ := of_decide_eq_true hchecks
  refine ⟨area, eq_ok_of_toOption harea, hsmall, hcells, ?_⟩
  intro hapart
  obtain ⟨x, rest, hholdings, hx, hrest⟩ := List.map_eq_cons_iff.1 hcells
  obtain ⟨p, rest, rfl, hp, -⟩ := List.map_eq_cons_iff.1 hrest
  rw [hholdings] at hapart
  exact List.rel_of_pairwise_cons hapart List.mem_cons_self ⟨.bp, -1⟩
    ⟨_, eq_ok_of_toOption hx, List.mem_cons_self⟩ ⟨_, eq_ok_of_toOption hp, List.mem_cons_self⟩

end Table

end CMinus
