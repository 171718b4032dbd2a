import CMinus.Proofs.Cells
import Mathlib.Data.List.Chain

namespace CMinus

namespace Declaration

/-- What a declaration says of its variable when `n` cells are taken before it. -/
structure Gives (d : Declaration) (s : Scope) (n : Nat) (v : Variable) : Prop where
  scope : v.scope = s
  ty : v.ty = d.ty
  offset : v.offset.toNat = n + d.skip s

/-- The declarations that are not refused, when the names `known` are declared already. -/
def accepted (known : List String) : List Declaration → List Declaration
  | [] => []
  | d :: rest =>
    if d.name ∈ known then accepted known rest else d :: accepted (d.name :: known) rest

/-- What it takes for the variable of a later declaration `e` to get the larger offset: an array in
place has two elements or more, or one if `e` declares an array in place, too. -/
def Advances (scope : Scope) (d e : Declaration) : Prop :=
  d.inPlace scope = true →
    2 ≤ d.cells scope ∨ d.cells scope = 1 ∧ e.inPlace scope = true

instance (scope : Scope) (d e : Declaration) : Decidable (d.Advances scope e) :=
  inferInstanceAs (Decidable (_ → _))

theorem cells_of_not_inPlace {scope : Scope} {d : Declaration} (h : d.inPlace scope = false) :
    d.cells scope = 1 := by
  cases d with
  | int name => rfl
  | param name ty => rfl
  | array name length =>
    have hparam : scope = .param := by simpa [inPlace] using h
    rw [hparam, cells_param]

theorem skip_of_not_inPlace {scope : Scope} {d : Declaration} (h : d.inPlace scope = false) :
    d.skip scope = 0 :=
  if_neg (Bool.eq_false_iff.1 h)

/-- Two declarations advance when the cells of the first make up for what its offset skips. -/
theorem advances_iff {scope : Scope} {d e : Declaration} :
    d.Advances scope e ↔ d.skip scope < d.cells scope + e.skip scope := by
  cases hd : d.inPlace scope with
  | false =>
    have hskip := skip_of_not_inPlace hd
    have hcells := cells_of_not_inPlace hd
    refine ⟨fun _ => by omega, fun _ htrue => ?_⟩
    cases hd.symm.trans htrue
  | true =>
    have hskip : d.skip scope = 1 := if_pos hd
    constructor
    · intro h
      rcases h hd with hcells | ⟨hcells, he⟩
      · omega
      · have hnext : e.skip scope = 1 := if_pos he
        omega
    · intro h _
      cases he : e.inPlace scope with
      | false =>
        have hnext := skip_of_not_inPlace he
        exact .inl (by omega)
      | true =>
        have hnext : e.skip scope = 1 := if_pos he
        rcases Nat.lt_or_ge 1 (d.cells scope) with hcells | hcells
        · exact .inl hcells
        · exact .inr ⟨by omega, rfl⟩

end Declaration

/-- The declarations give the variables the cells with the numbers from `n` to `stop`, one
declaration after the other. -/
inductive Allots (scope : Scope) : Nat → List Declaration → List Holding → Nat → Prop
  | nil {n : Nat} : Allots scope n [] [] n
  | cons {n stop : Nat} {d : Declaration} {v : Variable} {ds : List Declaration}
      {hs : List Holding} : d.Gives scope n v → Allots scope (n + d.cells scope) ds hs stop →
      Allots scope n (d :: ds) (⟨d.name, v, d.cells scope⟩ :: hs) stop

namespace Allots

variable {scope : Scope} {n stop : Nat} {ds : List Declaration} {hs : List Holding}

theorem le (h : Allots scope n ds hs stop) : n ≤ stop := by
  induction h with
  | nil => exact Nat.le_refl _
  | cons _ _ ih => omega

theorem names (h : Allots scope n ds hs stop) :
    hs.map Holding.name = ds.map Declaration.name := by
  induction h with
  | nil => rfl
  | cons _ _ ih => rw [List.map_cons, List.map_cons, ih]

theorem le_offset (h : Allots scope n ds hs stop) {p : Declaration × Holding}
    (hp : p ∈ ds.zip hs) : n + p.1.skip scope ≤ p.2.symbol.offset.toNat := by
  induction h with
  | nil => cases hp
  | cons hgives _ ih =>
    rcases List.mem_cons.1 hp with rfl | hp
    · exact hgives.offset.ge
    · have := ih hp
      omega

/-- The later of two variables has the larger offset, however many lie between them, if their
declarations advance. -/
theorem pairwise_offsets (h : Allots scope n ds hs stop) :
    (ds.zip hs).Pairwise fun a b =>
      a.1.Advances scope b.1 → a.2.symbol.offset < b.2.symbol.offset := by
  induction h with
  | nil => exact .nil
  | @cons n stop d v ds hs hgives hrest ih =>
    refine List.pairwise_cons.2 ⟨?_, ih⟩
    intro p hp hadvances
    have hle := hrest.le_offset hp
    have hlt : d.skip scope < d.cells scope + p.1.skip scope :=
      Declaration.advances_iff.1 hadvances
    rw [UInt64.lt_iff_toNat_lt, hgives.offset]
    omega

theorem isChain_offsets_iff (h : Allots scope n ds hs stop) :
    (hs.map fun x => x.symbol.offset).IsChain (· < ·) ↔
      ds.IsChain (Declaration.Advances scope) := by
  induction h with
  | nil => simp
  | cons hgives hrest ih =>
    cases hrest with
    | nil => simp
    | cons hnext hrest =>
      rw [List.map_cons] at ih
      rw [List.map_cons, List.map_cons, List.isChain_cons_cons, List.isChain_cons_cons, ih,
        UInt64.lt_iff_toNat_lt, hgives.offset, hnext.offset, Declaration.advances_iff,
        Nat.add_assoc, Nat.add_lt_add_iff_left]

end Allots

namespace Table

/-- A table in which nothing is declared yet. -/
inductive Fresh : Table → Prop
  | new (scope : Scope) : Fresh (.new scope)
  | nested (parent : Table) : Fresh parent.nested

theorem Fresh.get? {t : Table} (h : t.Fresh) (name : String) : t.get? name = none := by
  cases h <;> rfl

theorem gives_of_declare {t t' : Table} {d : Declaration} {v : Variable}
    (h : t.declare d = .ok (v, t')) : d.Gives t.scope t.size.toNat v := by
  obtain ⟨offset, cells, hoffset, -, halloc⟩ := allocate_of_declare h
  obtain rfl := allocate_symbol halloc
  exact ⟨rfl, rfl, hoffset⟩

theorem allots_extend {t : Table} {declarations : List Declaration} {area : Area}
    {known : List String} (hknown : ∀ name, name ∈ known ↔ t.get? name ≠ none)
    (h : t.extend declarations = .ok area) :
    Allots t.scope t.size.toNat (Declaration.accepted known declarations) area.holdings
      area.table.size.toNat := by
  induction declarations generalizing t known area with
  | nil =>
    cases h
    exact .nil
  | cons d rest ih =>
    rw [Declaration.accepted]
    rcases extend_cons_eq_ok h with ⟨hrefused, h⟩ | ⟨v, t', later, hdeclare, hlater, rfl⟩
    · rw [if_pos ((hknown d.name).2 hrefused)]
      exact ih hknown h
    · obtain ⟨hnew, hscope, -, hsize, hget⟩ := declare_spec hdeclare
      have hunknown : d.name ∉ known := by
        rw [hknown, not_not]
        exact hnew
      have hknown' (name : String) : name ∈ d.name :: known ↔ t'.get? name ≠ none := by
        rw [List.mem_cons, hknown, hget]
        by_cases heq : name = d.name <;> simp [heq]
      have hallots := ih hknown' hlater
      rw [hscope, hsize] at hallots
      rw [if_neg hunknown]
      exact .cons (gives_of_declare hdeclare) hallots

theorem Fresh.allots {t : Table} {declarations : List Declaration} {area : Area} (ht : t.Fresh)
    (h : t.extend declarations = .ok area) :
    Allots t.scope t.size.toNat (Declaration.accepted [] declarations) area.holdings
      area.table.size.toNat :=
  allots_extend (fun name => by simp [ht.get? name]) h

/-- Declarations in a fresh table are accepted by their names alone. Of two accepted ones that
advance, the later gets the larger offset; and all offsets increase in the order of the
declarations if and only if each accepted one and the next advance. -/
theorem increasing_offsets_iff {t : Table} {declarations : List Declaration} {area : Area}
    (ht : t.Fresh) (h : t.extend declarations = .ok area) :
    area.holdings.map Holding.name =
        (Declaration.accepted [] declarations).map Declaration.name ∧
      ((Declaration.accepted [] declarations).zip area.holdings).Pairwise (fun a b =>
        a.1.Advances t.scope b.1 → a.2.symbol.offset < b.2.symbol.offset) ∧
      ((area.holdings.map fun x => x.symbol.offset).Pairwise (· < ·) ↔
        (Declaration.accepted [] declarations).IsChain (Declaration.Advances t.scope)) := by
  have hallots := ht.allots h
  refine ⟨hallots.names, hallots.pairwise_offsets, ?_⟩
  have htrans : Trans (fun a b : Size => a < b) (fun a b => a < b) (fun a b => a < b) :=
    ⟨UInt64.lt_trans⟩
  rw [← List.isChain_iff_pairwise]
  exact hallots.isChain_offsets_iff

theorem adjacentArrays_increasing :
    ∃ area, (Table.new .block).extend
        [.array "a" 1, .array "b" 2, .int "x", .int "a", .param "p" .array] = .ok area ∧
      area.holdings.map Holding.name = ["a", "b", "x", "p"] ∧
      (area.holdings.map fun x => x.symbol.offset).Pairwise (· < ·) := by
  have hchecks : ((Table.new .block).extend [.array "a" 1, .array "b" 2, .int "x", .int "a",
      .param "p" .array]).toOption.isSome = true := by
    decide +kernel
  obtain ⟨area, harea⟩ := Option.isSome_iff_exists.1 hchecks
  have harea := eq_ok_of_toOption harea
  obtain ⟨hnames, -, hiff⟩ := increasing_offsets_iff (.new .block) harea
  exact ⟨area, harea, hnames, hiff.2 (by decide)⟩

/-- An array of one element and the scalar behind it get the same offset. -/
theorem oneElement_repeats_offset :
    ∃ area, (Table.new .block).extend [.array "a" 1, .int "x"] = .ok area ∧
      area.holdings.map (fun x => x.symbol.offset) = [1, 1] ∧
      ¬ (area.holdings.map fun x => x.symbol.offset).Pairwise (· < ·) ∧
      ¬ (area.holdings.map fun x => x.symbol.offset).Nodup := by
  have hchecks : ((Table.new .block).extend [.array "a" 1, .int "x"]).toOption.any (fun area =>
      area.holdings.map (fun x => x.symbol.offset) = [1, 1]) = true := by
    decide +kernel
  obtain ⟨area, harea, hoffsets⟩ := (Option.any_eq_true _ _).1 hchecks
  have hoffsets := of_decide_eq_true hoffsets
  refine ⟨area, eq_ok_of_toOption harea, hoffsets, ?_, ?_⟩
  · rw [hoffsets]
    decide
  · rw [hoffsets]
    decide

end Table

end CMinus
