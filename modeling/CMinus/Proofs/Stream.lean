import CMinus.Generate.Failure

namespace CMinus

namespace Stream

/-- The operation and the address in each slot. Remarks are left out. -/
def view (s : Stream) : List (Option (Operation × Nat)) :=
  s.slots.toList.map (Option.map fun i => (i.toOperation, i.address))

def AtEnd (s : Stream) : Prop :=
  s.cursor = s.highWater

@[simp]
theorem length_view (s : Stream) : s.view.length = s.highWater := by
  simp [view, highWater]

@[simp]
theorem view_comment (s : Stream) (text : String) : (s.comment text).view = s.view := by
  rw [view, slots_comment, view]

@[simp]
theorem highWater_comment (s : Stream) (text : String) :
    (s.comment text).highWater = s.highWater := by
  rw [highWater, slots_comment, highWater]

@[simp]
theorem entries_comment (s : Stream) (text : String) : (s.comment text).entries = s.entries := by
  rw [comment]
  split <;> rfl

/-- Cells that stand from the address `base` on. -/
def placed (base : Nat) : List (Option Operation) → List (Option (Operation × Nat))
  | [] => []
  | cell :: cells => cell.map (·, base) :: placed (base + 1) cells

@[simp]
theorem length_placed (base : Nat) (cells : List (Option Operation)) :
    (placed base cells).length = cells.length := by
  induction cells generalizing base with
  | nil => rfl
  | cons cell cells ih => simp only [placed, List.length_cons, ih]

theorem placed_append (base : Nat) (a b : List (Option Operation)) :
    placed base (a ++ b) = placed base a ++ placed (base + a.length) b := by
  induction a generalizing base with
  | nil => rfl
  | cons cell a ih =>
    simp only [List.cons_append, placed, ih, List.length_cons]
    rw [show base + 1 + a.length = base + (a.length + 1) by omega]

theorem getElem?_placed (base i : Nat) (cells : List (Option Operation)) :
    (placed base cells)[i]? = cells[i]?.map (Option.map (·, base + i)) := by
  induction cells generalizing base i with
  | nil => rfl
  | cons cell cells ih =>
    cases i with
    | zero => rfl
    | succ i =>
      simp only [placed, List.getElem?_cons_succ, ih]
      rw [show base + 1 + i = base + (i + 1) by omega]

/-- The cells that a list of lines fills. -/
def filled (lines : List Line) : List (Option Operation) :=
  lines.map fun line => some line.toOperation

@[simp]
theorem length_filled (lines : List Line) : (filled lines).length = lines.length :=
  List.length_map ..

theorem view_place {s : Stream} (h : s.cursor ≤ s.highWater) (line : Line) :
    (s.place line).view =
      s.view.take s.cursor ++ some (line.toOperation, s.cursor) :: s.view.drop (s.cursor + 1) := by
  have hview : (s.place line).view =
      (s.view ++ List.replicate (s.cursor + 1 - s.highWater) none).set s.cursor
        (some (line.toOperation, s.cursor)) := by
    simp [view, place, grow, List.map_set, highWater]
  rw [hview, List.set_eq_take_append_cons_drop, if_pos (by simp; omega)]
  by_cases hend : s.cursor = s.highWater
  · have hlen : s.view.length = s.cursor := by rw [length_view, hend]
    rw [List.take_append_of_le_length (Nat.le_of_eq hlen.symm),
      List.drop_of_length_le (by simp [hend]), List.drop_of_length_le (by simp [hend])]
  · have hlt : s.cursor + 1 ≤ s.highWater := by omega
    rw [show s.cursor + 1 - s.highWater = 0 by omega, List.replicate_zero, List.append_nil]

/-- A line whose operands have the form of its opcode. -/
def Proper (line : Line) : Prop :=
  line.opcode.form = line.operands.form

instance (line : Line) : Decidable (Proper line) :=
  inferInstanceAs (Decidable (_ = _))

theorem write_of_proper {s : Stream} {lines : List Line} (hs : s.cursor ≤ s.highWater)
    (h : ∀ line ∈ lines, Proper line) :
    ∃ s', s.write lines = .ok s' ∧ s'.cursor = s.cursor + lines.length ∧
      s'.entries = s.entries ∧
      s'.view = s.view.take s.cursor ++ placed s.cursor (filled lines) ++
        s.view.drop (s.cursor + lines.length) := by
  induction lines generalizing s with
  | nil => exact ⟨s, rfl, rfl, rfl, by simp [placed, filled]⟩
  | cons line rest ih =>
    have hplace : (s.place line).cursor ≤ (s.place line).highWater := by
      simp only [cursor_place, highWater_place]
      omega
    obtain ⟨s', hwrite, hcursor, hentries, hview⟩ :=
      ih hplace fun l hl => h l (List.mem_cons_of_mem _ hl)
    refine ⟨s', ?_, ?_, hentries, ?_⟩
    · rw [← hwrite, write, write, emitAll, emit_of_form s (h line List.mem_cons_self)]
    · rw [hcursor, cursor_place, List.length_cons]
      omega
    · have hlen : (s.view.take s.cursor).length = s.cursor := by
        simp only [List.length_take, length_view]
        omega
      rw [hview, cursor_place, view_place hs, List.take_append, List.drop_append, hlen]
      simp only [filled, List.map_cons, placed, List.length_cons, Option.map_some]
      rw [show s.cursor + 1 - s.cursor = 1 by omega,
        show s.cursor + 1 + rest.length - s.cursor = rest.length + 1 by omega]
      simp only [List.take_take, List.drop_take, List.take_succ_cons, List.take_zero,
        List.drop_succ_cons, List.drop_drop]
      rw [show min (s.cursor + 1) s.cursor = s.cursor by omega,
        show s.cursor - (s.cursor + 1 + rest.length) = 0 by omega,
        show s.cursor + 1 + rest.length = s.cursor + (rest.length + 1) by omega]
      simp

/-- `s'` is `s` with `cells` added at its end. -/
structure Appends (s s' : Stream) (cells : List (Option Operation)) : Prop where
  view : s'.view = s.view ++ placed s.cursor cells
  cursor : s'.cursor = s.cursor + cells.length
  entries : s'.entries = s.entries

namespace Appends

variable {s s' s'' : Stream} {cells more : List (Option Operation)}

theorem refl (s : Stream) : s.Appends s [] :=
  ⟨by simp [placed], rfl, rfl⟩

theorem highWater (h : s.Appends s' cells) : s'.highWater = s.highWater + cells.length := by
  rw [← length_view, h.view, List.length_append, length_view, length_placed]

theorem atEnd (h : s.Appends s' cells) (hs : s.AtEnd) : s'.AtEnd := by
  rw [AtEnd, h.cursor, h.highWater, hs]

theorem trans (h : s.Appends s' cells) (h' : s'.Appends s'' more) :
    s.Appends s'' (cells ++ more) where
  view := by rw [h'.view, h.view, h.cursor, placed_append, List.append_assoc]
  cursor := by rw [h'.cursor, h.cursor, List.length_append, Nat.add_assoc]
  entries := by rw [h'.entries, h.entries]

theorem comment (h : s.Appends s' cells) (text : String) : s.Appends (s'.comment text) cells where
  view := by rw [view_comment, h.view]
  cursor := by rw [cursor_comment, h.cursor]
  entries := by rw [entries_comment, h.entries]

theorem write (h : s.Appends s' cells) (hs : s.AtEnd) (lines : List Line)
    (hl : ∀ line ∈ lines, Proper line) :
    ∃ s'', s'.write lines = .ok s'' ∧ s.Appends s'' (cells ++ filled lines) := by
  have hend : s'.cursor = s'.highWater := h.atEnd hs
  obtain ⟨s'', hwrite, hcursor, hentries, hview⟩ := write_of_proper (Nat.le_of_eq hend) hl
  refine ⟨s'', hwrite, h.trans ⟨?_, ?_, hentries⟩⟩
  · rw [hview, hend, ← length_view, List.take_length, List.drop_eq_nil_of_le (Nat.le_add_right ..),
      List.append_nil]
  · rw [hcursor, length_filled]

theorem skip (h : s.Appends s' cells) (hs : s.AtEnd) (count : Nat)
    (hfit : s'.cursor + count < Size.limit) :
    ∃ s'', s'.skip count = .ok s'' ∧ s.Appends s'' (cells ++ List.replicate count none) := by
  have hend : s'.cursor = s'.slots.size := h.atEnd hs
  refine ⟨{ s' with slots := grow s'.slots (s'.cursor + count), cursor := s'.cursor + count },
    ?_, h.trans ⟨?_, ?_, rfl⟩⟩
  · rw [Stream.skip, reserve, if_pos hfit]
    rfl
  · have hplaced (base : Nat) : placed base (List.replicate count none) =
        List.replicate count none := by
      apply List.ext_getElem?
      intro i
      rw [getElem?_placed, List.getElem?_replicate, List.getElem?_replicate]
      split <;> rfl
    rw [hplaced, hend]
    simp [Stream.view, grow]
  · rw [List.length_replicate]

/-- Lines written over cells in the middle replace them, and the cursor returns to the end. -/
theorem patch {pre hole post : List (Option Operation)} (h : s.Appends s' (pre ++ hole ++ post))
    (hs : s.AtEnd) (lines : List Line) (hl : ∀ line ∈ lines, Proper line)
    (hlen : lines.length = hole.length) :
    ∃ s'', s'.patch (s.cursor + pre.length) lines = .ok s'' ∧
      s.Appends s'' (pre ++ filled lines ++ post) := by
  have hhigh := h.highWater
  simp only [List.length_append] at hhigh
  have hle : s.cursor + pre.length ≤ s'.highWater := by
    rw [hs, hhigh]
    omega
  obtain ⟨s'', hwrite, hcursor, hentries, hview⟩ :=
    write_of_proper (s := { s' with cursor := s.cursor + pre.length }) hle hl
  have hview' : s''.view = s.view ++ placed s.cursor (pre ++ filled lines ++ post) := by
    have hmoved : ({ s' with cursor := s.cursor + pre.length } : Stream).view =
        s.view ++ placed s.cursor (pre ++ hole ++ post) := h.view
    have hlow : s.cursor = s.view.length := by rw [length_view, hs]
    have hpre : (s.view ++ placed s.cursor pre).length = s.cursor + pre.length := by
      rw [List.length_append, length_placed, ← hlow]
    rw [hview, hmoved]
    simp only [placed_append, ← List.append_assoc]
    rw [List.append_assoc (s.view ++ placed s.cursor pre),
      List.take_append_of_le_length (Nat.le_of_eq hpre.symm),
      List.take_of_length_le (Nat.le_of_eq hpre),
      ← List.append_assoc (s.view ++ placed s.cursor pre),
      List.drop_append_of_le_length (by simp [← hlow]; omega),
      List.drop_of_length_le (by simp [← hlow]; omega)]
    simp only [List.length_append, length_filled, hlen, List.nil_append]
  have hhigh'' : s''.highWater = s'.highWater := by
    rw [← length_view, hview', hhigh]
    simp only [List.length_append, length_view, length_placed, length_filled, hlen]
  refine ⟨s''.resume, ?_, hview', ?_, ?_⟩
  · rw [Stream.patch, rewind?, if_pos hle]
    simp only [hwrite]
    rfl
  · rw [cursor_resume, hhigh'', hhigh, hs]
    simp only [List.length_append, length_filled, hlen]
  · exact hentries.trans h.entries

end Appends

end Stream

end CMinus
