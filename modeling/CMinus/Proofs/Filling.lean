import CMinus.Proofs.Edits

namespace CMinus

/-- Lines for the slots from `start` on. -/
structure Fill where
  start : Nat
  lines : List Line

namespace Fill

/-- The first address behind the range. -/
def stop (f : Fill) : Nat :=
  f.start + f.lines.length

def Covers (f : Fill) (a : Nat) : Prop :=
  f.start ≤ a ∧ a < f.stop

/-- No address is in both ranges. An empty range has none. -/
def Disjoint (f g : Fill) : Prop :=
  ∀ a, f.Covers a → ¬ g.Covers a

def edits (f : Fill) : List Edit :=
  .rewind f.start :: f.lines.map .emit ++ [.resume]

def line? (f : Fill) (a : Nat) : Option Line :=
  if f.start ≤ a then f.lines[a - f.start]? else none

/-- The line that one of several ranges has for the address `a`. -/
def lineIn? (fills : List Fill) (a : Nat) : Option Line :=
  fills.findSome? (·.line? a)

variable {f g : Fill} {fills order : List Fill} {a : Nat} {line : Line}

theorem Disjoint.symm (h : f.Disjoint g) : g.Disjoint f :=
  fun a hg hf => h a hf hg

theorem covers_of_line? (h : f.line? a = some line) : f.Covers a := by
  rw [line?] at h
  split at h
  · next hle =>
    obtain ⟨hlt, -⟩ := List.getElem?_eq_some_iff.1 h
    exact ⟨hle, by rw [stop]; omega⟩
  · cases h

theorem line?_eq_none (h : ¬ f.Covers a) : f.line? a = none := by
  cases hline : f.line? a with
  | none => rfl
  | some line => exact absurd (covers_of_line? hline) h

theorem line?_start_add (f : Fill) (i : Nat) : f.line? (f.start + i) = f.lines[i]? := by
  rw [line?, if_pos (Nat.le_add_right ..), Nat.add_sub_cancel_left]

theorem line?_cons (start : Nat) (line : Line) (rest : List Line) (a : Nat) :
    (⟨start, line :: rest⟩ : Fill).line? a =
      ((⟨start + 1, rest⟩ : Fill).line? a).or (if start = a then some line else none) := by
  simp only [line?]
  rcases Nat.lt_trichotomy a start with hlt | rfl | hgt
  · rw [if_neg (by omega), if_neg (by omega), if_neg (by omega)]
    rfl
  · rw [if_pos (Nat.le_refl _), if_neg (by omega), if_pos rfl, Nat.sub_self]
    rfl
  · rw [if_pos (by omega), if_pos (by omega), if_neg (by omega), Option.or_none,
      show a - start = a - (start + 1) + 1 by omega, List.getElem?_cons_succ]

theorem lineIn?_cons (f : Fill) (fills : List Fill) (a : Nat) :
    lineIn? (f :: fills) a = (f.line? a).or (lineIn? fills a) := by
  rw [lineIn?, List.findSome?_cons]
  cases f.line? a <;> rfl

theorem exists_of_lineIn? (h : lineIn? fills a = some line) :
    ∃ f ∈ fills, f.line? a = some line :=
  List.exists_of_findSome?_eq_some h

theorem lineIn?_eq_none (h : ∀ f ∈ fills, ¬ f.Covers a) : lineIn? fills a = none :=
  List.findSome?_eq_none_iff.2 fun f hf => line?_eq_none (h f hf)

theorem lineIn?_eq_some_iff (h : fills.Pairwise Disjoint) :
    lineIn? fills a = some line ↔ ∃ f ∈ fills, f.line? a = some line := by
  refine ⟨exists_of_lineIn?, ?_⟩
  induction fills with
  | nil =>
    rintro ⟨f, hf, -⟩
    cases hf
  | cons g fills ih =>
    obtain ⟨hg, hfills⟩ := List.pairwise_cons.1 h
    rintro ⟨f, hf, hline⟩
    rw [lineIn?_cons]
    rcases List.mem_cons.1 hf with rfl | hf
    · rw [hline, Option.some_or]
    · have hnone : g.line? a = none :=
        line?_eq_none fun hcovers => hg f hf a hcovers (covers_of_line? hline)
      rw [hnone, Option.none_or]
      exact ih hfills ⟨f, hf, hline⟩

theorem lineIn?_perm (hperm : order.Perm fills) (h : fills.Pairwise Disjoint) :
    lineIn? order = lineIn? fills := by
  have horder : order.Pairwise Disjoint := hperm.symm.pairwise h Disjoint.symm
  funext a
  apply Option.ext
  intro line
  rw [lineIn?_eq_some_iff horder, lineIn?_eq_some_iff h]
  exact exists_congr fun f => and_congr_left' hperm.mem_iff

end Fill

namespace Stream

/-- The stream with lines laid over its slots, those that `line?` gives. -/
def overlay (s : Stream) (line? : Nat → Option Line) : Stream :=
  { s with
    slots := s.slots.mapIdx fun a slot => ((line? a).map (instruction s.trace a)).or slot }

@[simp]
theorem highWater_overlay (s : Stream) (line? : Nat → Option Line) :
    (s.overlay line?).highWater = s.highWater :=
  Array.size_mapIdx

theorem getElem?_overlay (s : Stream) (line? : Nat → Option Line) (a : Nat) :
    (s.overlay line?).slots[a]? =
      s.slots[a]?.map fun slot => ((line? a).map (instruction s.trace a)).or slot :=
  Array.getElem?_mapIdx

theorem overlay_overlay (s : Stream) (first second : Nat → Option Line) :
    (s.overlay first).overlay second = s.overlay fun a => (second a).or (first a) := by
  rw [overlay, overlay, overlay]
  congr 1
  apply Array.ext_getElem?
  intro a
  simp only [Array.getElem?_mapIdx, Option.map_map, Function.comp_def, Option.map_or,
    Option.or_assoc]

theorem overlay_of_none (s : Stream) (line? : Nat → Option Line) (h : ∀ a, line? a = none) :
    s.overlay line? = s := by
  rw [overlay]
  congr 1
  apply Array.ext_getElem?
  intro a
  simp [h]

/-- Writing over a slot that is in use lays one line over it. -/
theorem place_eq_overlay {s : Stream} (h : s.cursor < s.highWater) (line : Line) :
    s.place line =
      { s.overlay fun a => if s.cursor = a then some line else none with
        cursor := s.cursor + 1 } := by
  have hlt : s.cursor < s.slots.size := h
  have hgrow : grow s.slots (s.cursor + 1) = s.slots := by
    rw [grow, Nat.sub_eq_zero_of_le (Nat.succ_le_of_lt hlt), Array.replicate_zero,
      Array.append_empty]
  rw [place, overlay, hgrow]
  congr 1
  apply Array.ext_getElem?
  intro a
  rw [Array.getElem?_setIfInBounds, Array.getElem?_mapIdx]
  by_cases ha : s.cursor = a
  · subst ha
    rw [if_pos rfl, if_pos hlt, Array.getElem?_eq_getElem hlt]
    simp [instruction]
  · simp [ha]

theorem applyAll_append (s : Stream) (before after : List Edit) :
    s.applyAll (before ++ after) = s.applyAll before >>= (applyAll · after) := by
  induction before generalizing s with
  | nil => rfl
  | cons edit before ih =>
    rw [List.cons_append, applyAll, applyAll]
    cases s.apply edit with
    | error fault => rfl
    | ok r => exact ih r.2

theorem applyAll_emit {s : Stream} {lines : List Line} (hs : s.cursor + lines.length ≤ s.highWater)
    (hproper : ∀ line ∈ lines, Proper line) :
    s.applyAll (lines.map .emit) =
      .ok { s.overlay (Fill.line? ⟨s.cursor, lines⟩) with cursor := s.cursor + lines.length } := by
  induction lines generalizing s with
  | nil =>
    rw [overlay_of_none s _ fun a => by simp [Fill.line?]]
    rfl
  | cons line rest ih =>
    obtain ⟨hline, hrest⟩ := List.forall_mem_cons.1 hproper
    rw [List.length_cons] at hs
    have hplace := place_eq_overlay (s := s) (by omega) line
    have hih := ih (s := s.place line) (by rw [cursor_place, highWater_place]; omega) hrest
    rw [List.map_cons, applyAll, apply, emit_of_form s hline]
    refine hih.trans ?_
    have hlines : (s.place line).overlay (Fill.line? ⟨s.cursor + 1, rest⟩) =
        { s.overlay (Fill.line? ⟨s.cursor, line :: rest⟩) with cursor := s.cursor + 1 } := by
      rw [funext (Fill.line?_cons s.cursor line rest), ← overlay_overlay, hplace]
      rfl
    rw [cursor_place, hlines, List.length_cons, Nat.add_assoc, Nat.add_comm 1]

variable {s : Stream} {f : Fill} {fills order : List Fill}

/-- A fill of slots in use lays its lines over them, and the cursor is at the end again. -/
theorem applyAll_edits (hs : s.AtEnd) (hin : f.stop ≤ s.highWater)
    (hproper : ∀ line ∈ f.lines, Proper line) :
    s.applyAll f.edits = .ok (s.overlay f.line?) := by
  have hstart : f.start ≤ s.highWater := Nat.le_trans (Nat.le_add_right ..) hin
  have hemit := applyAll_emit (s := { s with cursor := f.start }) hin hproper
  have hback : ({ s.overlay f.line? with cursor := f.stop } : Stream).resume = s.overlay f.line? := by
    have hend : (s.overlay f.line?).highWater = s.cursor := (s.highWater_overlay f.line?).trans hs.symm
    exact congrArg (fun c => { s.overlay f.line? with cursor := c }) hend
  calc s.applyAll f.edits
      = ({ s with cursor := f.start } : Stream).applyAll (f.lines.map .emit ++ [.resume]) := by
        rw [Fill.edits, List.cons_append, applyAll, apply_rewind_of_le hstart, ok_bind]
    _ = ({ s.overlay f.line? with cursor := f.stop } : Stream).applyAll [.resume] := by
        rw [applyAll_append, hemit, ok_bind]
        rfl
    _ = .ok (s.overlay f.line?) := congrArg Except.ok hback

theorem applyAll_fills (hs : s.AtEnd) (hdisjoint : fills.Pairwise Fill.Disjoint)
    (hin : ∀ f ∈ fills, f.stop ≤ s.highWater)
    (hproper : ∀ f ∈ fills, ∀ line ∈ f.lines, Proper line) :
    s.applyAll (fills.flatMap Fill.edits) = .ok (s.overlay (Fill.lineIn? fills)) := by
  induction fills generalizing s with
  | nil =>
    rw [overlay_of_none s (Fill.lineIn? []) fun a => rfl]
    rfl
  | cons f fills ih =>
    obtain ⟨hf, hfills⟩ := List.pairwise_cons.1 hdisjoint
    obtain ⟨hinf, hinfills⟩ := List.forall_mem_cons.1 hin
    obtain ⟨hproperf, hproperfills⟩ := List.forall_mem_cons.1 hproper
    have hend : (s.overlay f.line?).AtEnd := hs.trans (s.highWater_overlay f.line?).symm
    have hih := ih hend hfills (by simpa using hinfills) hproperfills
    rw [List.flatMap_cons, applyAll_append, applyAll_edits hs hinf hproperf, ok_bind, hih,
      overlay_overlay]
    congr 2
    funext a
    rw [Fill.lineIn?_cons]
    -- No other range has a line where this one has.
    cases hline : f.line? a with
    | none => rw [Option.or_none, Option.none_or]
    | some line =>
      have hnone : Fill.lineIn? fills a = none :=
        Fill.lineIn?_eq_none fun g hg => hf g hg a (Fill.covers_of_line? hline)
      rw [hnone, Option.none_or, Option.some_or]

structure Patches (f : Fill) (s s' : Stream) : Prop where
  accepted : s.apply (.rewind f.start) = .ok (.done, { s with cursor := f.start })
  filled : s.applyAll f.edits = .ok s'
  cursor : s'.cursor = s.cursor
  highWater : s'.highWater = s.highWater
  outside : ∀ a, ¬ f.Covers a → s'.slots[a]? = s.slots[a]?

theorem patches_overlay (hs : s.AtEnd) (hin : f.stop ≤ s.highWater)
    (hproper : ∀ line ∈ f.lines, Proper line) : Patches f s (s.overlay f.line?) where
  accepted := apply_rewind_of_le (Nat.le_trans (Nat.le_add_right ..) hin)
  filled := applyAll_edits hs hin hproper
  cursor := rfl
  highWater := s.highWater_overlay f.line?
  outside a ha := by
    rw [getElem?_overlay, Fill.line?_eq_none ha]
    simp

/-- Disjoint ranges of a stream at its end can be filled in any order. No rewind is refused, each
fill leaves the cursor, the high-water mark and all other slots as they were, and every order ends
with the same code, in which each range holds its lines. -/
theorem code_of_fills (hs : s.AtEnd) (hdisjoint : fills.Pairwise Fill.Disjoint)
    (hin : ∀ f ∈ fills, f.stop ≤ s.highWater)
    (hproper : ∀ f ∈ fills, ∀ line ∈ f.lines, Proper line) :
    ∃ code : Code,
      (∀ order : List Fill, order.Perm fills →
        (∃ s', s.applyAll (order.flatMap Fill.edits) = .ok s' ∧ s'.finish = code) ∧
        ∀ before f after, order = before ++ f :: after →
          ∃ s₁ s₂, s.applyAll (before.flatMap Fill.edits) = .ok s₁ ∧ Patches f s₁ s₂) ∧
      (∀ f ∈ fills, ∀ i line, f.lines[i]? = some line →
        code.get? (f.start + i) = some (instruction s.trace (f.start + i) line)) ∧
      (∀ a, (∀ f ∈ fills, ¬ f.Covers a) → code.slots[a]? = s.slots[a]?) ∧
      code.size = s.highWater ∧ code.comments = s.finish.comments ∧ code.entries = s.entries := by
  refine ⟨(s.overlay (Fill.lineIn? fills)).finish, ?_, ?_, ?_, s.highWater_overlay _, rfl, rfl⟩
  · intro order hperm
    have horder : order.Pairwise Fill.Disjoint := hperm.symm.pairwise hdisjoint Fill.Disjoint.symm
    have hinorder : ∀ f ∈ order, f.stop ≤ s.highWater := fun f hf => hin f (hperm.mem_iff.1 hf)
    have hproperorder : ∀ f ∈ order, ∀ line ∈ f.lines, Proper line :=
      fun f hf => hproper f (hperm.mem_iff.1 hf)
    refine ⟨⟨_, applyAll_fills hs horder hinorder hproperorder, ?_⟩, ?_⟩
    · rw [Fill.lineIn?_perm hperm hdisjoint]
    · rintro before f after rfl
      obtain ⟨hbefore, -, -⟩ := List.pairwise_append.1 horder
      obtain ⟨hinbefore, hinf⟩ := List.forall_mem_append.1 hinorder
      obtain ⟨hproperbefore, hproperf⟩ := List.forall_mem_append.1 hproperorder
      have hbetween := applyAll_fills hs hbefore hinbefore hproperbefore
      refine ⟨_, _, hbetween, patches_overlay (hs.trans (s.highWater_overlay _).symm) ?_ ?_⟩
      · rw [highWater_overlay]
        exact hinf f List.mem_cons_self
      · exact hproperf f List.mem_cons_self
  · intro f hf i line hline
    have hlt : f.start + i < s.slots.size := by
      obtain ⟨hi, -⟩ := List.getElem?_eq_some_iff.1 hline
      have hstop : f.start + f.lines.length ≤ s.slots.size := hin f hf
      omega
    have hline? : Fill.lineIn? fills (f.start + i) = some line :=
      (Fill.lineIn?_eq_some_iff hdisjoint).2 ⟨f, hf, (f.line?_start_add i).trans hline⟩
    change (s.overlay (Fill.lineIn? fills)).slots[f.start + i]?.join = _
    rw [getElem?_overlay, hline?, Array.getElem?_eq_getElem hlt]
    rfl
  · intro a ha
    change (s.overlay (Fill.lineIn? fills)).slots[a]? = _
    rw [getElem?_overlay, Fill.lineIn?_eq_none ha]
    simp

/-- A test with two jumps left open, and an end that is written too early. -/
def openJumps : List Edit :=
  [.emit (.memory .ld .ax 0 .bx "test"), .reserve 1, .emit (.memory .ldc .ax 1 .ax "then"),
   .reserve 1, .emit (.registers .halt .ax .ax .ax "early")]

/-- The two jumps, and an end in the place of the early one. -/
def jumps : List Fill :=
  [⟨1, [.memory .jeq .ax 5 .zero "to end"]⟩,
   ⟨3, [.memory .lda .pc 5 .zero "to end", .memory .ldc .ax 0 .ax "late"]⟩]

theorem openJumps_filled :
    ∃ s s₁ s₂, (new true).applyAll openJumps = .ok s ∧ s.AtEnd ∧ jumps.Pairwise Fill.Disjoint ∧
      (∀ f ∈ jumps, f.stop ≤ s.highWater) ∧ (∀ f ∈ jumps, ∀ line ∈ f.lines, Proper line) ∧
      s.applyAll (jumps.flatMap Fill.edits) = .ok s₁ ∧
      s.applyAll (jumps.reverse.flatMap Fill.edits) = .ok s₂ ∧ s₁.finish = s₂.finish ∧
      (s₁.finish.get? 4).map (·.remark) = some (some "late") := by
  obtain ⟨s, hs⟩ : ∃ s, (new true).applyAll openJumps = .ok s := ⟨_, rfl⟩
  obtain ⟨hend, hhigh⟩ : s.AtEnd ∧ s.highWater = 5 := by
    cases hs
    exact ⟨rfl, rfl⟩
  have hdisjoint : jumps.Pairwise Fill.Disjoint := by
    simp only [jumps, List.pairwise_cons, List.mem_singleton, forall_eq, Fill.Disjoint,
      Fill.Covers, Fill.stop, List.length_cons, List.length_nil]
    exact ⟨fun a h => by omega, by simp⟩
  have hin : ∀ f ∈ jumps, f.stop ≤ s.highWater := by
    rw [hhigh]
    decide
  have hproper : ∀ f ∈ jumps, ∀ line ∈ f.lines, Proper line := by decide
  obtain ⟨code, horders, hlines, -⟩ := code_of_fills hend hdisjoint hin hproper
  obtain ⟨⟨s₁, hs₁, hcode₁⟩, -⟩ := horders jumps (.refl _)
  obtain ⟨⟨s₂, hs₂, hcode₂⟩, -⟩ := horders jumps.reverse (List.reverse_perm _)
  have hlate := hlines _ (List.mem_cons_of_mem _ List.mem_cons_self) 1 _ rfl
  have htrace : s.trace = true := by
    cases hs
    rfl
  refine ⟨s, s₁, s₂, hs, hend, hdisjoint, hin, hproper, hs₁, hs₂, hcode₁.trans hcode₂.symm, ?_⟩
  rw [hcode₁, hlate, htrace]
  rfl

end Stream

end CMinus
