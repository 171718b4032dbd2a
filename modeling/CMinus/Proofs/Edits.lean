import CMinus.Proofs.Compile
import CMinus.Proofs.Stream

namespace CMinus

/-- The cursor and the high-water mark, followed without any slots. -/
structure Gauge where
  cursor : Nat
  mark : Nat
  deriving DecidableEq

namespace Gauge

def start : Gauge := ⟨0, 0⟩

/-- Moves the cursor on. The mark goes with it when it is passed. -/
def advance (g : Gauge) (count : Nat) : Gauge where
  cursor := g.cursor + count
  mark := max g.mark (g.cursor + count)

def move (g : Gauge) : Edit → Gauge
  | .emit _ => g.advance 1
  | .reserve count => g.advance count
  | .rewind address => if address ≤ g.mark then { g with cursor := address } else g
  | .resume => { g with cursor := g.mark }
  | .comment _ | .entry _ _ => g

def after (g : Gauge) : List Edit → Gauge
  | [] => g
  | edit :: rest => (g.move edit).after rest

/-- All values of the cursor, the first one included. -/
def cursors (g : Gauge) : List Edit → List Nat
  | [] => [g.cursor]
  | edit :: rest => g.cursor :: (g.move edit).cursors rest

/-- The lines that edits write, each with the cursor at that time. -/
def written (g : Gauge) : List Edit → List (Nat × Line)
  | [] => []
  | .emit line :: rest => (g.cursor, line) :: (g.move (.emit line)).written rest
  | edit :: rest => (g.move edit).written rest

/-- The line that was written last while the cursor was at `a`. -/
def lastAt (a : Nat) (lines : List (Nat × Line)) : Option Line :=
  (lines.findRev? (·.1 = a)).map (·.2)

variable {g : Gauge}

theorem written_cons (g : Gauge) (edit : Edit) (rest : List Edit) :
    g.written (edit :: rest) = g.written [edit] ++ (g.move edit).written rest := by
  cases edit <;> rfl

theorem lastAt_concat (a c : Nat) (lines : List (Nat × Line)) (line : Line) :
    lastAt a (lines ++ [(c, line)]) = if c = a then some line else lastAt a lines := by
  rw [lastAt, lastAt, List.findRev?_eq_find?_reverse, List.findRev?_eq_find?_reverse,
    List.reverse_append, List.reverse_singleton, List.singleton_append, List.find?_cons]
  by_cases h : c = a <;> simp [h]

theorem mem_of_lastAt {a : Nat} {lines : List (Nat × Line)} {line : Line}
    (h : lastAt a lines = some line) : (a, line) ∈ lines := by
  rw [lastAt, List.findRev?_eq_find?_reverse, Option.map_eq_some_iff] at h
  obtain ⟨⟨c, line'⟩, hfind, rfl⟩ := h
  have hc := List.find?_some hfind
  rw [decide_eq_true_iff] at hc
  subst hc
  exact List.mem_reverse.1 (List.mem_of_find?_eq_some hfind)

/-- The cursor is never past the mark. -/
def Ordered (g : Gauge) : Prop :=
  g.cursor ≤ g.mark

theorem Ordered.move (h : g.Ordered) (edit : Edit) : (g.move edit).Ordered := by
  cases edit with
  | emit | reserve => exact Nat.le_max_right ..
  | rewind address =>
    rw [Gauge.move]
    split
    · assumption
    · exact h
  | resume => exact Nat.le_refl _
  | comment | entry => exact h

theorem mark_move (g : Gauge) (edit : Edit) :
    g.mark ≤ (g.move edit).mark ∧
      ((g.move edit).mark = g.mark ∨ (g.move edit).mark = (g.move edit).cursor) := by
  cases edit with
  | emit | reserve =>
    simp only [Gauge.move, advance]
    omega
  | rewind address =>
    rw [Gauge.move]
    split <;> exact ⟨Nat.le_refl _, .inl rfl⟩
  | resume | comment | entry => exact ⟨Nat.le_refl _, .inl rfl⟩

theorem head_mem_cursors (g : Gauge) (edits : List Edit) : g.cursor ∈ g.cursors edits := by
  cases edits <;> exact List.mem_cons_self

theorem mark_le_after (g : Gauge) (edits : List Edit) : g.mark ≤ (g.after edits).mark := by
  induction edits generalizing g with
  | nil => exact Nat.le_refl _
  | cons edit rest ih => exact Nat.le_trans (g.mark_move edit).1 (ih (g.move edit))

theorem Ordered.cursors_le (h : g.Ordered) (edits : List Edit) :
    ∀ c ∈ g.cursors edits, c ≤ (g.after edits).mark := by
  induction edits generalizing g with
  | nil =>
    intro c hc
    rw [List.mem_singleton.1 hc]
    exact h
  | cons edit rest ih =>
    intro c hc
    rcases List.mem_cons.1 hc with rfl | hc
    · exact Nat.le_trans h (g.mark_le_after (edit :: rest))
    · exact ih (h.move edit) c hc

theorem mark_after_mem (g : Gauge) (edits : List Edit) :
    (g.after edits).mark = g.mark ∨ (g.after edits).mark ∈ g.cursors edits := by
  induction edits generalizing g with
  | nil => exact .inl rfl
  | cons edit rest ih =>
    rcases ih (g.move edit) with hmark | hmem
    · rcases (g.mark_move edit).2 with hkept | hmoved
      · exact .inl (hmark.trans hkept)
      · have hhead := (g.move edit).head_mem_cursors rest
        rw [← hmoved, ← hmark] at hhead
        exact .inr (List.mem_cons_of_mem _ hhead)
    · exact .inr (List.mem_cons_of_mem _ hmem)

/-- The mark is the furthest place that the cursor has been to. -/
theorem max?_cursors (edits : List Edit) :
    (start.cursors edits).max? = some (start.after edits).mark := by
  rw [List.max?_eq_some_iff]
  refine ⟨?_, Ordered.cursors_le (Nat.le_refl _) edits⟩
  rcases start.mark_after_mem edits with hmark | hmem
  · rw [hmark]
    exact start.head_mem_cursors edits
  · exact hmem

end Gauge

namespace Stream

def applyAll (s : Stream) : List Edit → Except Fault Stream
  | [] => .ok s
  | edit :: rest => do
    let (_, s) ← s.apply edit
    s.applyAll rest

theorem applyAll_cons_eq_ok {s s' : Stream} {edit : Edit} {rest : List Edit}
    (h : s.applyAll (edit :: rest) = .ok s') :
    ∃ reply s₁, s.apply edit = .ok (reply, s₁) ∧ s₁.applyAll rest = .ok s' := by
  rw [applyAll, bind_eq_ok] at h
  obtain ⟨⟨reply, s₁⟩, happly, hrest⟩ := h
  exact ⟨reply, s₁, happly, hrest⟩

theorem applyAll_append_eq_ok {s s' : Stream} {before after : List Edit}
    (h : s.applyAll (before ++ after) = .ok s') : ∃ s₁, s.applyAll before = .ok s₁ := by
  induction before generalizing s with
  | nil => exact ⟨s, rfl⟩
  | cons edit before ih =>
    obtain ⟨reply, s₁, happly, hrest⟩ := applyAll_cons_eq_ok h
    obtain ⟨s₂, hbefore⟩ := ih hrest
    refine ⟨s₂, ?_⟩
    rw [applyAll, happly, ok_bind]
    exact hbefore

/-- The instruction that a line becomes at address `a`. -/
def instruction (trace : Bool) (a : Nat) (line : Line) : Instruction :=
  ⟨line.toOperation, a, if trace then some line.remark else none⟩

theorem getElem?_grow (slots : Array (Option Instruction)) (n a : Nat) :
    (grow slots n)[a]?.join = slots[a]?.join := by
  rw [grow, Array.getElem?_append]
  split
  · rfl
  · next h =>
    rw [Array.getElem?_eq_none (Nat.le_of_not_lt h), Array.getElem?_replicate]
    split <;> rfl

theorem getElem?_place (s : Stream) (line : Line) (a : Nat) :
    (s.place line).slots[a]?.join =
      if s.cursor = a then some (instruction s.trace a line) else s.slots[a]?.join := by
  have hlt : s.cursor < (grow s.slots (s.cursor + 1)).size := by
    rw [size_grow]
    omega
  rw [place, Array.getElem?_setIfInBounds]
  by_cases h : s.cursor = a
  · rw [if_pos h, if_pos h, if_pos hlt, ← h]
    rfl
  · rw [if_neg h, if_neg h, getElem?_grow]

/-- The stream `s` is where `g` says, and its slots hold what was written. -/
structure Tracks (trace : Bool) (g : Gauge) (lines : List (Nat × Line)) (s : Stream) : Prop where
  cursor : s.cursor = g.cursor
  mark : s.slots.size = g.mark
  ordered : g.Ordered
  traced : s.trace = trace
  slots : ∀ a, s.slots[a]?.join = (Gauge.lastAt a lines).map (instruction trace a)
  proper : ∀ entry ∈ lines, Proper entry.2

namespace Tracks

variable {trace : Bool} {g : Gauge} {lines : List (Nat × Line)} {s s' : Stream}

theorem new (trace : Bool) : (Stream.new trace).Tracks trace Gauge.start [] :=
  ⟨rfl, rfl, Nat.le_refl _, rfl, fun _ => rfl, fun _ h => (nomatch h)⟩

theorem emit (h : s.Tracks trace g lines) {line : Line} (hs : s.emit line = .ok s') :
    s'.Tracks trace (g.advance 1) (lines ++ [(g.cursor, line)]) := by
  rw [Stream.emit] at hs
  split at hs
  · next hform =>
    cases hs
    refine ⟨congrArg (· + 1) h.cursor, ?_, Nat.le_max_right .., h.traced, ?_, ?_⟩
    · have hmark := s.highWater_place line
      rw [highWater, highWater, h.mark, h.cursor] at hmark
      exact hmark
    · intro a
      rw [getElem?_place, Gauge.lastAt_concat, h.cursor, h.traced, h.slots]
      split <;> rfl
    · intro entry hentry
      rcases List.mem_append.1 hentry with hentry | hentry
      · exact h.proper entry hentry
      · cases List.mem_singleton.1 hentry
        exact hform
  · cases hs

theorem reserve (h : s.Tracks trace g lines) {count : Nat} (hs : s.reserve count = .ok s') :
    s'.Tracks trace (g.advance count) lines := by
  simp only [Stream.reserve] at hs
  split at hs
  · cases hs
    refine ⟨congrArg (· + count) h.cursor, ?_, Nat.le_max_right .., h.traced, ?_, h.proper⟩
    · rw [size_grow, h.mark, h.cursor, Gauge.advance]
    · intro a
      rw [getElem?_grow, h.slots]
  · cases hs

theorem goto (h : s.Tracks trace g lines) {c : Nat} (hc : c ≤ g.mark) :
    ({ s with cursor := c } : Stream).Tracks trace { g with cursor := c } lines :=
  ⟨rfl, h.mark, hc, h.traced, h.slots, h.proper⟩

theorem comment (h : s.Tracks trace g lines) (text : String) :
    (s.comment text).Tracks trace g lines := by
  rw [Stream.comment]
  split
  · exact ⟨h.cursor, h.mark, h.ordered, h.traced, h.slots, h.proper⟩
  · exact h

/-- What one edit does to the stream, the gauge and the lines written. -/
theorem apply (h : s.Tracks trace g lines) {edit : Edit} {reply : Reply}
    (hs : s.apply edit = .ok (reply, s')) :
    s'.Tracks trace (g.move edit) (lines ++ g.written [edit]) := by
  have hnone {s' : Stream} {g' : Gauge} (h' : s'.Tracks trace g' lines) :
      s'.Tracks trace g' (lines ++ []) :=
    (List.append_nil lines).symm ▸ h'
  cases edit with
  | emit line =>
    rw [Stream.apply] at hs
    cases hemit : s.emit line with
    | error fault =>
      rw [hemit] at hs
      cases hs
    | ok s₁ =>
      rw [hemit] at hs
      cases hs
      exact h.emit hemit
  | reserve count =>
    rw [Stream.apply] at hs
    cases hreserve : s.reserve count with
    | error fault =>
      rw [hreserve] at hs
      cases hs
    | ok s₁ =>
      rw [hreserve] at hs
      cases hs
      exact hnone (h.reserve hreserve)
  | rewind address =>
    rw [Stream.apply, rewind?, highWater, h.mark] at hs
    rw [Gauge.move]
    split at hs
    · next heq =>
      split at heq
      · next hle =>
        cases heq
        cases hs
        rw [if_pos hle]
        exact hnone (h.goto hle)
      · cases heq
    · next heq =>
      split at heq
      · cases heq
      · next hgt =>
        cases hs
        rw [if_neg hgt]
        exact hnone (h.comment _)
  | resume =>
    cases hs
    rw [resume, highWater, h.mark]
    exact hnone (h.goto (Nat.le_refl _))
  | comment text =>
    cases hs
    exact hnone (h.comment text)
  | entry name address =>
    cases hs
    exact hnone ⟨h.cursor, h.mark, h.ordered, h.traced, h.slots, h.proper⟩

theorem applyAll (h : s.Tracks trace g lines) {edits : List Edit}
    (hs : s.applyAll edits = .ok s') :
    s'.Tracks trace (g.after edits) (lines ++ g.written edits) := by
  induction edits generalizing s g lines with
  | nil =>
    cases hs
    rw [Gauge.written, List.append_nil]
    exact h
  | cons edit rest ih =>
    obtain ⟨reply, s₁, happly, hrest⟩ := applyAll_cons_eq_ok hs
    rw [Gauge.written_cons, ← List.append_assoc]
    exact ih (h.apply happly) hrest

end Tracks

theorem apply_rewind_of_le {s : Stream} {address : Nat} (h : address ≤ s.highWater) :
    s.apply (.rewind address) = .ok (.done, { s with cursor := address }) := by
  rw [apply, rewind?, if_pos h]

/-- The comments of a stream that has refused to rewind to `address`. -/
def complaint (s : Stream) (address : Nat) : Array Comment :=
  if s.trace then s.comments.push ⟨s.cursor, s!"BUG in rewind to {address}"⟩ else s.comments

theorem apply_rewind_of_lt {s : Stream} {address : Nat} (h : s.highWater < address) :
    s.apply (.rewind address) =
      .ok (.beyond address s.highWater, { s with comments := s.complaint address }) := by
  have hrefuse : s.refuse address = { s with comments := s.complaint address } := by
    rw [refuse, comment, complaint]
    split <;> rfl
  rw [← hrefuse, apply, rewind?_eq_none_iff.2 h]

/-- The stream `s`, reached by `edits`, is a map from addresses to instructions. -/
structure Charted (trace : Bool) (edits : List Edit) (s : Stream) : Prop where
  /-- The mark that is raised with the cursor counts the slots. -/
  gauge : Gauge.start.after edits = ⟨s.cursor, s.slots.size⟩
  bounded : s.cursor ≤ s.highWater
  greatest : (Gauge.start.cursors edits).max? = some s.highWater
  size : s.finish.size = s.highWater
  get? : ∀ a, s.finish.get? a =
    (Gauge.lastAt a (Gauge.start.written edits)).map (instruction trace a)
  formed : ∀ a i, s.finish.get? a = some i → i.address = a ∧ i.opcode.form = i.operands.form
  accepts : ∀ address ≤ s.highWater,
    s.apply (.rewind address) = .ok (.done, { s with cursor := address })
  /-- A refused rewind leaves nothing behind but a comment. -/
  refuses : ∀ address > s.highWater,
    s.apply (.rewind address) =
      .ok (.beyond address s.highWater, { s with comments := s.complaint address })

theorem Tracks.charted {trace : Bool} {edits : List Edit} {s : Stream}
    (h : s.Tracks trace (Gauge.start.after edits) (Gauge.start.written edits)) :
    s.Charted trace edits := by
  have hhigh : s.highWater = (Gauge.start.after edits).mark := h.mark
  refine ⟨?_, ?_, ?_, rfl, h.slots, ?_, fun _ => apply_rewind_of_le, fun _ => apply_rewind_of_lt⟩
  · rw [h.cursor, h.mark]
  · rw [hhigh, h.cursor]
    exact h.ordered
  · rw [hhigh]
    exact Gauge.max?_cursors edits
  · intro a i hget
    obtain ⟨line, hline, rfl⟩ := Option.map_eq_some_iff.1 ((h.slots a).symm.trans hget)
    exact ⟨rfl, h.proper _ (Gauge.mem_of_lastAt hline)⟩

/-- A stream is a map from addresses to instructions, at every point of every run of edits. -/
theorem charted_of_applyAll {trace : Bool} {edits : List Edit} {s : Stream}
    (h : (new trace).applyAll edits = .ok s) {before after : List Edit}
    (hsplit : edits = before ++ after) :
    ∃ s', (new trace).applyAll before = .ok s' ∧ s'.Charted trace before := by
  subst hsplit
  obtain ⟨s', hs'⟩ := applyAll_append_eq_ok h
  have htracks := (Tracks.new trace).applyAll hs'
  exact ⟨s', hs', htracks.charted⟩

/-- A run that fills part of a reservation twice, skips over filled slots and rewinds too far. -/
def rewrites : List Edit :=
  [.reserve 3, .rewind 1, .emit (.memory .ldc .ax 1 .ax "first"),
   .rewind 1, .emit (.memory .ldc .ax 2 .ax "second"), .rewind 0, .reserve 2, .rewind 4,
   .emit (.registers .halt .ax .ax .ax "stop"), .emit (.registers .halt .ax .ax .ax "stop")]

theorem rewrites_charted :
    ∃ s, (new true).applyAll rewrites = .ok s ∧ s.Charted true rewrites ∧ s.finish.size = 4 ∧
      (s.finish.get? 1).map (·.remark) = some (some "second") ∧ s.finish.get? 0 = none := by
  obtain ⟨s, hs⟩ : ∃ s, (new true).applyAll rewrites = .ok s := ⟨_, rfl⟩
  obtain ⟨s', hs', hcharted⟩ := charted_of_applyAll hs (List.append_nil rewrites).symm
  cases hs.symm.trans hs'
  refine ⟨s, hs, hcharted, ?_, ?_, ?_⟩
  · have hmark := congrArg Gauge.mark hcharted.gauge
    exact hmark.symm
  · rw [hcharted.get?]
    rfl
  · rw [hcharted.get?]
    rfl

end Stream

end CMinus
