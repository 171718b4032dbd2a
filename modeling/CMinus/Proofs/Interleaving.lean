import CMinus.Proofs.Edits
import CMinus.Proofs.Listing
import Mathlib.Data.List.Perm.Basic

namespace CMinus

namespace Gauge

/-- The comment that an edit leaves in a traced stream. -/
def note? (g : Gauge) : Edit → Option Comment
  | .comment text => some ⟨g.cursor, text⟩
  | .rewind address =>
    if address ≤ g.mark then none else some ⟨g.cursor, s!"BUG in rewind to {address}"⟩
  | .emit _ | .reserve _ | .resume | .entry _ _ => none

/-- The comments that edits leave in a traced stream, in the order in which they are made. -/
def notes (g : Gauge) : List Edit → List Comment
  | [] => []
  | edit :: rest => (g.note? edit).toList ++ (g.move edit).notes rest

variable {g : Gauge}

theorem address_note? {edit : Edit} {c : Comment} (h : g.note? edit = some c) :
    c.address = g.cursor := by
  cases edit with
  | comment text =>
    cases h
    rfl
  | rewind address =>
    rw [note?] at h
    split at h
    · cases h
    · cases h
      rfl
  | emit | reserve | resume | entry => cases h

theorem Ordered.address_notes (h : g.Ordered) (edits : List Edit) :
    ∀ c ∈ g.notes edits, c.address ≤ (g.after edits).mark := by
  induction edits generalizing g with
  | nil =>
    intro c hc
    cases hc
  | cons edit rest ih =>
    intro c hc
    rcases List.mem_append.1 hc with hc | hc
    · rw [address_note? (Option.mem_toList.1 hc)]
      exact Nat.le_trans h (g.mark_le_after (edit :: rest))
    · exact ih (h.move edit) c hc

end Gauge

namespace Comment

/-- The comments at the address `a`, in their order. -/
def allAt (a : Nat) (comments : List Comment) : List Comment :=
  comments.filter (·.address = a)

theorem allAt_append (a : Nat) (comments more : List Comment) :
    allAt a (comments ++ more) = allAt a comments ++ allAt a more :=
  List.filter_append ..

theorem allAt_eq_self {a : Nat} {comments : List Comment} (h : ∀ c ∈ comments, c.address = a) :
    allAt a comments = comments :=
  List.filter_eq_self.2 fun c hc => decide_eq_true (h c hc)

theorem allAt_eq_nil {a : Nat} {comments : List Comment} (h : ∀ c ∈ comments, c.address ≠ a) :
    allAt a comments = [] :=
  List.filter_eq_nil_iff.2 fun c hc => by simpa using h c hc

def Sorted (comments : List Comment) : Prop :=
  comments.Pairwise (·.address ≤ ·.address)

theorem Sorted.lt_of_mem_dropWhile {comments : List Comment} (h : Sorted comments) {a : Nat}
    {c : Comment} (hc : c ∈ comments.dropWhile (·.address ≤ a)) : a < c.address := by
  induction comments with
  | nil => cases hc
  | cons first rest ih =>
    obtain ⟨hfirst, hrest⟩ := List.pairwise_cons.1 h
    rw [List.dropWhile_cons] at hc
    split at hc
    · exact ih hrest hc
    · next hlt =>
      rw [decide_eq_true_iff, Nat.not_le] at hlt
      rcases List.mem_cons.1 hc with rfl | hc
      · exact hlt
      · exact Nat.lt_of_lt_of_le hlt (hfirst c hc)

theorem address_of_mem_takeWhile {comments : List Comment} {a : Nat} {c : Comment}
    (hc : c ∈ comments.takeWhile (·.address ≤ a)) : c.address ≤ a := by
  have := List.all_eq_true.1 (List.all_takeWhile (p := fun c : Comment => decide (c.address ≤ a))) c hc
  exact of_decide_eq_true this

theorem Sorted.takeWhile_eq {comments : List Comment} (h : Sorted comments) {a : Nat}
    (hlow : ∀ c ∈ comments, a ≤ c.address) :
    comments.takeWhile (·.address ≤ a) = allAt a comments := by
  have htake : allAt a (comments.takeWhile (·.address ≤ a)) =
      comments.takeWhile (·.address ≤ a) :=
    allAt_eq_self fun c hc =>
      Nat.le_antisymm (address_of_mem_takeWhile hc) (hlow c (List.takeWhile_subset _ hc))
  have hdrop : allAt a (comments.dropWhile (·.address ≤ a)) = [] :=
    allAt_eq_nil fun c hc => Nat.ne_of_gt (h.lt_of_mem_dropWhile hc)
  rw [← htake, ← List.append_nil (allAt a _), ← hdrop, ← allAt_append,
    List.takeWhile_append_dropWhile]

theorem allAt_dropWhile {comments : List Comment} {a b : Nat} (hlt : a < b) :
    allAt b (comments.dropWhile (·.address ≤ a)) = allAt b comments := by
  have htake : allAt b (comments.takeWhile (·.address ≤ a)) = [] := by
    refine allAt_eq_nil fun c hc => Nat.ne_of_lt ?_
    exact Nat.lt_of_le_of_lt (address_of_mem_takeWhile hc) hlt
  rw [← List.nil_append (allAt b _), ← htake, ← allAt_append, List.takeWhile_append_dropWhile]

theorem address_trans (c d e : Comment) (hcd : decide (c.address ≤ d.address) = true)
    (hde : decide (d.address ≤ e.address) = true) : decide (c.address ≤ e.address) = true :=
  decide_eq_true (Nat.le_trans (of_decide_eq_true hcd) (of_decide_eq_true hde))

theorem address_total (c d : Comment) :
    (decide (c.address ≤ d.address) || decide (d.address ≤ c.address)) = true := by
  simpa using Nat.le_total c.address d.address

/-- The sort by address keeps the order of comments at one address. -/
theorem allAt_mergeSort (a : Nat) (comments : List Comment) :
    allAt a (comments.mergeSort fun c d => c.address ≤ d.address) = allAt a comments := by
  have hperm : (allAt a (comments.mergeSort fun c d => c.address ≤ d.address)).Perm
      (allAt a comments) := (List.mergeSort_perm ..).filter _
  have hat (c : Comment) (hc : c ∈ allAt a comments) : c.address = a :=
    of_decide_eq_true (List.mem_filter.1 hc).2
  have hsorted : (allAt a comments).Pairwise fun c d => decide (c.address ≤ d.address) = true := by
    rw [List.pairwise_iff_forall_sublist]
    intro c d hsub
    rw [hat c (hsub.subset (by simp)), hat d (hsub.subset (by simp))]
    simp
  have hsub : (allAt a comments).Sublist (comments.mergeSort fun c d => c.address ≤ d.address) :=
    List.sublist_mergeSort address_trans address_total hsorted List.filter_sublist
  have hkept : (allAt a comments).Sublist
      (allAt a (comments.mergeSort fun c d => c.address ≤ d.address)) := by
    have := hsub.filter (·.address = a)
    rwa [List.filter_eq_self.2 fun c hc => decide_eq_true (hat c hc)] at this
  exact (hkept.eq_of_length hperm.length_eq.symm).symm

end Comment

namespace Code

/-- The lines of `code` in address order, with the comments at an address in front of its
instruction. -/
def merged (code : Code) (comments : List Comment) : List String :=
  (List.range code.size).flatMap (fun a =>
    (Comment.allAt a comments).map Comment.line ++ (code.get? a).toList.map Instruction.text) ++
  (Comment.allAt code.size comments).map Comment.line

theorem linesFrom_eq (address : Nat) (slots : List (Option Instruction)) {comments : List Comment}
    (hsorted : Comment.Sorted comments) (hlow : ∀ c ∈ comments, address ≤ c.address)
    (hhigh : ∀ c ∈ comments, c.address ≤ address + slots.length)
    (get? : Nat → Option Instruction) (hslots : ∀ i, slots[i]?.join = get? (address + i)) :
    linesFrom address slots comments =
      (List.range' address slots.length).flatMap (fun a =>
        (Comment.allAt a comments).map Comment.line ++ (get? a).toList.map Instruction.text) ++
      (Comment.allAt (address + slots.length) comments).map Comment.line := by
  induction slots generalizing address comments with
  | nil =>
    have hall : Comment.allAt (address + 0) comments = comments :=
      Comment.allAt_eq_self fun c hc => Nat.le_antisymm (hhigh c hc) (hlow c hc)
    rw [linesFrom, List.length_nil, hall]
    rfl
  | cons slot slots ih =>
    have hsuffix := List.dropWhile_suffix (l := comments) fun c => decide (c.address ≤ address)
    have hrest := ih (address + 1) (hsorted.sublist hsuffix.sublist)
      (fun c hc => hsorted.lt_of_mem_dropWhile hc)
      (fun c hc => by
        have := hhigh c (hsuffix.subset hc)
        rw [List.length_cons] at this
        omega)
      (fun i => by rw [Nat.add_assoc, Nat.add_comm 1, ← hslots, List.getElem?_cons_succ])
    have hfirst : slot = get? address := hslots 0
    have hlater : ∀ a ∈ List.range' (address + 1) slots.length,
        (Comment.allAt a (comments.dropWhile (·.address ≤ address))).map Comment.line ++
            (get? a).toList.map Instruction.text =
          (Comment.allAt a comments).map Comment.line ++
            (get? a).toList.map Instruction.text := by
      intro a ha
      rw [Comment.allAt_dropWhile (List.mem_range'_1.1 ha).1]
    rw [linesFrom, hrest, List.length_cons, List.range'_succ, List.flatMap_cons,
      List.flatMap_congr hlater, Comment.allAt_dropWhile (by omega), hsorted.takeWhile_eq hlow,
      hfirst, List.append_assoc, List.append_assoc, List.append_assoc, Nat.add_assoc, Nat.add_comm 1]

theorem linesFrom_perm (address : Nat) (slots : List (Option Instruction))
    (comments : List Comment) :
    (linesFrom address slots comments).Perm
      (comments.map Comment.line ++ (slots.filterMap id).map Instruction.text) := by
  induction slots generalizing address comments with
  | nil => simp [linesFrom]
  | cons slot slots ih =>
    have hsplit : comments.map Comment.line =
        (comments.takeWhile (·.address ≤ address)).map Comment.line ++
          (comments.dropWhile (·.address ≤ address)).map Comment.line := by
      rw [← List.map_append, List.takeWhile_append_dropWhile]
    have hslot : ((slot :: slots).filterMap id).map Instruction.text =
        slot.toList.map Instruction.text ++ (slots.filterMap id).map Instruction.text := by
      cases slot <;> rfl
    rw [linesFrom, hsplit, hslot, List.append_assoc, List.append_assoc]
    refine List.Perm.append_left _ ?_
    refine (List.Perm.append_left _ (ih ..)).trans ?_
    rw [← List.append_assoc, ← List.append_assoc]
    exact List.perm_append_comm.append_right _

/-- The lines of the listing are the instructions and the given comments, merged by address. -/
structure Interleaves (code : Code) (comments : List Comment) : Prop where
  lines : Text.lines code.listing.toList = (code.merged comments).map String.toList
  /-- There is no address behind the code at which a comment could be lost. -/
  within : ∀ c ∈ comments, c.address ≤ code.size
  complete : (code.merged comments).Perm
    (comments.map Comment.line ++ code.instructions.map Instruction.text)

end Code

namespace Stream

def recorded (trace : Bool) (edits : List Edit) : List Comment :=
  if trace then Gauge.start.notes edits else []

variable {trace : Bool} {g : Gauge} {lines : List (Nat × Line)} {s s' : Stream}

theorem comments_comment (s : Stream) (text : String) :
    (s.comment text).comments.toList =
      s.comments.toList ++ if s.trace then [⟨s.cursor, text⟩] else [] := by
  rw [comment]
  split
  · simp [*]
  · simp

theorem Tracks.comments_apply (h : s.Tracks trace g lines) {edit : Edit} {reply : Reply}
    (hs : s.apply edit = .ok (reply, s')) :
    s'.comments.toList =
      s.comments.toList ++ if trace then (g.note? edit).toList else [] := by
  cases edit with
  | emit line =>
    rw [Stream.apply, Stream.emit] at hs
    split at hs
    · cases hs
      simp [Gauge.note?, place]
    · cases hs
  | reserve count =>
    simp only [Stream.apply, Stream.reserve] at hs
    split at hs
    · cases hs
      simp [Gauge.note?]
    · cases hs
  | rewind address =>
    have hmark : s.highWater = g.mark := h.mark
    by_cases hle : address ≤ g.mark
    · rw [apply_rewind_of_le (hmark ▸ hle)] at hs
      cases hs
      simp [Gauge.note?, hle]
    · rw [Stream.apply, rewind?_eq_none_iff.2 (by omega)] at hs
      cases hs
      rw [refuse, comments_comment, h.traced, h.cursor, Gauge.note?, if_neg hle]
      rfl
  | comment text =>
    cases hs
    rw [comments_comment, h.traced, h.cursor]
    rfl
  | resume | entry =>
    cases hs
    simp [Gauge.note?, resume, setEntry]

theorem Tracks.comments_applyAll (h : s.Tracks trace g lines) {edits : List Edit}
    (hs : s.applyAll edits = .ok s') :
    s'.comments.toList = s.comments.toList ++ if trace then g.notes edits else [] := by
  induction edits generalizing s g lines with
  | nil =>
    cases hs
    simp [Gauge.notes]
  | cons edit rest ih =>
    obtain ⟨reply, s₁, happly, hrest⟩ := applyAll_cons_eq_ok hs
    rw [ih (h.apply happly) hrest, h.comments_apply happly, Gauge.notes]
    cases trace <;> simp

theorem comments_of_applyAll {edits : List Edit} (hs : (new trace).applyAll edits = .ok s) :
    s.comments.toList = recorded trace edits :=
  (Tracks.new trace).comments_applyAll hs

theorem sorted_finish (s : Stream) : Comment.Sorted s.finish.comments := by
  have hsorted : s.finish.comments.Pairwise fun c d => decide (c.address ≤ d.address) = true :=
    List.pairwise_mergeSort Comment.address_trans Comment.address_total _
  exact hsorted.imp of_decide_eq_true

/-- The listing of finished code is the merge of its instructions and the recorded comments. -/
theorem interleaves_of_applyAll {edits : List Edit} (hs : (new trace).applyAll edits = .ok s)
    (htidy : s.finish.Tidy) : s.finish.Interleaves (recorded trace edits) := by
  have htracks := (Tracks.new trace).applyAll hs
  have hwithin : ∀ c ∈ recorded trace edits, c.address ≤ s.finish.size := by
    intro c hc
    rw [recorded] at hc
    split at hc
    · have hmark : s.finish.size = (Gauge.start.after edits).mark := htracks.mark
      rw [hmark]
      exact Gauge.Ordered.address_notes (Nat.le_refl _) edits c hc
    · cases hc
  have hcomments := comments_of_applyAll hs
  have hmem (c : Comment) : c ∈ s.finish.comments ↔ c ∈ recorded trace edits := by
    rw [finish, List.mem_mergeSort, hcomments]
  have hall (a : Nat) : Comment.allAt a s.finish.comments = Comment.allAt a (recorded trace edits) := by
    rw [finish, Comment.allAt_mergeSort, hcomments]
  have hlines : s.finish.lines = s.finish.merged (recorded trace edits) := by
    have heq := Code.linesFrom_eq 0 s.slots.toList s.sorted_finish (fun c _ => Nat.zero_le _)
      (fun c hc => by rw [Nat.zero_add, Array.length_toList]; exact hwithin c ((hmem c).1 hc))
      s.finish.get? (fun i => by rw [Nat.zero_add, Array.getElem?_toList]; rfl)
    simp only [hall, Nat.zero_add, ← List.range_eq_range', Array.length_toList] at heq
    exact heq
  refine ⟨?_, hwithin, ?_⟩
  · rw [Code.toList_listing, Text.lines_flatMap htidy.oneLine, hlines]
  · rw [← hlines]
    refine (Code.linesFrom_perm 0 s.slots.toList s.finish.comments).trans ?_
    refine List.Perm.append_right _ (List.Perm.map _ ?_)
    rw [← hcomments]
    exact List.mergeSort_perm ..

/-- Comments at a slot that is filled late, a rewind that goes too far, and a slot that stays
empty. -/
def scattered : List Edit :=
  [.reserve 2, .comment "rest", .emit (.registers .halt .ax .ax .ax "stop"), .rewind 1,
   .comment "first", .emit (.memory .ldc .ax 9 .ax "late"), .rewind 1, .comment "second",
   .rewind 7, .resume, .comment "end"]

theorem scattered_interleaves :
    ∃ s, (new true).applyAll scattered = .ok s ∧ s.finish.Tidy ∧
      Text.lines s.finish.listing.toList =
        ["* first", "* second", "* BUG in rewind to 7", "  1:    LDC  0,9(0) \tlate", "* rest",
         "  2:   HALT  0,0,0 \tstop", "* end"].map String.toList := by
  obtain ⟨s, hs⟩ : ∃ s, (new true).applyAll scattered = .ok s := ⟨_, rfl⟩
  have hslots : s.slots = #[none, some ⟨⟨.ldc, .memory .ax 9 .ax⟩, 1, some "late"⟩,
      some ⟨⟨.halt, .registers .ax .ax .ax⟩, 2, some "stop"⟩] := by
    cases hs
    rfl
  have htidy : s.finish.Tidy := by
    refine ⟨fun c hc => ?_, fun i hi remark hremark => ?_⟩
    · rw [finish, List.mem_mergeSort, comments_of_applyAll hs] at hc
      exact (by decide : ∀ c ∈ recorded true scattered, Text.OneLine c.text) c hc
    · change some i ∈ s.slots at hi
      rw [hslots] at hi
      simp only [List.mem_toArray, List.mem_cons, Option.some.injEq, reduceCtorEq, false_or,
        List.not_mem_nil, or_false] at hi
      obtain rfl | rfl := hi <;>
      · cases hremark
        decide
  refine ⟨s, hs, htidy, ?_⟩
  rw [(interleaves_of_applyAll hs htidy).lines]
  congr 1
  cases hs
  decide +kernel

end Stream

end CMinus
