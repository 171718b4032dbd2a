import CMinus.Proofs.Overflow
import CMinus.Proofs.Path
import CMinus.Proofs.StackHeight

namespace CMinus

/-- Where control is, and where the calls under way go on, the innermost first. -/
structure Control where
  address : Nat
  pending : List Nat

/-- How control moves when each return goes back behind its call. -/
inductive Code.Moves (code : Code) : Control → Control → Prop
  | along {a b : Nat} {pending : List Nat} {op : Operation} :
      (code.get? a).map (·.toOperation) = some op → (∀ d s, op ≠ .memory .ldc .pc d s) →
      op.Continues a b → Moves code ⟨a, pending⟩ ⟨b, pending⟩
  | call {a b : Nat} {pending : List Nat} {d : Word} {s : Register} :
      (code.get? a).map (·.toOperation) = some (.memory .ldc .pc d s) → d.toInt = b →
      Moves code ⟨a, pending⟩ ⟨b, (a + 1) :: pending⟩
  | back {a b : Nat} {pending : List Nat} {d : Word} {s : Register} :
      (code.get? a).map (·.toOperation) = some (.memory .ld .pc d s) →
      Moves code ⟨a, b :: pending⟩ ⟨b, pending⟩

/-- Control can come here from the start of the code. -/
inductive Code.Reaches (code : Code) : Control → Prop
  | start : Reaches code ⟨0, []⟩
  | move {c c' : Control} : Reaches code c → code.Moves c c' → Reaches code c'

/-- The instruction at `a` is the last one of a call, which releases the arguments. -/
def Code.IsRelease (code : Code) (a : Nat) : Prop :=
  ∃ k e, code.Holds k (Compile.call e) ∧ a = k + 4

/-- How control gets from `a` to the address `b` of the function from `start` to `stop`. -/
inductive Code.Arrives (code : Code) (start stop a b : Nat) : Prop
  | inside {op : Operation} : start ≤ a → a < stop → (code.get? a).map (·.toOperation) = some op →
      op.Continues a b → Arrives code start stop a b
  | call {d : Word} {s : Register} :
      (code.get? a).map (·.toOperation) = some (.memory .ldc .pc d s) → b = start →
      Arrives code start stop a b
  | back {d : Word} {s : Register} :
      (code.get? a).map (·.toOperation) = some (.memory .ld .pc d s) → code.IsRelease b →
      Arrives code start stop a b

/-- No path through a function with a result gets past its body. -/
def Program.AlwaysReturns (p : Program) : Prop :=
  ∀ name returns body, .function name returns body ∈ p.declarations →
    returns = .void ∨ body.completes = false

namespace Compile

variable {p : Program} {code : Code} {entries : NameMap Entry} {returns : ReturnType} {body : Node}
  {r : Routine}

theorem passable_prologue {locals : Size} {ops : List Operation} (h : prologue locals = .ok ops) :
    Passable ops := by
  simp only [prologue, bind_eq_ok, pure_eq_ok] at h
  obtain ⟨w, -, rfl⟩ := h
  refine .straight fun op hop a => ?_
  simp only [push, List.cons_append, List.nil_append, List.mem_cons, List.not_mem_nil,
    or_false] at hop
  rcases hop with rfl | rfl | rfl | rfl <;>
    exact .next (fun h => by cases h) (fun h => by cases h)

theorem closed_routine (h : Realizes p entries returns body r)
    (hsmall : r.entry.address + r.code.length < 2147483648) :
    ∃ live, Closed live r.entry.address r.code ∧
      (live (r.entry.address + r.code.length) → returns ≠ .void ∧ body.completes = true) := by
  obtain ⟨_, -, -, _, -, hbody⟩ := h.params
  simp only [Routine.code, List.length_append, ← Nat.add_assoc] at hsmall
  have hrouted : Routed (fun _ => False) (fun _ => False) r.opening := routed_prologue h.opening
  have hopening := hrouted.closed r.entry.address
  obtain ⟨live, hlive, hend⟩ := closed_statement body hbody (by omega)
  have hfront := hopening.append hlive
  rw [Routine.code, h.closing]
  cases returns with
  | void =>
    have hclosing := closed_epilogue (r.entry.address + (r.opening ++ r.body).length)
    refine ⟨_, hfront.append hclosing, fun hlast => ?_⟩
    exact absurd (hfront.append_end hclosing hlast).2.2 (Nat.lt_irrefl _)
  | int | array =>
    have hclosing := Closed.nil (r.entry.address + (r.opening ++ r.body).length)
    refine ⟨_, hfront.append hclosing, fun hlast => ⟨nofun, ?_⟩⟩
    have hbodyEnd := (hfront.append_end hclosing hlast).1
    exact hend (hopening.append_end hlive hbodyEnd).2

theorem path_routine (h : Realizes p entries returns body r)
    (hcode : code.Holds r.entry.address r.code)
    (hsmall : r.entry.address + r.code.length < 2147483648) (hreturns : returns ≠ .void)
    (hc : body.completes = true) :
    code.Path r.entry.address (r.entry.address + r.code.length) := by
  obtain ⟨_, -, -, _, -, hbody⟩ := h.params
  have hclosing : r.closing = [] := by
    rw [h.closing]
    cases returns with
    | void => exact absurd rfl hreturns
    | int | array => rfl
  rw [Routine.code, hclosing, List.append_nil] at hcode hsmall ⊢
  rw [List.length_append, ← Nat.add_assoc] at hsmall ⊢
  have hopening := passable_prologue h.opening code _ hcode.left
  exact hopening.trans (path_statement body hbody hcode.right hsmall hc)

theorem Closed.path {live : Nat → Prop} {base : Nat} {ops : List Operation}
    (h : Closed live base ops) (hcode : code.Holds base ops) (hend : ¬ live (base + ops.length))
    {a : Nat} (hpath : code.Path base a) : live a ∧ base ≤ a ∧ a < base + ops.length := by
  have hin {a : Nat} (ha : live a) : live a ∧ base ≤ a ∧ a < base + ops.length := by
    have := h.within a ha
    have hne : a ≠ base + ops.length := fun heq => hend (heq ▸ ha)
    exact ⟨ha, by omega, by omega⟩
  induction hpath with
  | refl => exact hin h.first
  | @step b c op _ hop hc ih =>
    obtain ⟨hlive, hlow, hhigh⟩ := ih
    obtain ⟨i, rfl⟩ := Nat.exists_eq_add_of_le hlow
    have hi : i < ops.length := by omega
    have hslot := hcode i _ (List.getElem?_eq_getElem hi)
    have heq := Option.some.inj (hop.symm.trans hslot)
    exact hin (h.flows i op c (heq ▸ List.getElem?_eq_getElem hi) hlive hc)

/-- A function runs off its end exactly if it has a result and its body completes. -/
theorem path_end_iff (h : Realizes p entries returns body r)
    (hcode : code.Holds r.entry.address r.code)
    (hsmall : r.entry.address + r.code.length < 2147483648) :
    code.Path r.entry.address (r.entry.address + r.code.length) ↔
      returns ≠ .void ∧ body.completes = true := by
  refine ⟨fun hpath => ?_, fun ⟨hreturns, hc⟩ => path_routine h hcode hsmall hreturns hc⟩
  obtain ⟨live, hclosed, hend⟩ := closed_routine h hsmall
  apply Classical.byContradiction
  intro hnot
  have := (hclosed.path hcode (fun hlast => hnot (hend hlast)) hpath).2.2
  omega

end Compile

namespace Program

open Compile

variable {p : Program} {image : Image} {code : Code}

theorem routine_unique (h : p.compile = .ok image) {r r' : Routine} (hr : r ∈ image.routines)
    (hr' : r' ∈ image.routines) {a : Nat} (hlow : r.entry.address ≤ a)
    (hhigh : a < r.entry.address + r.code.length) (hlow' : r'.entry.address ≤ a)
    (hhigh' : a < r'.entry.address + r'.code.length) : r = r' := by
  obtain ⟨before, after, heq⟩ := List.append_of_mem hr
  obtain ⟨before', after', heq'⟩ := List.append_of_mem hr'
  have hstart := address_routine h heq
  have hstart' := address_routine h heq'
  have hboth : before ++ r :: after = before' ++ r' :: after' := heq.symm.trans heq'
  rcases List.append_eq_append_iff.1 hboth with ⟨mid, rfl, hmid⟩ | ⟨mid, rfl, hmid⟩
  · cases mid with
    | nil => exact (List.cons.inj hmid).1
    | cons first mid =>
      obtain ⟨rfl, -⟩ := List.cons.inj hmid
      simp only [List.flatMap_append, List.flatMap_cons, List.length_append] at hstart'
      omega
  · cases mid with
    | nil => exact (List.cons.inj hmid).1.symm
    | cons first mid =>
      obtain ⟨rfl, -⟩ := List.cons.inj hmid
      simp only [List.flatMap_append, List.flatMap_cons, List.length_append] at hstart
      omega

/-- What an operation that writes the counter can be, at address `a` of generated code. -/
inductive Departs (code : Code) (entries : NameMap Entry) (a : Nat) : Operation → Prop
  | jump {op : Operation} {b : Nat} : op.destination a = some (b : Int) →
      Departs code entries a op
  | call {k : Nat} {name : String} {e : Entry} : entries.get? name = some e →
      code.Holds k (Compile.call e) → a = k + 3 →
      Departs code entries a (.memory .ldc .pc (Word.low e.address) .ax)
  | leave : Departs code entries a (.memory .ld .pc (-1) .sp)

theorem front_last (h : p.compile = .ok image) :
    image.front[15]? = some (.memory .ld .pc (-1) .sp) := by
  obtain ⟨d, hprelude⟩ := prelude_eq h
  rw [Image.front, hprelude]
  rfl

theorem front_continues (h : p.compile = .ok image) {a b : Nat} {op : Operation}
    (hget : image.front[a]? = some op) (hc : op.Continues a b) : b < routinesBase := by
  have hlt : a < routinesBase := by
    rw [← length_front h]
    exact (List.getElem?_eq_some_iff.1 hget).1
  cases hw : op.writesPc with
  | false =>
    have hb := hc.of_quiet hw
    have hne : a ≠ 15 := by
      rintro rfl
      rw [front_last h] at hget
      cases hget
      cases hw
    rw [routinesBase] at hlt ⊢
    omega
  | true =>
    rcases front_writes h hget hw with ⟨rfl, rfl⟩ | ⟨-, rfl⟩
    · cases hc with
      | next _ hfills => exact absurd rfl hfills
      | jump hb => cases hb
      | back => decide
    · exact absurd hc Operation.Continues.not_leave

section Compiled

variable {entries : NameMap Entry} (h : p.compile = .ok image) (hfills : image.Fills code)
  (hdecls : Compile.declarations p intrinsics routinesBase p.declarations =
    .ok (entries, image.routines))

include h hfills hdecls

theorem departs_routine (hsize : code.size < 2147483648) {before after : List Routine}
    {r : Routine} (hr : image.routines = before ++ r :: after) {j : Nat} {op : Operation}
    (hget : r.code[j]? = some op) (hw : op.writesPc = true) :
    Departs code entries (r.entry.address + j) op := by
  have hsplit := hdecls
  rw [hr] at hsplit
  obtain ⟨_, returns, body, _, _, _, _, _, hrealizes⟩ := declarations_split hsplit
  have hstop := stop_le_size h hfills hr
  have hholds := holds_routine h hfills hr
  have hsmall {t : Nat} (ht : r.Covers t) : (Word.low t).toInt = t := by
    rw [Routine.Covers] at ht
    exact Word.toInt_low (by omega)
  cases routed_routine hrealizes j op hget hw with
  | jumpIfZero ht => exact .jump (congrArg some (hsmall ht))
  | jump ht => exact .jump (congrArg some (hsmall ht))
  | @test k opcode hop hs hi =>
    obtain ⟨b, hb⟩ :=
      (Plain.test hop).destination hw (fun _ _ h => by cases h) (r.entry.address + j)
    exact .jump hb
  | pass hop hs hi =>
    obtain ⟨b, hb⟩ :=
      Plain.pass.destination hw (fun _ _ h => by cases h) (r.entry.address + j)
    exact .jump hb
  | @call k e he hs hi =>
    obtain ⟨name, he⟩ := he
    exact .call he (hholds.part hs) (by omega)
  | leave => exact .leave

theorem departs_of_get? (hsize : code.size < 2147483648) {a : Nat} {op : Operation}
    (hop : (code.get? a).map (·.toOperation) = some op) (hw : op.writesPc = true) :
    Departs code entries a op := by
  have hget := hfills.getElem?_of_get? hop
  rw [image.operations_eq, List.getElem?_append] at hget
  split at hget
  · rcases front_writes h hget hw with ⟨rfl, rfl⟩ | ⟨-, rfl⟩
    · obtain ⟨-, entries', hdecls', hmain⟩ := compile_eq_ok h
      cases hdecls.symm.trans hdecls'
      obtain ⟨-, hcall, -⟩ := holds_front h hfills
      exact .call (get?_of_entry hmain) hcall rfl
    · exact .leave
  · next hlow =>
    obtain ⟨before, r, after, j, hr, hj, hcode⟩ := exists_routine hget
    have ha : a = r.entry.address + j := by
      rw [length_front h] at hj hlow
      rw [address_routine h hr]
      omega
    rw [ha]
    exact departs_routine h hfills hdecls hsize hr hcode hw

theorem toInt_low_entry (hsize : code.size < 2147483648) {name : String} {e : Entry}
    (he : entries.get? name = some e) : (Word.low e.address).toInt = e.address := by
  apply Word.toInt_low
  obtain ⟨-, rfl⟩ | ⟨-, rfl⟩ | ⟨-, -, r, hr, -, rfl⟩ := entry_cases hdecls he
  · decide
  · decide
  · obtain ⟨before, after, heq⟩ := List.append_of_mem hr
    have hstop := stop_le_size h hfills heq
    omega

theorem callee_cases (hsize : code.size < 2147483648) {a b : Nat} {d : Word} {s : Register}
    (hop : (code.get? a).map (·.toOperation) = some (.memory .ldc .pc d s)) (hd : d.toInt = b) :
    code.IsRelease (a + 1) ∧
      (b < routinesBase ∨ ∃ r ∈ image.routines, b = r.entry.address) := by
  generalize hcall : Operation.memory .ldc .pc d s = op at hop
  have hw : op.writesPc = true := by rw [← hcall]; rfl
  cases departs_of_get? h hfills hdecls hsize hop hw with
  | jump hb =>
    rw [← hcall] at hb
    cases hb
  | @call k name e he hk ha =>
    cases hcall
    refine ⟨⟨k, e, hk, by omega⟩, ?_⟩
    rw [toInt_low_entry h hfills hdecls hsize he] at hd
    cases Int.ofNat.inj hd
    obtain ⟨-, rfl⟩ | ⟨-, rfl⟩ | ⟨-, -, r, hr, -, rfl⟩ := entry_cases hdecls he
    · exact .inl (by decide)
    · exact .inl (by decide)
    · exact .inr ⟨r, hr, rfl⟩
  | leave => cases hcall

end Compiled

end Program

/-- A path leads to `a` from the start of a declared function, or `a` lies before all of them. -/
def Image.Visited (image : Image) (code : Code) (a : Nat) : Prop :=
  a < Compile.routinesBase ∨ ∃ r ∈ image.routines, code.Path r.entry.address a

/-- Control is on a path of some function, and so are all addresses to which it returns. -/
structure Image.Tracks (image : Image) (code : Code) (c : Control) : Prop where
  here : image.Visited code c.address
  pending : ∀ a ∈ c.pending, image.Visited code a ∧ code.IsRelease a

namespace Program

open Compile

variable {p : Program} {image : Image} {code : Code} {entries : NameMap Entry}

section Compiled

variable (h : p.compile = .ok image) (hfills : image.Fills code)

include h hfills

theorem visited_continues {a b : Nat} {op : Operation} (ha : image.Visited code a)
    (hop : (code.get? a).map (·.toOperation) = some op) (hc : op.Continues a b) :
    image.Visited code b := by
  rcases ha with ha | ⟨r, hr, hpath⟩
  · have hget := hfills.getElem?_of_get? hop
    rw [image.operations_eq, List.getElem?_append_left (by rwa [length_front h])] at hget
    exact .inl (front_continues h hget hc)
  · exact .inr ⟨r, hr, hpath.step hop hc⟩

variable (hdecls : Compile.declarations p intrinsics routinesBase p.declarations =
  .ok (entries, image.routines)) (hsize : code.size < 2147483648)

include hdecls hsize

theorem tracks_move {c c' : Control} (hc : image.Tracks code c) (hm : code.Moves c c') :
    image.Tracks code c' := by
  cases hm with
  | along hop _ hnext => exact ⟨visited_continues h hfills hc.here hop hnext, hc.pending⟩
  | call hop hd =>
    obtain ⟨hrelease, hcallee⟩ := callee_cases h hfills hdecls hsize hop hd
    refine ⟨?_, List.forall_mem_cons.2 ⟨⟨?_, hrelease⟩, hc.pending⟩⟩
    · rcases hcallee with hb | ⟨r, hr, rfl⟩
      · exact .inl hb
      · exact .inr ⟨r, hr, .refl⟩
    · exact visited_continues h hfills hc.here hop (.back rfl)
  | back hop =>
    obtain ⟨⟨hhere, -⟩, hrest⟩ := List.forall_mem_cons.1 hc.pending
    exact ⟨hhere, hrest⟩

theorem tracks_of_reaches {c : Control} (hc : code.Reaches c) : image.Tracks code c := by
  induction hc with
  | start => exact ⟨.inl (by decide), fun _ ha => (nomatch ha)⟩
  | move _ hm ih => exact tracks_move h hfills hdecls hsize ih hm

/-- Where every function returns, its paths stay in its code. -/
theorem within_of_path (hreturns : p.AlwaysReturns) {r : Routine} (hr : r ∈ image.routines)
    {a : Nat} (hpath : code.Path r.entry.address a) :
    r.entry.address ≤ a ∧ a < r.entry.address + r.code.length := by
  obtain ⟨before, after, heq⟩ := List.append_of_mem hr
  have hsplit := hdecls
  rw [heq] at hsplit
  obtain ⟨_, returns, body, _, hnodes, _, _, _, hrealizes⟩ := declarations_split hsplit
  have hstop := stop_le_size h hfills heq
  obtain ⟨live, hclosed, hend⟩ := closed_routine hrealizes (by omega)
  refine (hclosed.path (holds_routine h hfills heq) (fun hlast => ?_) hpath).2
  obtain ⟨hvoid, hcompletes⟩ := hend hlast
  have hmem : .function r.name returns body ∈ p.declarations := by
    rw [hnodes]
    exact List.mem_append_right _ List.mem_cons_self
  rcases hreturns _ _ _ hmem with hreturns | hreturns
  · exact hvoid hreturns
  · rw [hreturns] at hcompletes
    cases hcompletes

theorem arrives_of_moves (hreturns : p.AlwaysReturns) {c c' : Control} (hc : code.Reaches c)
    (hm : code.Moves c c') {r : Routine} (hr : r ∈ image.routines)
    (hlow : r.entry.address ≤ c'.address) (hhigh : c'.address < r.entry.address + r.code.length) :
    code.Arrives r.entry.address (r.entry.address + r.code.length) c.address c'.address := by
  have htracks := tracks_of_reaches h hfills hdecls hsize hc
  have hfront : routinesBase ≤ r.entry.address := by
    obtain ⟨before, after, heq⟩ := List.append_of_mem hr
    rw [address_routine h heq]
    exact Nat.le_add_right ..
  have hwithin {r' : Routine} (hr' : r' ∈ image.routines) {a : Nat} :=
    within_of_path h hfills hdecls hsize hreturns hr' (a := a)
  cases hm with
  | along hop _ hnext =>
    dsimp only at hlow hhigh
    rcases htracks.here with ha | ⟨r', hr', hpath⟩
    · have hget := hfills.getElem?_of_get? hop
      rw [image.operations_eq, List.getElem?_append_left (by rwa [length_front h])] at hget
      have := front_continues h hget hnext
      omega
    · obtain ⟨hlow', hhigh'⟩ := hwithin hr' (hpath.step hop hnext)
      obtain rfl := routine_unique h hr hr' hlow hhigh hlow' hhigh'
      obtain ⟨hlow, hhigh⟩ := hwithin hr hpath
      exact .inside hlow hhigh hop hnext
  | call hop hd =>
    dsimp only at hlow hhigh
    rcases (callee_cases h hfills hdecls hsize hop hd).2 with hb | ⟨r', hr', hb⟩
    · omega
    · obtain ⟨hlow', hhigh'⟩ := hwithin hr' .refl
      rw [← hb] at hlow' hhigh'
      obtain rfl := routine_unique h hr hr' hlow hhigh (hb ▸ hlow') (hb ▸ hhigh')
      exact .call hop hb
  | back hop =>
    obtain ⟨⟨-, hrelease⟩, -⟩ := List.forall_mem_cons.1 htracks.pending
    exact .back hop hrelease

/-- A step of the machine moves control, unless it returns to another place than behind the last
call. -/
theorem moves_of_step {m m' : Machine} {c : Control} (hzero : m.get .zero = 0)
    (hpc : (m.get .pc).toInt = c.address) (hstep : m.step code = .ok (.running m')) :
    (∃ c', code.Moves c c' ∧ (m'.get .pc).toInt = c'.address) ∨
      (∃ d s, (code.get? c.address).map (·.toOperation) = some (.memory .ld .pc d s)) ∧
        ∀ a ∈ c.pending.head?, (m'.get .pc).toInt ≠ a := by
  obtain ⟨a, pending⟩ := c
  obtain ⟨op, next, hop, -, -, hperform⟩ := Machine.step_eq_running hstep
  rw [hpc, Int.toNat_natCast] at hop
  have hcontinues := Machine.continues_of_step hstep hpc hop hzero
  cases hw : op.writesPc with
  | false =>
    have hcall (d : Word) (s : Register) : op ≠ .memory .ldc .pc d s := by
      rintro rfl
      cases hw
    obtain ⟨b, hnext, hpc'⟩ := hcontinues fun hw' => by cases hw.symm.trans hw'
    exact .inl ⟨⟨b, pending⟩, .along hop hcall hnext, hpc'⟩
  | true =>
    cases departs_of_get? h hfills hdecls hsize hop hw with
    | jump hb =>
      have hcall (d : Word) (s : Register) : op ≠ .memory .ldc .pc d s := by
        rintro rfl
        cases hb
      obtain ⟨b, hnext, hpc'⟩ := hcontinues fun _ => ⟨_, hb⟩
      exact .inl ⟨⟨b, pending⟩, .along hop hcall hnext, hpc'⟩
    | @call k name e he hk ha =>
      have hd := toInt_low_entry h hfills hdecls hsize he
      obtain ⟨address, -, hcases⟩ :=
        Machine.runMemory_eq_ok (Machine.perform_memory_eq_running hperform)
      refine .inl ⟨⟨e.address, (a + 1) :: pending⟩, .call hop hd, ?_⟩
      obtain ⟨hld, -⟩ | ⟨hst, -⟩ | ⟨hlda, -⟩ | ⟨-, rfl⟩ | ⟨hjump, -⟩ := hcases
      · cases hld
      · cases hst
      · cases hlda
      · rw [Machine.get_set, if_pos rfl, hd]
      · cases hjump
    | leave =>
      cases pending with
      | nil => exact .inr ⟨⟨_, _, hop⟩, fun _ hb => by cases hb⟩
      | cons b pending =>
        by_cases hb : (m'.get .pc).toInt = b
        · exact .inl ⟨⟨b, pending⟩, .back hop, hb⟩
        · refine .inr ⟨⟨_, _, hop⟩, fun b' hb' => ?_⟩
          cases hb'
          exact hb

end Compiled

/-- The function `name` has the code from `start` to `stop`. -/
structure Bounds (p : Program) (code : Code) (name : String) (returns : ReturnType) (body : Node)
    (start stop : Nat) : Prop where
  entry : code.entry? name = some start
  owns : p.Owns code returns start stop
  /-- Only a body that completes runs off the end, and only where no epilogue follows it. -/
  runsOff : code.Path start stop ↔ returns ≠ .void ∧ body.completes = true
  arrives : p.AlwaysReturns → ∀ c c', code.Reaches c → code.Moves c c' →
    start ≤ c'.address → c'.address < stop → code.Arrives start stop c.address c'.address

theorem exists_bounds {trace : Bool} (h : p.generate trace = .ok code)
    (hsize : code.size < 2147483648) {name : String} {returns : ReturnType} {body : Node}
    (hmem : .function name returns body ∈ p.declarations) :
    ∃ start stop, p.Bounds code name returns body start stop := by
  have hfollows := p.generate_follows trace
  rw [h] at hfollows
  obtain ⟨image, hcompile, hfills⟩ := hfollows
  obtain ⟨entries, before, r, after, hr, rfl, hdecls, hrealizes, howns⟩ :=
    exists_routine_of_mem hcompile hfills hmem
  have hin : r ∈ image.routines := hr ▸ List.mem_append_right _ List.mem_cons_self
  have hstop := stop_le_size hcompile hfills hr
  refine ⟨r.entry.address, r.entry.address + r.code.length,
    entry?_of_routine hcompile hfills hin, howns, ?_, ?_⟩
  · exact path_end_iff hrealizes (holds_routine hcompile hfills hr) (by omega)
  · intro hreturns c c' hc hm hlow hhigh
    exact arrives_of_moves hcompile hfills hdecls hsize hreturns hc hm hin hlow hhigh

/-- A function runs off its end exactly if it has a result and its body completes. Where none does,
functions are entered by calls, at their start, and by returns, behind calls. The moves of control
are those of the machine as long as its returns go where its calls came from. -/
theorem bounds_of_generate {trace : Bool} (h : p.generate trace = .ok code)
    (hsize : code.size < 2147483648) :
    (∀ name returns body, .function name returns body ∈ p.declarations →
      ∃ start stop, p.Bounds code name returns body start stop) ∧
    ∀ n input m m' c, Machine.Runs code n (.start input) m → (m.get .pc).toInt = c.address →
      m.step code = .ok (.running m') →
      (∃ c', code.Moves c c' ∧ (m'.get .pc).toInt = c'.address) ∨
        (∃ d s, (code.get? c.address).map (·.toOperation) = some (.memory .ld .pc d s)) ∧
          ∀ a ∈ c.pending.head?, (m'.get .pc).toInt ≠ a := by
  refine ⟨fun name returns body => exists_bounds h hsize, ?_⟩
  intro n input m m' c hruns hpc hstep
  have hfollows := p.generate_follows trace
  rw [h] at hfollows
  obtain ⟨image, hcompile, hfills⟩ := hfollows
  obtain ⟨-, entries, hdecls, -⟩ := compile_eq_ok hcompile
  exact moves_of_step hcompile hfills hdecls hsize (hruns.zero (regular_of_generate h)) hpc hstep

/-- Prints how far a number is from 0. -/
def distance : Program where
  globals := .new .global
  functions := (NameMap.empty.insert "main" ⟨.void, .new .param⟩).insert "distance"
    ⟨.int, ⟨.param, 1, NameMap.empty.insert "n" ⟨.param, .int, 0⟩⟩⟩
  declarations := [
    .function "distance" .int (.branch (.binary .lessThan (.var "n") (.number 0))
      (.ret .int (some (.binary .sub (.number 0) (.var "n")))) (some (.ret .int (some (.var "n"))))),
    .function "main" .void (.call "output" [.call "distance" [.call "input" []]])]

theorem distance_alwaysReturns : distance.AlwaysReturns := by
  intro name returns body hmem
  simp only [distance, List.mem_cons, Node.function.injEq, List.not_mem_nil, or_false] at hmem
  rcases hmem with ⟨-, -, rfl⟩ | ⟨-, rfl, -⟩
  · exact .inr rfl
  · exact .inl rfl

theorem distance_bounds :
    ∃ code body start stop, distance.generate false = .ok code ∧ code.size < 2147483648 ∧
      .function "distance" .int body ∈ distance.declarations ∧ distance.AlwaysReturns ∧
      distance.Bounds code "distance" .int body start stop ∧ ¬ code.Path start stop := by
  have hsize : (distance.generate false).toOption.map (fun code => decide (code.size < 2147483648)) =
      some true := by decide +kernel
  cases h : distance.generate false with
  | error e =>
    rw [h] at hsize
    cases hsize
  | ok code =>
    rw [h] at hsize
    have hsize := of_decide_eq_true (Option.some.inj hsize)
    obtain ⟨start, stop, hbounds⟩ :=
      (bounds_of_generate h hsize).1 "distance" .int _ List.mem_cons_self
    refine ⟨code, _, start, stop, rfl, hsize, List.mem_cons_self, distance_alwaysReturns, hbounds, ?_⟩
    intro hpath
    cases (hbounds.runsOff.1 hpath).2

/-- A program whose one function promises a result and does nothing. -/
def silent : Program where
  globals := .new .global
  functions := NameMap.empty.insert "main" ⟨.int, .new .param⟩
  declarations := [.function "main" .int (.compound none [])]

/-- The path through `main` of `silent` goes past its end, and so does the machine. -/
theorem silent_runs_off :
    ∃ code start stop, silent.generate false = .ok code ∧ code.size < 2147483648 ∧
      .function "main" .int (.compound none []) ∈ silent.declarations ∧
      code.entry? "main" = some start ∧ silent.Owns code .int start stop ∧
      code.Path start stop ∧ code.run [] = .error (.noInstruction 20) := by
  have hstops : silent.stopsWith [] (.noInstruction 20) = true := by decide +kernel
  obtain ⟨code, h, hrun⟩ := of_stopsWith hstops
  have hsize : (silent.generate false).toOption.any (fun code => code.size < 2147483648) =
      true := by decide +kernel
  rw [h, Except.toOption, Option.any_some, decide_eq_true_iff] at hsize
  obtain ⟨start, stop, hbounds⟩ := exists_bounds h hsize (List.mem_singleton_self _)
  exact ⟨code, start, stop, h, hsize, List.mem_singleton_self _, hbounds.entry, hbounds.owns,
    hbounds.runsOff.2 ⟨by decide, rfl⟩, hrun⟩

end Program

end CMinus
