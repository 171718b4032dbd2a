import CMinus.Proofs.Expression

namespace CMinus

section Arguments

variable {s : Source} {globals : Bindings} {p : Program} {code : Code} {entries : NameMap Entry}
  {fuel : Nat} {cenv : Env} {env : Bindings} {addrs : List Nat} {sp floor k room : Nat}
  {σ σ' : Store} {u v w : View} {args : List Argument} {types : List VarType}

/-- While arguments lie on the stack, the interpreter's state is as without them. -/
theorem Pushed.matches {x : List Argument × Store} (h : Pushed addrs sp types u k x v)
    (hm : Matches globals p.globals env cenv.scopes addrs sp floor σ u) :
    Matches globals p.globals env cenv.scopes addrs (sp - x.1.length) floor x.2 v where
  top := h.top
  base := h.gp.trans hm.base
  zero := h.zero.trans hm.zero
  below := Nat.le_trans (Nat.sub_le ..) hm.below
  limit := Nat.lt_of_le_of_lt (Nat.sub_le ..) hm.limit
  agrees := h.agrees
  nodup := hm.nodup
  range a ha := by
    have := hm.range a ha
    omega
  visible name b hb := by
    obtain ⟨var, hvar, hlocated⟩ := hm.visible name b hb
    refine ⟨var, hvar, hlocated.keep h.gp h.bp fun a ha hmem => ?_⟩
    exact h.mem a (Nat.le_trans hm.below ha) hmem
  global := hm.global

theorem Pushed.push (hsize : code.size < 2147483648) {k' : Nat} {σ₁ : Store}
    (h : Pushed addrs sp types u k' (args, σ₁) v)
    (hm : Matches globals p.globals env cenv.scopes addrs sp floor σ u)
    (hkeeps : v.Keeps addrs (sp - args.length) w) (hagrees : σ'.Agrees addrs w)
    (arg : Argument) (harg : arg.Passed addrs (w.get .ax)) (hneed : args.length + 1 ≤ sp)
    (hcode : code.Holds k (Compile.push .ax)) :
    Meets code (.ok (arg :: args, σ')) (Pushed addrs sp (arg.ty :: types) u (k + 2))
      (w.goto k) := by
  obtain ⟨top, htop⟩ : ∃ top, sp - args.length = top + 1 := ⟨sp - args.length - 1, by omega⟩
  have hsp : w.get .sp = Word.low (top + 1) := by
    rw [hkeeps.sp, h.top, htop]
  have hlimit := hm.limit
  have hlength : sp - (arg :: args).length = top := by
    rw [List.length_cons]
    omega
  refine .push hsize hcode (by decide) (by decide) hsp (by omega) (.ok ?_)
  refine ⟨rfl, ?_, by simpa using hneed, ?_, ?_, ?_, ?_, fun a ha hmem => ?_, ?_, ?_⟩
  · rw [List.map_cons, h.types]
  · rw [hlength]
    simp
  · simpa using hkeeps.bp.trans h.bp
  · simpa using hkeeps.gp.trans h.gp
  · simpa using hkeeps.zero.trans h.zero
  · rw [View.mem_goto, View.mem_poke, if_neg (by omega), View.mem_set,
      hkeeps.mem a (by omega) hmem, h.mem a ha hmem]
  · intro i arg' hi
    rw [hlength, View.mem_goto, View.mem_poke, View.mem_set]
    cases i with
    | zero =>
      cases hi
      rw [Nat.add_zero, if_pos rfl]
      exact harg
    | succ i =>
      have hi' : args[i]? = some arg' := hi
      have hlt := (List.getElem?_eq_some_iff.1 hi').1
      have hmem : top + (i + 1) ∉ addrs := by
        intro ha
        have := hm.range _ ha
        omega
      rw [if_neg (by omega), hkeeps.mem _ (by omega) hmem]
      have hpassed := h.passed i arg' hi
      have hidx : sp - args.length + i = top + (i + 1) := by omega
      dsimp only at hpassed
      rwa [hidx] at hpassed
  · refine ((hagrees.set _ _).poke (fun ha => ?_) _).goto _
    have := hm.range top ha
    omega

theorem Pushed.cast {l : Nat} {x : List Argument × Store} (h : Pushed addrs sp types u k x v)
    (hk : k = l) : Pushed addrs sp types u l x v :=
  hk ▸ h

theorem meets_arrayVar {name : String} {first length : Nat} {ops : List Operation}
    (hsize : code.size < 2147483648)
    (hops : Compile.expression cenv .value (.var name) = .ok ops) (hcode : code.Holds k ops)
    (hm : Matches globals p.globals env cenv.scopes addrs sp floor σ u)
    (hlookup : env.lookup name = some (.array first length)) :
    Meets code (.ok ()) (fun _ v => v.get .pc = Word.low (k + ops.length) ∧
      u.Keeps addrs sp v ∧ σ.Agrees addrs v ∧ ArrayAt addrs first length (v.get .ax))
      (u.goto k) := by
  simp only [Compile.expression, bind_eq_ok, pure_eq_ok] at hops
  obtain ⟨⟨var, target⟩, hplace, rfl⟩ := hops
  obtain ⟨hty, x, hcells, hlocate⟩ := hm.array hsize hplace hlookup
  have hlength := Compile.length_place hplace
  have hload : code.Holds (k + 1) [.memory .lda .ax 0 .bx] := by
    have := hcode.right
    rwa [hlength, Compile.loadVariable, hty] at this
  have hadd : (0 : Word).add ((u.set .bx x).get .bx) = .ok x := by
    rw [View.get_set, if_pos rfl, Word.add, Word.exact_eq_ok_iff]
    simp
  refine hlocate hcode.left (.step (View.steps_lda hsize (hload 0 _ rfl) (by decide) (by decide)
    hadd) (.ok ⟨?_, ?_, ?_, ?_⟩))
  · simp [hlength, Compile.loadVariable, hty]
  · exact (((View.Keeps.refl u).set (.inr (.inl rfl)) _).set (.inl rfl) _).goto _
  · exact ((hm.agrees.set _ _).set _ _).goto _
  · simpa using hcells

theorem meets_wordArgument {arg : Node} {nodes : List Node} {ops : List Operation}
    (hsize : code.size < 2147483648) (iheval : EvalMeets s globals p code entries fuel)
    (ih : ArgumentsMeet s globals p code entries fuel) (hcenv : cenv.Within entries)
    (hops : Compile.arguments cenv (arg :: nodes) = .ok ops) (hcode : code.Holds k ops)
    (hm : Matches globals p.globals env cenv.scopes addrs sp floor σ u) (hroom : room ≤ sp) :
    Meets code (s.arguments globals (fuel + 1) env room (.int :: types) (arg :: nodes) σ)
      (Pushed addrs sp (.int :: types) u (k + ops.length)) (u.goto k) := by
  simp only [Compile.arguments, bind_eq_ok, pure_eq_ok] at hops
  obtain ⟨rest, hrest, ops, harg, rfl⟩ := hops
  simp only [Source.arguments]
  refine (ih hcenv hrest hcode.left.left hm hroom).bind ?_
  rintro ⟨args, σ₁⟩ v - hv
  have hle : args.length ≤ sp := hv.length
  rw [← View.goto_self hv.pc]
  refine (iheval hcenv harg hcode.left.right (hv.matches hm) (by dsimp only; omega)).bind ?_
  rintro ⟨x, σ₂⟩ w - hw
  refine .need fun (hneed : args.length + 1 ≤ room) => ?_
  rw [← View.goto_self hw.pc]
  have hpush := hcode.right.cast (l := k + rest.length + ops.length) (by simp; omega)
  exact (hv.push hsize hm hw.keeps hw.agrees (.word x) hw.ax (by omega) hpush).mono
    fun y z _ hz => hz.cast (by simp [Compile.push]; omega)

theorem meets_arrayArgument {name : String} {nodes : List Node} {ops : List Operation}
    (hsize : code.size < 2147483648) (ih : ArgumentsMeet s globals p code entries fuel)
    (hcenv : cenv.Within entries)
    (hops : Compile.arguments cenv (.var name :: nodes) = .ok ops) (hcode : code.Holds k ops)
    (hm : Matches globals p.globals env cenv.scopes addrs sp floor σ u) (hroom : room ≤ sp) :
    Meets code (s.arguments globals (fuel + 1) env room (.array :: types) (.var name :: nodes) σ)
      (Pushed addrs sp (.array :: types) u (k + ops.length)) (u.goto k) := by
  simp only [Compile.arguments, bind_eq_ok, pure_eq_ok] at hops
  obtain ⟨rest, hrest, ops, harg, rfl⟩ := hops
  simp only [Source.arguments]
  refine (ih hcenv hrest hcode.left.left hm hroom).bind ?_
  rintro ⟨args, σ₁⟩ v - hv
  refine .check (fun _ => Bindings.shown_of_array) ?_
  rintro ⟨first, length⟩ hlookup
  refine .need fun (hneed : args.length + 1 ≤ room) => ?_
  rw [← View.goto_self hv.pc]
  have hvar := meets_arrayVar hsize harg hcode.left.right (hv.matches hm)
    (Bindings.array_eq_ok hlookup)
  refine hvar.bind (f := fun _ => .ok (.array first length :: args, σ₁)) ?_
  rintro - w - ⟨hpc, hkeeps, hagrees, hcells⟩
  rw [← View.goto_self hpc]
  have hpush := hcode.right.cast (l := k + rest.length + ops.length) (by simp; omega)
  exact (hv.push hsize hm hkeeps hagrees (.array first length) hcells (by omega) hpush).mono
    fun y z _ hz => hz.cast (by simp [Compile.push]; omega)

theorem ArgumentsMeet.succ (hsize : code.size < 2147483648)
    (iheval : EvalMeets s globals p code entries fuel)
    (ih : ArgumentsMeet s globals p code entries fuel) :
    ArgumentsMeet s globals p code entries (fuel + 1) := by
  intro cenv env addrs sp floor k room σ u types args ops hcenv hops hcode hm hroom
  match types, args with
  | [], [] =>
    cases hops
    simp only [Source.arguments]
    refine .ok ⟨rfl, rfl, Nat.zero_le _, hm.top, rfl, rfl, rfl, fun _ _ _ => rfl, ?_,
      hm.agrees.goto _⟩
    intro i arg hi
    simp at hi
  | .int :: types, arg :: args =>
    exact meets_wordArgument hsize iheval ih hcenv hops hcode hm hroom
  | .array :: types, .var name :: args =>
    exact meets_arrayArgument hsize ih hcenv hops hcode hm hroom
  | [], _ :: _ | _ :: _, [] =>
    simp only [Source.arguments]
    exact .hidden rfl
  | .array :: types, .function .. :: args | .array :: types, .compound .. :: args
  | .array :: types, .branch .. :: args | .array :: types, .loop .. :: args
  | .array :: types, .ret .. :: args | .array :: types, .number .. :: args
  | .array :: types, .element .. :: args | .array :: types, .assign .. :: args
  | .array :: types, .binary .. :: args | .array :: types, .call .. :: args =>
    simp only [Source.arguments]
    exact .hidden rfl

/-- A function is entered: the return address `l` lies at `slot`, below the arguments. -/
structure Entered (addrs : List Nat) (sp slot : Nat) (u : View) (l : Nat)
    (x : List Argument × Store) (v : View) : Prop where
  depth : slot + 1 + x.1.length = sp
  top : v.get .sp = Word.low slot
  bp : v.get .bp = u.get .bp
  gp : v.get .gp = u.get .gp
  zero : v.get .zero = u.get .zero
  back : v.mem slot = Word.low l
  mem : ∀ a, sp ≤ a → a ∉ addrs → v.mem a = u.mem a
  passed : ∀ (i : Nat) (arg : Argument), x.1[i]? = some arg →
    arg.Passed addrs (v.mem (slot + 1 + i))
  agrees : x.2.Agrees addrs v

/-- The machine is at `l`, back from a call whose arguments lie from `first` on. -/
structure Back (addrs : List Nat) (sp first : Nat) (u : View) (l : Nat) (x : Option Word × Store)
    (v : View) : Prop where
  pc : v.get .pc = Word.low l
  top : v.get .sp = Word.low first
  bp : v.get .bp = u.get .bp
  gp : v.get .gp = u.get .gp
  zero : v.get .zero = u.get .zero
  mem : ∀ a, sp ≤ a → a ∉ addrs → v.mem a = u.mem a
  ax : ∀ w, x.1 = some w → v.get .ax = w
  agrees : x.2.Agrees addrs v

/-- The rule for calls: what is left to show is that the function comes back. -/
theorem Pushed.call {e : Entry} {x : List Argument × Store}
    {r : Except Stop (Option Word × Store)} (hsize : code.size < 2147483648)
    (hv : Pushed addrs sp types u k x v) (hcode : code.Holds k (Compile.call e))
    (hm : Matches globals p.globals env cenv.scopes addrs sp floor σ u)
    (hneed : x.1.length + 1 ≤ sp) (hcount : e.params.toNat = x.1.length)
    (h : ∀ w top, Entered addrs sp top u (k + 4) x w →
      Meets code r (Back addrs sp (top + 1) u (k + 4)) (w.goto e.address)) :
    Meets code r (Called addrs sp u (k + 5)) v := by
  obtain ⟨top, htop⟩ : ∃ top, sp - x.1.length = top + 1 := ⟨sp - x.1.length - 1, by omega⟩
  have hlimit := hm.limit
  have hlast := Code.lt_size_of_get? (hcode 4 _ rfl)
  rw [← View.goto_self hv.pc]
  refine .step (View.steps_returnAddress hsize (hcode 0 _ rfl) (by omega)) ?_
  have hsp : (v.set .ax (Word.low (k + 4))).get .sp = Word.low (top + 1) := by
    simpa [htop] using hv.top
  refine .push hsize hcode.left.right (by decide) (by decide) hsp (by omega) ?_
  refine .ldcPc hsize (hcode 3 _ rfl) (by decide) ((h _ top ?_).after ?_)
  · refine ⟨by omega, by simp, ?_, ?_, ?_, by simp, fun a ha hmem => ?_, fun i arg hi => ?_, ?_⟩
    · simpa using hv.bp
    · simpa using hv.gp
    · simpa using hv.zero
    · rw [View.mem_poke, if_neg (by omega)]
      exact hv.mem a ha hmem
    · have hpassed := hv.passed i arg hi
      rw [htop] at hpassed
      rw [View.mem_poke, if_neg (by omega)]
      exact hpassed
    · refine ((hv.agrees.set _ _).set _ _).poke (fun ha => ?_) _
      have := hm.range top ha
      omega
  · intro y w _ hw
    -- The caller drops the arguments.
    have hdrop : e.params.low.add (w.get .sp) = .ok (Word.low sp) := by
      rw [hw.top]
      exact Word.add_low _ (Size.toInt_low (by omega)) (by omega) (by omega) (by omega)
    rw [← View.goto_self hw.pc]
    refine .step (View.steps_lda hsize (hcode 4 _ rfl) (by decide) (by decide) hdrop)
      (.ok ⟨rfl, fun z hz => ?_, ⟨?_, ?_, ?_, ?_, hw.mem⟩, (hw.agrees.set _ _).goto _⟩)
    · simpa using hw.ax z hz
    · simpa using hm.top.symm
    · simpa using hw.bp
    · simpa using hw.gp
    · simpa using hw.zero

end Arguments

section Intrinsics

variable {code : Code} {addrs : List Nat} {sp top k l : Nat} {σ : Store} {u v : View}

theorem meets_input (hsize : code.size < 2147483648) (hcode : code.Holds k Compile.input)
    (hlimit : sp < 1024) (h : Entered addrs sp top u l ([], σ) v) :
    Meets code (match σ.input with
        | [] => throw .inputExhausted
        | w :: rest => return (some w, { σ with input := rest }))
      (Back addrs sp (top + 1) u l) (v.goto k) := by
  have hdepth := h.depth
  have hinput : v.input = σ.input := h.agrees.input
  split
  · next hempty =>
    refine .trap hsize (hcode 0 _ rfl) rfl fun m hm => ?_
    have hm' : m.input = [] := by
      rw [← hempty, ← hinput]
      exact congrArg View.input hm.view
    simp only [Machine.perform, Operation.registers, Machine.runRegisters, hm']
    rfl
  · next w rest hcons =>
    refine .step (View.steps_input hsize (hcode 0 _ rfl) (by decide) (hinput.trans hcons)) ?_
    have hsp : ({ v with input := rest }.set .ax w).get .sp = Word.low top := h.top
    refine .popPc hsize hcode.right hsp (by omega) h.back (.ok ⟨rfl, rfl, h.bp, h.gp, h.zero, h.mem,
      fun x hx => ?_, ⟨h.agrees.length, h.agrees.value, rfl, h.agrees.output⟩⟩)
    cases hx
    rfl

theorem meets_output {w : Word} (hsize : code.size < 2147483648)
    (hcode : code.Holds k Compile.output) (hlimit : sp < 1024)
    (h : Entered addrs sp top u l ([.word w], σ) v) :
    Meets code (.ok (none, { σ with output := σ.output ++ [w] })) (Back addrs sp (top + 1) u l)
      (v.goto k) := by
  have hdepth : top + 1 + 1 = sp := h.depth
  have hadd : (1 : Word).add (v.get .sp) = .ok (Word.low (top + 1)) := by
    rw [h.top]
    exact Word.add_low 1 rfl (by omega) (by omega) (by omega)
  have hw : v.mem (top + 1) = w := h.passed 0 _ rfl
  refine .step (View.steps_ld hsize (hcode 0 _ rfl) (by decide) (by decide) hadd (by omega)) ?_
  refine .step (View.steps_output hsize (hcode 1 _ rfl) (by decide)) ?_
  refine .popPc hsize hcode.right h.top (by omega) h.back (.ok ⟨rfl, rfl, h.bp, h.gp, h.zero, h.mem,
    fun x hx => (nomatch hx), ⟨h.agrees.length, h.agrees.value, h.agrees.input, ?_⟩⟩)
  simp [hw, h.agrees.output]

end Intrinsics

theorem locate_param (ty : VarType) {offset : Size} (h : offset.toNat < 1024) :
    (⟨.param, ty, offset⟩ : Variable).locate =
      .ok ⟨if ty = .array then .ld else .lda, Word.low (offset.toNat + 2), .bp⟩ := by
  have hadd : Word.add 2 offset.low = .ok (Word.low (offset.toNat + 2)) :=
    Word.add_low 2 rfl (by omega) (by omega) (by omega)
  cases ty <;> simp only [Variable.locate, hadd] <;> rfl

theorem Flow.result_returned (returns : ReturnType) (value : Option Word) :
    (returned value).result returns = .ok value ∨
      (returned value).result returns = .error .illTyped := by
  cases returns <;> cases value <;> simp [result]

section Functions

variable {s : Source} {globals : Bindings} {p : Program} {code : Code} {entries : NameMap Entry}
  {fuel : Nat} {cenv : Env} {env : Bindings} {addrs : List Nat} {sp floor k l room bp top : Nat}
  {σ σ' : Store} {u v w : View} {args : List Argument}

theorem Entered.located (h : Entered addrs sp (bp + 1) u l (args, σ') w) (hlimit : sp < 1024)
    (hrange : ∀ a ∈ addrs, sp ≤ a) {i : Nat} {arg : Argument} {offset : Size}
    (harg : args[i]? = some arg) (hoffset : offset.toNat = i) (hbp : v.get .bp = Word.low bp)
    (hmem : ∀ a, bp < a → v.mem a = w.mem a) :
    Located (addrs ++ Argument.slots (bp + 2) args) bp v ⟨.param, arg.ty, offset⟩
      (arg.binding (addrs.length + ((args.take i).flatMap Argument.contents).length)) := by
  have hdepth : bp + 1 + 1 + args.length = sp := h.depth
  have hi := (List.getElem?_eq_some_iff.1 harg).1
  have hadd : (Word.low (offset.toNat + 2)).add (v.get .bp) = .ok (Word.low (bp + 2 + i)) := by
    rw [hbp]
    exact Word.add_low _ (Word.toInt_low (by omega)) (by omega) (by omega) (by omega)
  have hlocate := locate_param arg.ty (hoffset ▸ (by omega : i < 1024))
  cases arg with
  | word x =>
    refine .placed (.inr rfl) (.scalar rfl hlocate hadd ?_)
    rw [List.getElem?_append_right (by omega), Nat.add_sub_cancel_left]
    exact Argument.getElem?_slots harg
  | array first length =>
    refine .param rfl rfl hlocate hadd (by omega) (by omega) (fun hslot => ?_) ?_
    · rcases List.mem_append.1 hslot with hslot | hslot
      · have := hrange _ hslot
        omega
      · obtain ⟨j, x, hj, hx⟩ := Argument.mem_slots hslot
        obtain rfl : i = j := by omega
        rw [harg] at hx
        cases hx
    · have hpassed : ArrayAt addrs first length (w.mem (bp + 1 + 1 + i)) := h.passed i _ harg
      rw [hmem _ (by omega)]
      exact hpassed.append _

theorem Entered.matches {f : Function} {table : Table} (htable : f.table = .ok table)
    (htypes : args.map Argument.ty = f.params.map (·.2))
    (hm : Matches globals p.globals env cenv.scopes addrs sp floor σ u)
    (h : Entered addrs sp (bp + 1) u l (args, σ') w) (htop : top ≤ bp) :
    Matches globals p.globals (Bindings.ofArguments σ'.cells.length f.params args ++ globals)
      [table, p.globals] (addrs ++ Argument.slots (bp + 2) args) top bp
      (σ'.allocate (args.flatMap Argument.contents)) (w.opened bp top) := by
  have hdepth : bp + 1 + 1 + args.length = sp := h.depth
  have hlimit := hm.limit
  have hmem : ∀ a, bp < a → (w.opened bp top).mem a = w.mem a := by
    intro a ha
    simp only [View.opened, View.mem_set, View.mem_poke]
    rw [if_neg (by omega)]
  refine ⟨rfl, h.gp.trans hm.base, h.zero.trans hm.zero, htop, by omega, ?_, ?_, ?_, ?_, ?_⟩
  · refine h.agrees.allocate (fun a ha => hmem a ?_) rfl rfl (Argument.length_slots ..) ?_
    · have := hm.range a ha
      omega
    · intro j a x ha hx
      obtain ⟨i, rfl, hi⟩ := Argument.getElem?_contents ha hx
      rw [hmem _ (by omega)]
      exact h.passed i _ hi
  · refine List.nodup_append.2 ⟨hm.nodup, Argument.nodup_slots .., fun a ha b hb => ?_⟩
    have := hm.range a ha
    have := Argument.range_slots hb
    omega
  · intro a ha
    rcases List.mem_append.1 ha with ha | ha
    · have := hm.range a ha
      omega
    · have := Argument.range_slots ha
      omega
  · intro name b hb
    obtain ⟨hsome, hnone⟩ := Table.lookup_declareAll_params htypes rfl htable σ'.cells.length name
    rw [List.lookup_append, Option.or_eq_some_iff] at hb
    rcases hb with hb | ⟨hb, hglobal⟩
    · obtain ⟨-, i, arg, offset, harg, hoffset, hget, rfl⟩ := hsome b hb
      refine ⟨⟨.param, arg.ty, offset⟩, by simp [Scopes.lookup, hget], ?_⟩
      have hlength : σ'.cells.length = addrs.length := h.agrees.length
      rw [hlength]
      refine h.located hlimit (fun a ha => (hm.range a ha).1) harg ?_ rfl hmem
      rw [hoffset]
      exact Nat.zero_add i
    · obtain ⟨var, hvar, hplaced⟩ := hm.global name b hglobal
      have hget : table.get? name = none := hnone hb
      refine ⟨var, by simp [Scopes.lookup, hget, hvar], .placed (.inl rfl) (.append ?_ _)⟩
      exact hplaced _ (h.gp.trans hm.base)
  · intro name b hb
    obtain ⟨var, hvar, hplaced⟩ := hm.global name b hb
    exact ⟨var, hvar, fun v hv => (hplaced v hv).append _⟩

theorem Entered.framed (h : Entered addrs sp (bp + 1) u l (args, σ') w) (hlimit : sp < 1024)
    (hrange : ∀ a ∈ addrs, sp ≤ a) :
    Framed (addrs ++ Argument.slots (bp + 2) args) bp 0 (w.opened bp top) := by
  have hdepth : bp + 1 + 1 + args.length = sp := h.depth
  have habove : ∀ a ∈ addrs ++ Argument.slots (bp + 2) args, bp + 2 ≤ a := by
    intro a ha
    rcases List.mem_append.1 ha with ha | ha
    · have := hrange a ha
      omega
    · exact (Argument.range_slots ha).1
  refine ⟨rfl, by omega, ⟨fun ha => ?_, fun ha => ?_⟩, fun a ha => ?_, l, ?_⟩
  · have := habove _ ha
    omega
  · have := habove _ ha
    omega
  · have := habove a ha
    omega
  · simpa [View.opened] using h.back

theorem Framed.leave {taken : Nat} {value : Option Word} (hsize : code.size < 2147483648)
    (h : Framed addrs bp taken u) (hcode : code.Holds k Compile.epilogue)
    (hkeeps : u.Keeps addrs bp v) (hagrees : σ.Agrees addrs v)
    (hax : ∀ x, value = some x → v.get .ax = x) :
    Meets code (.ok (value, σ)) (Left addrs bp u) (v.goto k) := by
  obtain ⟨l, hback⟩ := h.back
  have hsaved := hkeeps.mem bp (Nat.le_refl _) h.saved.1
  have hreturn := hkeeps.mem (bp + 1) (Nat.le_succ _) h.saved.2
  have hl : v.mem (bp + 1) = Word.low l := hreturn.trans hback
  refine .epilogue hsize hcode (hkeeps.bp.trans h.base) h.limit hl (.ok ?_)
  exact ⟨hback.symm, rfl, hsaved, hkeeps.gp, hkeeps.zero, hkeeps.mem, hax,
    ((hagrees.set _ _).set _ _).goto _⟩

/-- The caller finds the stack as it was when the function was entered. -/
theorem Left.back {value : Option Word} (hr : Entered addrs sp (bp + 1) u l (args, σ) w)
    (h : Left (addrs ++ Argument.slots (bp + 2) args) bp (w.opened bp top) (value, σ') v) :
    Back addrs sp (bp + 1 + 1) u l (value, σ'.release σ.cells.length) v := by
  have hdepth : bp + 1 + 1 + args.length = sp := hr.depth
  refine ⟨?_, h.top, ?_, h.gp.trans hr.gp, h.zero.trans hr.zero, fun a ha hmem => ?_, h.ax,
    h.agrees.release hr.agrees.length⟩
  · rw [h.pc]
    simpa [View.opened] using hr.back
  · rw [h.base]
    simpa [View.opened] using hr.bp
  · have hmem' : a ∉ addrs ++ Argument.slots (bp + 2) args := by
      intro ha'
      rcases List.mem_append.1 ha' with ha' | ha'
      · exact hmem ha'
      · have := Argument.range_slots ha'
        omega
    rw [h.mem a (by omega) hmem', ← hr.mem a ha hmem]
    simp only [View.opened, View.mem_set, View.mem_poke]
    rw [if_neg (by omega)]

/-- A declared function does what the interpreter says, and comes back. -/
theorem meets_function {f : Function} {e : Entry} {body : Node} {table : Table}
    {opening ops : List Operation} {slot : Nat} (hsize : code.size < 2147483648)
    (ih : ExecMeets s globals p code entries fuel)
    (hf : Hosted p code entries f e body table opening ops)
    (hm : Matches globals p.globals env cenv.scopes addrs sp floor σ u) (hroom : room ≤ sp)
    (htypes : args.map Argument.ty = f.params.map (·.2))
    (hneed : args.length + 2 + f.body.frame 0 ≤ room)
    (h : Entered addrs sp slot u l (args, σ') w) :
    Meets code (do
        let (flow, σ'') ← s.exec globals fuel f.returns
          (Bindings.ofArguments σ'.cells.length f.params args ++ globals)
          (room - (args.length + 2 + f.body.frame 0)) f.body
          (σ'.allocate (args.flatMap Argument.contents))
        let result ← flow.result f.returns
        return (result, σ''.release σ'.cells.length))
      (Back addrs sp (slot + 1) u l) (w.goto e.address) := by
  have hdepth : slot + 1 + args.length = sp := h.depth
  have hlimit := hm.limit
  have hframe := Stmt.frameSize_layout f.body hf.laid
  rw [Stmt.taken] at hframe
  obtain ⟨bp, rfl⟩ : ∃ bp, slot = bp + 1 := ⟨slot - 1, by omega⟩
  obtain ⟨top, htop⟩ : ∃ top, top + f.body.frame 0 = bp := ⟨bp - f.body.frame 0, by omega⟩
  refine .prologue hsize hf.opened hf.holds.left.left h.top (by omega) (hframe ▸ htop) ?_
  obtain ⟨known, hknown, hcompiled⟩ := hf.compiled
  have hlength := Compile.length_prologue hf.opened
  have hbody : code.Holds (e.address + 4) ops := hf.holds.left.right.cast (by rw [hlength])
  have hwithin : Env.Within ⟨p.functions, known, [table, p.globals]⟩ entries := hknown
  have hframed : Framed _ bp 0 (w.opened bp top) := h.framed hlimit fun a ha => (hm.range a ha).1
  have hmatches := h.matches hf.tabled htypes hm (by omega : top ≤ bp)
  refine (ih hwithin hf.laid hcompiled hbody hmatches hframed (Nat.le_of_eq htop)
    (by omega)).bind ?_
  rintro ⟨flow, σ''⟩ v - hv
  cases hv with
  | next hpc hkeeps hagrees =>
    -- Only a function without a result may end so; its code goes on with an epilogue.
    cases hreturns : f.returns with
    | void =>
      have hclosing := hf.holds.right.cast (l := e.address + 4 + ops.length)
        (by rw [List.length_append, hlength, Nat.add_assoc])
      rw [hreturns] at hclosing
      have hleave := hframed.leave hsize hclosing hkeeps hagrees
        (fun _ hx => (nomatch hx) : ∀ x, none = some x → v.get .ax = x)
      rw [View.goto_self hpc] at hleave
      exact hleave.bind (f := fun x => .ok (x.1, x.2.release σ'.cells.length))
        fun x v' _ hx => .ok (hx.back h)
    | int | array => exact .hidden rfl
  | @returned value _ _ hleft =>
    rcases Flow.result_returned f.returns value with hresult | hresult
    · dsimp only
      rw [hresult]
      exact .ok (hleft.back h)
    · dsimp only
      rw [hresult]
      exact .hidden rfl

theorem InvokeMeets.succ (hlinked : Linked s p code entries)
    (iharguments : ArgumentsMeet s globals p code entries fuel)
    (ihexec : ExecMeets s globals p code entries fuel) :
    InvokeMeets s globals p code entries (fuel + 1) := by
  intro cenv env addrs sp floor k room σ u name args e ops hcenv hentry hops hcode hm hroom
  have hsize := hlinked.size
  rw [Source.invoke]
  split
  · next hname =>
    subst hname
    obtain ⟨rfl, hinput⟩ := hlinked.input e hentry
    refine (iharguments hcenv hops hcode.left hm hroom).bind ?_
    rintro ⟨args, σ'⟩ v - hv
    obtain rfl : args = [] := List.map_eq_nil_iff.1 hv.types
    refine .need fun hneed => ?_
    refine hv.call hsize hcode.right hm (Nat.le_trans hneed hroom) rfl fun w top hw => ?_
    exact meets_input hsize hinput hm.limit hw
  · split
    · next hname =>
      subst hname
      obtain ⟨rfl, houtput⟩ := hlinked.output e hentry
      refine (iharguments hcenv hops hcode.left hm hroom).bind ?_
      rintro ⟨args, σ'⟩ v - hv
      refine .need fun hneed => ?_
      split
      · refine hv.call hsize hcode.right hm (Nat.le_trans hneed hroom) rfl fun w top hw => ?_
        exact meets_output hsize houtput hm.limit hw
      · exact .hidden rfl
    · cases hfunction : s.function? name with
      | none => exact .hidden rfl
      | some f =>
        obtain ⟨body, table, opening, code', hf⟩ := hlinked.function name f e hfunction hentry
        refine (iharguments hcenv hops hcode.left hm hroom).bind ?_
        rintro ⟨args, σ'⟩ v - hv
        refine .need fun hneed => ?_
        have hcount : e.params.toNat = args.length := by
          have hlength := congrArg List.length hv.types
          rw [List.length_map, List.length_map] at hlength
          rw [hf.counted, Table.size_declareAll_params rfl hf.tabled, hlength]
          exact Nat.zero_add _
        have hroom' : args.length + 1 ≤ sp := by omega
        refine hv.call hsize hcode.right hm hroom' hcount fun w top hw => ?_
        exact meets_function hsize ihexec hf hm hroom hv.types hneed hw

end Functions

end CMinus
