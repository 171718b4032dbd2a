import CMinus.Proofs.Simulation

namespace CMinus

namespace Store.Agrees

variable {σ : Store} {addrs : List Nat} {v : View}

theorem write (h : σ.Agrees addrs v) (hnodup : addrs.Nodup) {cell a : Nat}
    (ha : addrs[cell]? = some a) (w : Word) : (σ.write cell w).Agrees addrs (v.poke a w) := by
  have hcell := (List.getElem?_eq_some_iff.1 ha).1
  refine ⟨by simpa [Store.write] using h.length, fun i b x hb hx => ?_, h.input, h.output⟩
  rw [View.mem_poke]
  simp only [Store.write, List.getElem?_set, h.length, if_pos hcell] at hx
  by_cases hi : cell = i
  · subst hi
    rw [ha, Option.some.injEq] at hb
    rw [if_pos rfl, Option.some.injEq, Option.some.injEq] at hx
    rw [if_pos hb.symm, hx]
  · rw [if_neg hi] at hx
    have hne : b ≠ a := by
      rintro rfl
      exact hi ((List.getElem?_inj hcell hnodup).1 (ha.trans hb.symm))
    rw [if_neg hne]
    exact h.value i b x hb hx

theorem read (h : σ.Agrees addrs v) {cell a : Nat} (ha : addrs[cell]? = some a) {w : Word}
    (hw : σ.read cell = .ok w) : v.mem a = w := by
  rw [Store.read] at hw
  split at hw
  · next heq =>
    cases hw
    exact h.value cell a _ ha heq
  · cases hw

end Store.Agrees

/-- Reading fails only where the interpreter has no answer to give. -/
theorem Store.shown_of_read {σ : Store} {cell : Nat} {e : Stop} (h : σ.read cell = .error e) :
    e.shown = false := by
  rw [Store.read] at h
  split at h
  · cases h
  · cases h
    rfl

namespace Bindings

variable {env : Bindings} {name : String}

theorem scalar_eq_ok {cell : Nat} (h : env.scalar name = .ok cell) :
    env.lookup name = some (.scalar cell) := by
  rw [scalar] at h
  split at h
  · next heq =>
    cases h
    exact heq
  · cases h

theorem shown_of_scalar {e : Stop} (h : env.scalar name = .error e) : e.shown = false := by
  rw [scalar] at h
  split at h
  · cases h
  · cases h
    rfl

theorem array_eq_ok {x : Nat × Nat} (h : env.array name = .ok x) :
    env.lookup name = some (.array x.1 x.2) := by
  rw [array] at h
  split at h
  · next heq =>
    cases h
    exact heq
  · cases h

theorem shown_of_array {e : Stop} (h : env.array name = .error e) : e.shown = false := by
  rw [array] at h
  split at h
  · cases h
  · cases h
    rfl

end Bindings

section Places

variable {globals env : Bindings} {table : Table} {cenv : Env} {addrs : List Nat}
  {sp floor k : Nat} {σ : Store} {u : View} {code : Code} {name : String} {var : Variable}
  {target : List Operation} {α : Type} {r : Except Stop α} {Q : α → View → Prop}

theorem place_eq_ok (h : Compile.place cenv name = .ok (var, target)) :
    cenv.scopes.lookup name = some var ∧
      ∃ location, var.locate = .ok location ∧
        target = [.memory location.opcode .bx location.displacement location.base] := by
  simp only [Compile.place, Compile.address, bind_eq_ok, mapError_eq_ok, pure_eq_ok,
    Prod.mk.injEq] at h
  obtain ⟨v, hresolve, ops, ⟨location, hlocate, rfl⟩, rfl, rfl⟩ := h
  refine ⟨?_, location, hlocate, rfl⟩
  rw [Env.resolve] at hresolve
  split at hresolve
  · next heq =>
    cases hresolve
    exact heq
  · cases hresolve

theorem ne_pc_of_base {base : Register} (h : base = .gp ∨ base = .bp) : base ≠ .pc := by
  rcases h with rfl | rfl <;> decide

theorem Matches.scalar (hm : Matches globals table env cenv.scopes addrs sp floor σ u)
    (hsize : code.size < 2147483648) (hplace : Compile.place cenv name = .ok (var, target))
    {cell : Nat} (hlookup : env.lookup name = some (.scalar cell)) :
    var.ty = .int ∧ ∃ a, addrs[cell]? = some a ∧ (code.Holds k target →
      Meets code r Q ((u.set .bx (Word.low a)).goto (k + 1)) → Meets code r Q (u.goto k)) := by
  obtain ⟨hscopes, location, hlocate, rfl⟩ := place_eq_ok hplace
  obtain ⟨var', hvar, hlocated⟩ := hm.visible name _ hlookup
  rw [hscopes, Option.some.injEq] at hvar
  subst hvar
  cases hlocated with
  | @placed base hbase hplaced =>
    cases hplaced with
    | @scalar _ a d hty hlocate' hadd hcell =>
      rw [hlocate, Except.ok.injEq] at hlocate'
      subst hlocate'
      refine ⟨hty, a, hcell, fun hcode h => ?_⟩
      exact .step (View.steps_lda hsize (hcode 0 _ rfl) (by decide) (ne_pc_of_base hbase) hadd) h
  | param hb => cases hb

theorem Matches.array (hm : Matches globals table env cenv.scopes addrs sp floor σ u)
    (hsize : code.size < 2147483648) (hplace : Compile.place cenv name = .ok (var, target))
    {first length : Nat} (hlookup : env.lookup name = some (.array first length)) :
    var.ty = .array ∧ ∃ w, ArrayAt addrs first length w ∧ (code.Holds k target →
      Meets code r Q ((u.set .bx w).goto (k + 1)) → Meets code r Q (u.goto k)) := by
  obtain ⟨hscopes, location, hlocate, rfl⟩ := place_eq_ok hplace
  obtain ⟨var', hvar, hlocated⟩ := hm.visible name _ hlookup
  rw [hscopes, Option.some.injEq] at hvar
  subst hvar
  cases hlocated with
  | @placed base hbase hplaced =>
    cases hplaced with
    | @array _ _ d w hty hlocate' hadd hcells =>
      rw [hlocate, Except.ok.injEq] at hlocate'
      subst hlocate'
      refine ⟨hty, w, hcells, fun hcode h => ?_⟩
      exact .step (View.steps_lda hsize (hcode 0 _ rfl) (by decide) (ne_pc_of_base hbase) hadd) h
  | @param _ _ slot d hb hty hlocate' hadd _ hlt _ hcells =>
    cases hb
    rw [hlocate, Except.ok.injEq] at hlocate'
    subst hlocate'
    refine ⟨hty, u.mem slot, hcells, fun hcode h => ?_⟩
    exact .step (View.steps_ld hsize (hcode 0 _ rfl) (by decide)
      (ne_pc_of_base (.inr rfl)) hadd hlt) h

end Places

/-- An element lies as far below the first one as its index says. -/
theorem ArrayAt.element {addrs : List Nat} {first length : Nat} {w i : Word}
    (h : ArrayAt addrs first length w) (hrange : ∀ a ∈ addrs, a < 1024)
    (hi : 0 ≤ i.toInt ∧ i.toInt < length) :
    ∃ a, addrs[first + i.toInt.toNat]? = some a ∧ w - i = Word.low a := by
  obtain ⟨a, ha, hw⟩ := h i.toInt.toNat (by omega)
  have hlt := hrange a (List.mem_of_getElem? ha)
  refine ⟨a, ha, Word.ext ?_⟩
  rw [Word.toInt_low (by omega), Word.toInt_sub ⟨by omega, by omega⟩]
  omega

section Expressions

variable {s : Source} {globals : Bindings} {p : Program} {code : Code} {entries : NameMap Entry}
  {fuel : Nat}

theorem ElementMeets.succ (hsize : code.size < 2147483648)
    (ih : EvalMeets s globals p code entries fuel) :
    ElementMeets s globals p code entries (fuel + 1) := by
  intro cenv env addrs sp floor k room σ u name index var target ops hcenv hplace hindex hcode hm
    hroom
  rw [Source.element]
  refine .check (fun _ => Bindings.shown_of_array) ?_
  rintro ⟨first, length⟩ hlookup
  refine .need fun hneed => ?_
  obtain ⟨sp, rfl⟩ : ∃ n, sp = n + 1 := ⟨sp - 1, by omega⟩
  obtain ⟨-, w, hcells, hlocate⟩ := hm.array hsize hplace (Bindings.array_eq_ok hlookup)
  refine hlocate hcode.left.left ?_
  have hm' : Matches globals p.globals env cenv.scopes addrs (sp + 1) floor σ (u.set .bx w) :=
    hm.keep ((View.Keeps.refl u).set (.inr (.inl rfl)) w) (hm.agrees.set .bx w)
  have hlength : target.length = 1 := Compile.length_place hplace
  have hinner := hcode.left.right
  rw [hlength] at hinner
  refine (Meets.protect hsize hinner (.inr rfl) hm' fun u' hu' =>
    ih hcenv hindex hinner.left.right hu' (by omega)).bind ?_
  rintro ⟨i, σ'⟩ v - ⟨hx, hbx⟩
  dsimp only
  split
  · next hi =>
    obtain ⟨a, ha, hword⟩ := hcells.element (fun a ha => (hm.range a ha).2) hi
    have hsub : code.Holds (k + 1 + 2 + ops.length + 2) [.registers .sub .bx .bx .ax] :=
      hcode.right.cast (by simp [hlength, Compile.push, Compile.pop]; omega)
    rw [← View.goto_self hx.pc]
    refine .step (View.steps_registers hsize (· - ·) (hsub 0 _ rfl) (by decide) (by decide)
      (by decide) fun _ _ => rfl) (.ok ⟨?_, ⟨a, ha, ?_⟩, ?_, ?_⟩)
    · exact View.pc_goto _ (by omega)
    · have hbx' : v.get .bx = w := by simpa using hbx
      simp [hbx', hx.ax, hword]
    · refine View.Keeps.goto (.set ?_ (.inr (.inl rfl)) _) _
      exact View.Keeps.trans ((View.Keeps.refl u).set (.inr (.inl rfl)) w) hx.keeps
    · exact (hx.agrees.set .bx _).goto _
  · exact .hidden rfl

variable {cenv : Env} {env : Bindings} {addrs : List Nat} {sp floor k room : Nat} {σ : Store}
  {u : View}

theorem meets_var {name : String} {ops : List Operation} (hsize : code.size < 2147483648)
    (hops : Compile.expression cenv .value (.var name) = .ok ops) (hcode : code.Holds k ops)
    (hm : Matches globals p.globals env cenv.scopes addrs sp floor σ u) :
    Meets code (s.eval globals (fuel + 1) env room (.var name) σ)
      (Computed addrs sp u (k + ops.length)) (u.goto k) := by
  simp only [Compile.expression, bind_eq_ok, pure_eq_ok] at hops
  obtain ⟨⟨var, target⟩, hplace, rfl⟩ := hops
  simp only [Source.eval]
  refine .check (fun _ => Bindings.shown_of_scalar) fun cell hlookup => ?_
  refine .check (fun _ => Store.shown_of_read) fun w hread => ?_
  obtain ⟨hty, a, ha, hlocate⟩ := hm.scalar hsize hplace (Bindings.scalar_eq_ok hlookup)
  have hlength := Compile.length_place hplace
  have hload : code.Holds (k + 1) [.memory .ld .ax 0 .bx] := by
    have := hcode.right
    rwa [hlength, Compile.loadVariable, hty] at this
  have hadd : (0 : Word).add ((u.set .bx (Word.low a)).get .bx) = .ok (Word.low a) := by
    have := (hm.range a (List.mem_of_getElem? ha)).2
    rw [View.get_set, if_pos rfl]
    exact Word.add_low 0 rfl (by omega) (by omega) (by omega)
  refine hlocate hcode.left (.step (View.steps_ld hsize (hload 0 _ rfl) (by decide) (by decide)
    hadd (hm.range a (List.mem_of_getElem? ha)).2) (.ok ⟨?_, ?_, ?_, ?_⟩))
  · simp [hlength, Compile.loadVariable, hty]
  · simpa using hm.agrees.read ha hread
  · exact (((View.Keeps.refl u).set (.inr (.inl rfl)) _).set (.inl rfl) _).goto _
  · exact ((hm.agrees.set _ _).set _ _).goto _

theorem meets_element {name : String} {index : Node} {ops : List Operation}
    (hsize : code.size < 2147483648) (ih : ElementMeets s globals p code entries fuel)
    (hcenv : cenv.Within entries)
    (hops : Compile.expression cenv .value (.element name index) = .ok ops)
    (hcode : code.Holds k ops)
    (hm : Matches globals p.globals env cenv.scopes addrs sp floor σ u) (hroom : room ≤ sp) :
    Meets code (s.eval globals (fuel + 1) env room (.element name index) σ)
      (Computed addrs sp u (k + ops.length)) (u.goto k) := by
  simp only [Compile.expression, bind_eq_ok, pure_eq_ok] at hops
  obtain ⟨⟨var, target⟩, hplace, i, hindex, rfl⟩ := hops
  simp only [Source.eval]
  have hlength := Compile.length_place hplace
  simp only [Compile.loadElement, List.append_assoc] at hcode
  have hassoc : target ++ (Compile.push .bx ++ (i ++ (Compile.pop .bx ++
      ([.registers .sub .bx .bx .ax] ++ [.memory .ld .ax 0 .bx])))) =
      target ++ (Compile.push .bx ++ i ++ Compile.pop .bx) ++ [.registers .sub .bx .bx .ax] ++
        [.memory .ld .ax 0 .bx] := by simp
  rw [hassoc] at hcode
  refine (ih hcenv hplace hindex hcode.left hm hroom).bind ?_
  rintro ⟨cell, σ'⟩ v - ⟨hpc, ⟨a, ha, hbx⟩, hkeeps, hagrees⟩
  refine .check (fun _ => Store.shown_of_read) fun w hread => ?_
  have hlt := (hm.range a (List.mem_of_getElem? ha)).2
  have hload : code.Holds (k + 6 + i.length) [.memory .ld .ax 0 .bx] :=
    hcode.right.cast (by simp [hlength, Compile.push, Compile.pop]; omega)
  have hadd : (0 : Word).add (v.get .bx) = .ok (Word.low a) := by
    rw [hbx]
    exact Word.add_low 0 rfl (by omega) (by omega) (by omega)
  rw [← View.goto_self hpc]
  refine .step (View.steps_ld hsize (hload 0 _ rfl) (by decide) (by decide) hadd hlt)
    (.ok ⟨?_, ?_, ?_, ?_⟩)
  · exact View.pc_goto _ (by simp [hlength, Compile.push, Compile.pop, Compile.loadElement]; omega)
  · simpa using hagrees.read ha hread
  · exact (hkeeps.set (.inl rfl) _).goto _
  · exact (hagrees.set _ _).goto _

theorem Computed.of_keeps {v w : View} {x : Word × Store} (h : Computed addrs sp v k x w)
    (hkeeps : u.Keeps addrs sp v) : Computed addrs sp u k x w :=
  ⟨h.pc, h.ax, hkeeps.trans h.keeps, h.agrees⟩

theorem Computed.cast {l : Nat} {v : View} {x : Word × Store} (h : Computed addrs sp u k x v)
    (hk : k = l) : Computed addrs sp u l x v :=
  hk ▸ h

theorem meets_store {value : Node} {ops : List Operation} {cell a : Nat}
    (hsize : code.size < 2147483648) (ih : EvalMeets s globals p code entries fuel)
    (hcenv : cenv.Within entries) (hops : Compile.expression cenv .value value = .ok ops)
    (hcode : code.Holds k (Compile.push .bx ++ ops ++ Compile.pop .bx ++ [.memory .st .ax 0 .bx]))
    (hm : Matches globals p.globals env cenv.scopes addrs sp floor σ u) (hroom : room ≤ sp)
    (ha : addrs[cell]? = some a) (hbx : u.get .bx = Word.low a) :
    Meets code (do
        need room 1
        let (w, σ) ← s.eval globals fuel env (room - 1) value σ
        return (w, σ.write cell w))
      (Computed addrs sp u (k + ops.length + 5)) (u.goto k) := by
  refine .need fun hneed => ?_
  obtain ⟨sp, rfl⟩ : ∃ n, sp = n + 1 := ⟨sp - 1, by omega⟩
  have hlt := (hm.range a (List.mem_of_getElem? ha)).2
  refine (Meets.protect hsize hcode.left (.inr rfl) hm fun u' hu' =>
    ih hcenv hops hcode.left.left.right hu' (by omega)).bind ?_
  rintro ⟨w, σ'⟩ v - ⟨hx, hv⟩
  have hstore : code.Holds (k + 2 + ops.length + 2) [.memory .st .ax 0 .bx] :=
    hcode.right.cast (by simp [Compile.push, Compile.pop]; omega)
  have hadd : (0 : Word).add (v.get .bx) = .ok (Word.low a) := by
    rw [hv, hbx]
    exact Word.add_low 0 rfl (by omega) (by omega) (by omega)
  rw [← View.goto_self hx.pc]
  refine .step (View.steps_st hsize (hstore 0 _ rfl) (by decide) (by decide) hadd hlt)
    (.ok ⟨?_, ?_, ?_, ?_⟩)
  · exact View.pc_goto _ (by omega)
  · simpa using hx.ax
  · refine ⟨hx.keeps.sp, hx.keeps.bp, hx.keeps.gp, hx.keeps.zero, fun b hb hmem => ?_⟩
    have hne : b ≠ a := fun h => hmem (h ▸ List.mem_of_getElem? ha)
    rw [View.mem_goto, View.mem_poke, if_neg hne]
    exact hx.keeps.mem b hb hmem
  · rw [hx.ax]
    exact (hx.agrees.write hm.nodup ha w).goto _

theorem meets_assign_var {name : String} {value : Node} {ops : List Operation}
    (hsize : code.size < 2147483648) (ih : EvalMeets s globals p code entries fuel)
    (hcenv : cenv.Within entries)
    (hops : Compile.expression cenv .value (.assign (.var name) value) = .ok ops)
    (hcode : code.Holds k ops)
    (hm : Matches globals p.globals env cenv.scopes addrs sp floor σ u) (hroom : room ≤ sp) :
    Meets code (s.eval globals (fuel + 1) env room (.assign (.var name) value) σ)
      (Computed addrs sp u (k + ops.length)) (u.goto k) := by
  simp only [Compile.expression, Node.isPlace, if_true, bind_eq_ok, pure_eq_ok,
    Compile.loadVariable, List.append_nil] at hops
  obtain ⟨target, ⟨⟨var, target'⟩, hplace, rfl⟩, ops, hvalue, rfl⟩ := hops
  have hlength := Compile.length_place hplace
  simp only [Source.eval]
  refine .check (fun _ => Bindings.shown_of_scalar) fun cell hlookup => ?_
  obtain ⟨-, a, ha, hlocate⟩ := hm.scalar hsize hplace (Bindings.scalar_eq_ok hlookup)
  simp only [List.append_assoc] at hcode
  refine hlocate hcode.left ?_
  have hkeeps : u.Keeps addrs sp (u.set .bx (Word.low a)) :=
    (View.Keeps.refl u).set (.inr (.inl rfl)) _
  have hm' := hm.keep hkeeps (hm.agrees.set .bx _)
  refine (meets_store hsize ih hcenv hvalue ?_ hm' hroom ha (by simp)).mono
    fun x v _ hx => (hx.of_keeps hkeeps).cast ?_
  · simpa only [List.append_assoc] using hcode.right.cast (by rw [hlength])
  · simp [hlength, Compile.push, Compile.pop]
    omega

theorem meets_assign_element {name : String} {index value : Node} {ops : List Operation}
    (hsize : code.size < 2147483648) (ih : EvalMeets s globals p code entries fuel)
    (ihelement : ElementMeets s globals p code entries fuel) (hcenv : cenv.Within entries)
    (hops : Compile.expression cenv .value (.assign (.element name index) value) = .ok ops)
    (hcode : code.Holds k ops)
    (hm : Matches globals p.globals env cenv.scopes addrs sp floor σ u) (hroom : room ≤ sp) :
    Meets code (s.eval globals (fuel + 1) env room (.assign (.element name index) value) σ)
      (Computed addrs sp u (k + ops.length)) (u.goto k) := by
  simp only [Compile.expression, Node.isPlace, if_true, bind_eq_ok, pure_eq_ok,
    Compile.loadElement, List.append_nil] at hops
  obtain ⟨target, ⟨⟨var, target'⟩, hplace, i, hindex, rfl⟩, ops, hvalue, rfl⟩ := hops
  have hlength := Compile.length_place hplace
  simp only [Source.eval]
  have hassoc : target' ++ Compile.push .bx ++ i ++ Compile.pop .bx ++
      [.registers .sub .bx .bx .ax] ++ Compile.push .bx ++ ops ++ Compile.pop .bx ++
        [.memory .st .ax 0 .bx] =
      target' ++ (Compile.push .bx ++ i ++ Compile.pop .bx) ++ [.registers .sub .bx .bx .ax] ++
        (Compile.push .bx ++ ops ++ Compile.pop .bx ++ [.memory .st .ax 0 .bx]) := by simp
  rw [hassoc] at hcode
  refine (ihelement hcenv hplace hindex hcode.left hm hroom).bind ?_
  rintro ⟨cell, σ'⟩ v - ⟨hpc, ⟨a, ha, hbx⟩, hkeeps, hagrees⟩
  rw [← View.goto_self hpc]
  have hrest := hcode.right.cast (l := k + 6 + i.length)
    (by simp [hlength, Compile.push, Compile.pop]; omega)
  refine (meets_store hsize ih hcenv hvalue hrest (hm.keep hkeeps hagrees) hroom ha hbx).mono
    fun x w _ hx => (hx.of_keeps hkeeps).cast ?_
  simp [hlength, Compile.push, Compile.pop]
  omega

theorem meets_binary {op : BinaryOp} {left right : Node} {ops : List Operation}
    (hsize : code.size < 2147483648) (ih : EvalMeets s globals p code entries fuel)
    (hcenv : cenv.Within entries)
    (hops : Compile.expression cenv .value (.binary op left right) = .ok ops)
    (hcode : code.Holds k ops)
    (hm : Matches globals p.globals env cenv.scopes addrs sp floor σ u) (hroom : room ≤ sp) :
    Meets code (s.eval globals (fuel + 1) env room (.binary op left right) σ)
      (Computed addrs sp u (k + ops.length)) (u.goto k) := by
  simp only [Compile.expression, bind_eq_ok, pure_eq_ok] at hops
  obtain ⟨l, hleft, r, hright, rfl⟩ := hops
  simp only [Source.eval]
  have hassoc : l ++ Compile.push .ax ++ r ++ Compile.pop .bx ++ Compile.apply op =
      l ++ (Compile.push .ax ++ r ++ Compile.pop .bx) ++ Compile.apply op := by simp
  rw [hassoc] at hcode ⊢
  refine (ih hcenv hleft hcode.left.left hm hroom).bind ?_
  rintro ⟨a, σ₁⟩ v hl hv
  refine .need fun hneed => ?_
  obtain ⟨sp, rfl⟩ : ∃ n, sp = n + 1 := ⟨sp - 1, by omega⟩
  have hm₁ := hm.keep hv.keeps hv.agrees
  rw [← View.goto_self hv.pc]
  refine (Meets.protect hsize hcode.left.right (.inl rfl) hm₁ fun u' hu' =>
    ih hcenv hright hcode.left.right.left.right hu' (by omega)).bind ?_
  rintro ⟨b, σ₂⟩ w hr ⟨hw, hbx⟩
  have happly : code.Holds (k + l.length + 2 + r.length + 2) (Compile.apply op) :=
    hcode.right.cast (by simp [Compile.push, Compile.pop]; omega)
  have hvalue := Meets.apply hsize happly (v := w)
  rw [hbx, hv.ax, hw.ax] at hvalue
  rw [← View.goto_self hw.pc]
  refine hvalue.bind ?_
  rintro x _ hx rfl
  refine .ok ⟨?_, by simp, ?_, ?_⟩
  · exact View.pc_goto _ (by simp [Compile.push, Compile.pop]; omega)
  · exact ((hv.keeps.trans hw.keeps).set (.inl rfl) _).goto _
  · exact (hw.agrees.set _ _).goto _

theorem EvalMeets.succ (hsize : code.size < 2147483648)
    (ih : EvalMeets s globals p code entries fuel)
    (ihelement : ElementMeets s globals p code entries fuel)
    (ihinvoke : InvokeMeets s globals p code entries fuel) :
    EvalMeets s globals p code entries (fuel + 1) := by
  intro cenv env addrs sp floor k room σ u node ops hcenv hops hcode hm hroom
  cases node with
  | number value =>
    cases hops
    simp only [Source.eval]
    refine .ldc hsize (hcode 0 _ rfl) (by decide) (by decide) (.ok ⟨rfl, by simp, ?_, ?_⟩)
    · exact ((View.Keeps.refl u).set (.inl rfl) _).goto _
    · exact (hm.agrees.set _ _).goto _
  | var name => exact meets_var hsize hops hcode hm
  | element name index => exact meets_element hsize ihelement hcenv hops hcode hm hroom
  | assign target value =>
    cases target with
    | var name => exact meets_assign_var hsize ih hcenv hops hcode hm hroom
    | element name index =>
      exact meets_assign_element hsize ih ihelement hcenv hops hcode hm hroom
    | _ => cases hops
  | binary op left right => exact meets_binary hsize ih hcenv hops hcode hm hroom
  | call name args =>
    simp only [Compile.expression, bind_eq_ok, pure_eq_ok] at hops
    obtain ⟨e, hentry, ops, hargs, rfl⟩ := hops
    simp only [Source.eval]
    have hget := hcenv name e (Compile.get?_of_entry hentry)
    refine (ihinvoke hcenv hget hargs hcode hm hroom).bind ?_
    rintro ⟨result, σ'⟩ v - hv
    cases result with
    | none => exact .hidden rfl
    | some w =>
      refine .ok ⟨?_, hv.ax w rfl, hv.keeps, hv.agrees⟩
      rw [hv.pc, List.length_append, Nat.add_assoc]
      rfl
  | _ => cases hops

end Expressions

end CMinus
