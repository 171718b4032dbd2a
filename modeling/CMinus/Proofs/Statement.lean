import CMinus.Proofs.Call

namespace CMinus

section Frames

variable {addrs extra : List Nat} {bp taken k : Nat} {u v w : View} {x : Flow × Store}

theorem Framed.keep (h : Framed addrs bp taken u) (hkeeps : u.Keeps addrs bp v) :
    Framed addrs bp taken v where
  base := hkeeps.bp.trans h.base
  limit := h.limit
  saved := h.saved
  used := h.used
  back := by
    obtain ⟨l, hl⟩ := h.back
    exact ⟨l, (hkeeps.mem _ (Nat.le_succ _) h.saved.2).trans hl⟩

theorem Left.of_keeps {y : Option Word × Store} (h : Left addrs bp v y w)
    (hf : Framed addrs bp taken u) (hkeeps : u.Keeps addrs bp v) : Left addrs bp u y w where
  pc := by rw [h.pc, hkeeps.mem _ (Nat.le_succ _) hf.saved.2]
  top := h.top
  base := by rw [h.base, hkeeps.mem _ (Nat.le_refl _) hf.saved.1]
  gp := h.gp.trans hkeeps.gp
  zero := h.zero.trans hkeeps.zero
  mem a ha hmem := (h.mem a ha hmem).trans (hkeeps.mem a ha hmem)
  ax := h.ax
  agrees := h.agrees

theorem Finished.of_keeps (h : Finished addrs bp v k x w) (hf : Framed addrs bp taken u)
    (hkeeps : u.Keeps addrs bp v) : Finished addrs bp u k x w := by
  cases h with
  | next hpc hkeeps' hagrees => exact .next hpc (hkeeps.trans hkeeps') hagrees
  | returned hleft => exact .returned (hleft.of_keeps hf hkeeps)

theorem Finished.cast {l : Nat} (h : Finished addrs bp u k x v) (hk : k = l) :
    Finished addrs bp u l x v :=
  hk ▸ h

/-- A block's own cells lie below the frame base, so nobody outside the block misses them. -/
theorem Finished.release {flow : Flow} {σ : Store} {n : Nat}
    (h : Finished (addrs ++ extra) bp u k (flow, σ) v) (hextra : ∀ a ∈ extra, a < bp)
    (hn : n = addrs.length) : Finished addrs bp u k (flow, σ.release n) v := by
  have hmem : ∀ a, bp ≤ a → a ∉ addrs → a ∉ addrs ++ extra := by
    intro a ha hmem hmem'
    rcases List.mem_append.1 hmem' with hmem' | hmem'
    · exact hmem hmem'
    · have := hextra a hmem'
      omega
  cases h with
  | next hpc hkeeps hagrees =>
    refine .next hpc ⟨hkeeps.sp, hkeeps.bp, hkeeps.gp, hkeeps.zero, fun a ha ha' => ?_⟩
      (hagrees.release hn)
    exact hkeeps.mem a ha (hmem a ha ha')
  | returned hleft =>
    refine .returned ⟨hleft.pc, hleft.top, hleft.base, hleft.gp, hleft.zero, fun a ha ha' => ?_,
      hleft.ax, hleft.agrees.release hn⟩
    exact hleft.mem a ha (hmem a ha ha')

theorem Framed.enter {n : Nat} (h : Framed addrs bp taken u) (hle : taken + n ≤ bp) :
    Framed (addrs ++ cellsBelow (bp - taken) n) bp (taken + n) u := by
  have hcells : ∀ a ∈ cellsBelow (bp - taken) n, bp ≤ a + (taken + n) ∧ a < bp := by
    intro a ha
    have := mem_cellsBelow (by omega) ha
    omega
  refine ⟨h.base, h.limit, ⟨fun ha => ?_, fun ha => ?_⟩, fun a ha => ?_, h.back⟩
  · rcases List.mem_append.1 ha with ha | ha
    · exact h.saved.1 ha
    · have := hcells _ ha
      omega
  · rcases List.mem_append.1 ha with ha | ha
    · exact h.saved.2 ha
    · have := hcells _ ha
      omega
  · rcases List.mem_append.1 ha with ha | ha
    · have := h.used a ha
      omega
    · exact (hcells a ha).1

theorem Matches.enter {globals env : Bindings} {globalTable : Table} {scopes : Scopes} {sp : Nat}
    {σ : Store} {outer : Option Table} {table : Table} {items : List Item}
    (hm : Matches globals globalTable env scopes addrs sp bp σ u)
    (hf : Framed addrs bp (Stmt.taken outer) u)
    (htable : (Stmt.root outer).declareAll (items.map Item.declaration) = .ok table)
    (hle : sp + (Stmt.taken outer + Item.extent items) ≤ bp) :
    Matches globals globalTable (Bindings.ofItems σ.cells.length items ++ env) (table :: scopes)
      (addrs ++ cellsBelow (bp - Stmt.taken outer) (Item.extent items)) sp bp
      (σ.allocate (List.replicate (Item.extent items) none)) u := by
  have hscope : (Stmt.root outer).scope ≠ .param := by
    rw [Stmt.scope_root]
    decide
  have hlimit := hf.limit
  have hcells : ∀ a ∈ cellsBelow (bp - Stmt.taken outer) (Item.extent items),
      sp ≤ a ∧ a + Stmt.taken outer < bp := by
    intro a ha
    have := mem_cellsBelow (by omega) ha
    omega
  refine ⟨hm.top, hm.base, hm.zero, hm.below, hm.limit, ?_, ?_, ?_, ?_, ?_⟩
  · refine hm.agrees.allocate (fun _ _ => rfl) rfl rfl (by simp) fun j a w _ hw => ?_
    simp [List.getElem?_replicate] at hw
  · refine List.nodup_append.2 ⟨hm.nodup, nodup_cellsBelow (by omega), fun a ha b hb => ?_⟩
    have := hf.used a ha
    have := hcells b hb
    omega
  · intro a ha
    rcases List.mem_append.1 ha with ha | ha
    · exact hm.range a ha
    · have := hcells a ha
      omega
  · intro name b hb
    obtain ⟨hsome, hnone⟩ := Table.lookup_declareAll hscope htable σ.cells.length name
    rw [List.lookup_append, Option.or_eq_some_iff] at hb
    rcases hb with hb | ⟨hb, henv⟩
    · obtain ⟨-, hslot⟩ := hsome b hb
      have hbase : table.scope.Based .bp := by
        rw [(Table.declareAll_items hscope htable).1, Stmt.scope_root]
        exact .block
      rw [Stmt.size_root] at hslot
      obtain ⟨var, hvar, hplaced⟩ := hslot.placed hbase hm.agrees.length (by omega)
        (by omega : bp < 1024)
      exact ⟨var, by simp [Scopes.lookup, hvar], .placed (.inr rfl) (hplaced u hf.base)⟩
    · obtain ⟨var, hvar, hlocated⟩ := hm.visible name b henv
      have hget : table.get? name = none := (hnone hb).trans (Stmt.get?_root outer name)
      refine ⟨var, ?_, hlocated.append fun a ha => ?_⟩
      · simpa [Scopes.lookup, hget] using hvar
      · have := hcells a ha
        omega
  · intro name b hb
    obtain ⟨var, hvar, hplaced⟩ := hm.global name b hb
    exact ⟨var, hvar, fun v hv => (hplaced v hv).append _⟩

end Frames

section Statements

variable {s : Source} {globals : Bindings} {p : Program} {code : Code} {entries : NameMap Entry}
  {fuel : Nat} {cenv : Env} {env : Bindings} {addrs : List Nat} {sp bp k room : Nat} {σ : Store}
  {u : View} {returns : ReturnType} {outer : Option Table} {node : Node} {ops : List Operation}

/-- An expression as a statement. A call need not have a value here. -/
theorem meets_expression {e : Node} (iheval : EvalMeets s globals p code entries fuel)
    (ihinvoke : InvokeMeets s globals p code entries fuel) (hcenv : cenv.Within entries)
    (hops : Compile.statement cenv k e = .ok ops) (hcode : code.Holds k ops)
    (hm : Matches globals p.globals env cenv.scopes addrs sp bp σ u) (hroom : room ≤ sp) :
    Meets code (s.exec globals (fuel + 1) returns env room (.expression e) σ)
      (Finished addrs bp u (k + ops.length)) (u.goto k) := by
  cases e with
  | call name args =>
    simp only [Compile.statement, Compile.expression, bind_eq_ok, pure_eq_ok] at hops
    obtain ⟨entry, hentry, ops, hargs, rfl⟩ := hops
    simp only [Source.exec]
    have hget := hcenv name entry (Compile.get?_of_entry hentry)
    refine (ihinvoke hcenv hget hargs hcode hm hroom).bind ?_
    rintro ⟨result, σ'⟩ v - hv
    refine .ok (.next ?_ (hv.keeps.mono hm.below) hv.agrees)
    rw [hv.pc, List.length_append, Nat.add_assoc]
    rfl
  | number _ | var _ | element _ _ | assign _ _ | binary _ _ _ =>
    simp only [Source.exec]
    refine (iheval hcenv hops hcode hm hroom).bind ?_
    rintro ⟨x, σ'⟩ v - hv
    exact .ok (.next hv.pc (hv.keeps.mono hm.below) hv.agrees)
  | function _ _ _ | compound _ _ | branch _ _ _ | loop _ _ | ret _ _ =>
    simp only [Source.exec]
    cases fuel <;> simp only [Source.eval, error_bind] <;> exact .hidden rfl

theorem meets_block {items : List Item} {body : List Stmt}
    (ih : ExecAllMeet s globals p code entries fuel) (hcenv : cenv.Within entries)
    (hlayout : (Stmt.block (some items) body).layout returns outer = .ok node)
    (hops : Compile.statement cenv k node = .ok ops) (hcode : code.Holds k ops)
    (hm : Matches globals p.globals env cenv.scopes addrs sp bp σ u)
    (hf : Framed addrs bp (Stmt.taken outer) u)
    (hframe : sp + (Stmt.block (some items) body).frame (Stmt.taken outer) ≤ bp)
    (hroom : room ≤ sp) :
    Meets code (s.exec globals (fuel + 1) returns env room (.block (some items) body) σ)
      (Finished addrs bp u (k + ops.length)) (u.goto k) := by
  obtain ⟨table, nodes, htable, hnodes, rfl, htaken⟩ := Stmt.layout_block_eq_ok hlayout
  rw [Stmt.frame] at hframe
  simp only [Compile.statement] at hops
  simp only [Source.exec]
  have hm' := hm.enter hf htable (by omega)
  have hf' := hf.enter (by omega : Stmt.taken outer + Item.extent items ≤ bp)
  have htaken' : Stmt.taken (some table) = Stmt.taken outer + Item.extent items := htaken
  rw [← htaken'] at hf' hframe
  refine (ih (hcenv.enter (some table)) hnodes hops hcode hm' hf' (by omega)
    hroom).bind ?_
  rintro ⟨flow, σ'⟩ v - hv
  refine .ok (hv.release (fun a ha => ?_) hm.agrees.length)
  have := mem_cellsBelow (by omega) ha
  omega

theorem meets_test {α : Type} {test : Node} {target : Nat} {f : Word × Store → Except Stop α}
    {Q : α → View → Prop} (hsize : code.size < 2147483648)
    (ih : EvalMeets s globals p code entries fuel) (hcenv : cenv.Within entries)
    (hops : Compile.expression cenv .value test = .ok ops)
    (hcode : code.Holds k (ops ++ [Compile.jumpIfZero target]))
    (hm : Matches globals p.globals env cenv.scopes addrs sp bp σ u) (hroom : room ≤ sp)
    (h : ∀ w σ' v, u.Keeps addrs bp v → σ'.Agrees addrs v →
      Meets code (f (w, σ')) Q (v.goto (if w = 0 then target else k + ops.length + 1))) :
    Meets code (s.eval globals fuel env room test σ >>= f) Q (u.goto k) := by
  refine (ih hcenv hops hcode.left hm hroom).bind ?_
  rintro ⟨w, σ'⟩ v - hv
  have hjump : code.Holds (k + ops.length) [Compile.jumpIfZero target] := hcode.right
  rw [← View.goto_self hv.pc]
  refine .step (View.steps_jumpIfZero hsize (hjump 0 _ rfl) (hv.keeps.zero.trans hm.zero)) ?_
  rw [hv.ax]
  exact h w σ' v (hv.keeps.mono hm.below) hv.agrees

theorem meets_branch {test : Node} {thenPart : Stmt} {elsePart : Option Stmt}
    (hsize : code.size < 2147483648) (iheval : EvalMeets s globals p code entries fuel)
    (ih : ExecMeets s globals p code entries fuel) (hcenv : cenv.Within entries)
    (hlayout : (Stmt.branch test thenPart elsePart).layout returns outer = .ok node)
    (hops : Compile.statement cenv k node = .ok ops) (hcode : code.Holds k ops)
    (hm : Matches globals p.globals env cenv.scopes addrs sp bp σ u)
    (hf : Framed addrs bp (Stmt.taken outer) u)
    (hframe : sp + (Stmt.branch test thenPart elsePart).frame (Stmt.taken outer) ≤ bp)
    (hroom : room ≤ sp) :
    Meets code (s.exec globals (fuel + 1) returns env room (.branch test thenPart elsePart) σ)
      (Finished addrs bp u (k + ops.length)) (u.goto k) := by
  simp only [Stmt.layout, bind_eq_ok, pure_eq_ok] at hlayout
  obtain ⟨thenNode, hthen, elseNode, helse, rfl⟩ := hlayout
  simp only [Compile.statement, bind_eq_ok, pure_eq_ok] at hops
  obtain ⟨t, htest, a, hthenOps, b, helseOps, rfl⟩ := hops
  rw [Stmt.frame] at hframe
  simp only [Source.exec]
  refine meets_test hsize iheval hcenv htest hcode.left.left.left hm hroom
    fun w σ' v hkeeps hagrees => ?_
  have hm' := hm.keepFrame hkeeps hagrees
  have hf' := hf.keep hkeeps
  dsimp only
  split
  · have helseCode := hcode.right.cast (l := k + t.length + 1 + a.length + 1) (by simp; omega)
    cases elsePart with
    | none =>
      cases helse
      cases helseOps
      exact .ok (.next (v.pc_goto (by simp; omega)) (hkeeps.goto _) (hagrees.goto _))
    | some stmt =>
      simp only [Stmt.layoutOptional, bind_eq_ok, pure_eq_ok] at helse
      obtain ⟨node, hnode, rfl⟩ := helse
      rw [Stmt.frameOptional] at hframe
      refine (ih hcenv hnode helseOps helseCode hm' hf' (by omega) hroom).mono fun x w _ hw => ?_
      exact (hw.of_keeps hf hkeeps).cast (by simp; omega)
  · have hthenCode := hcode.left.left.right.cast (l := k + t.length + 1) (by simp; omega)
    refine (ih hcenv hthen hthenOps hthenCode hm' hf' (by omega) hroom).after ?_
    intro x w _ hw
    cases hw with
    | next hpc hkeeps' hagrees' =>
      have hjump := hcode.left.right.cast (l := k + t.length + 1 + a.length) (by simp; omega)
      have hzero : w.get .zero = 0 := hkeeps'.zero.trans hm'.zero
      rw [← View.goto_self hpc]
      refine .step (View.steps_jump hsize (hjump 0 _ rfl) hzero) (.ok ?_)
      exact .next (w.pc_goto (by simp; omega)) ((hkeeps.trans hkeeps').goto _) (hagrees'.goto _)
    | returned hleft => exact .ok (.returned (hleft.of_keeps hf hkeeps))

theorem meets_loop {test : Node} {body : Stmt} (hsize : code.size < 2147483648)
    (iheval : EvalMeets s globals p code entries fuel)
    (ih : ExecMeets s globals p code entries fuel) (hcenv : cenv.Within entries)
    (hlayout : (Stmt.loop test body).layout returns outer = .ok node)
    (hops : Compile.statement cenv k node = .ok ops) (hcode : code.Holds k ops)
    (hm : Matches globals p.globals env cenv.scopes addrs sp bp σ u)
    (hf : Framed addrs bp (Stmt.taken outer) u)
    (hframe : sp + (Stmt.loop test body).frame (Stmt.taken outer) ≤ bp) (hroom : room ≤ sp) :
    Meets code (s.exec globals (fuel + 1) returns env room (.loop test body) σ)
      (Finished addrs bp u (k + ops.length)) (u.goto k) := by
  -- The rest of the loop runs the same code with less fuel.
  have hagain : ∀ σ' v, u.Keeps addrs bp v → σ'.Agrees addrs v →
      Meets code (s.exec globals fuel returns env room (.loop test body) σ')
        (Finished addrs bp v (k + ops.length)) (v.goto k) := fun σ' v hkeeps hagrees =>
    ih hcenv hlayout hops hcode (hm.keepFrame hkeeps hagrees) (hf.keep hkeeps) hframe hroom
  simp only [Stmt.layout, bind_eq_ok, pure_eq_ok] at hlayout
  obtain ⟨bodyNode, hbody, rfl⟩ := hlayout
  simp only [Compile.statement, bind_eq_ok, pure_eq_ok] at hops
  obtain ⟨t, htest, b, hbodyOps, rfl⟩ := hops
  rw [Stmt.frame] at hframe
  simp only [Source.exec]
  refine meets_test hsize iheval hcenv htest hcode.left.left hm hroom
    fun w σ' v hkeeps hagrees => ?_
  dsimp only
  split
  · exact .ok (.next (v.pc_goto (by simp; omega)) (hkeeps.goto _) (hagrees.goto _))
  · have hbodyCode := hcode.left.right.cast (l := k + t.length + 1) (by simp; omega)
    have hm' := hm.keepFrame hkeeps hagrees
    refine (ih hcenv hbody hbodyOps hbodyCode hm' (hf.keep hkeeps) hframe hroom).bind ?_
    rintro ⟨flow, σ''⟩ w - hw
    cases hw with
    | next hpc hkeeps' hagrees' =>
      have hjump := hcode.right.cast (l := k + t.length + 1 + b.length) (by simp; omega)
      have hzero : w.get .zero = 0 := hkeeps'.zero.trans hm'.zero
      have hkeeps'' := hkeeps.trans hkeeps'
      rw [← View.goto_self hpc]
      refine .step (View.steps_jump hsize (hjump 0 _ rfl) hzero) ?_
      exact (hagain σ'' w hkeeps'' hagrees').mono fun x v' _ hx => hx.of_keeps hf hkeeps''
    | returned hleft => exact .ok (.returned (hleft.of_keeps hf hkeeps))

theorem meets_ret {value : Option Node} (hsize : code.size < 2147483648)
    (ih : EvalMeets s globals p code entries fuel) (hcenv : cenv.Within entries)
    (hops : Compile.statement cenv k (.ret returns value) = .ok ops) (hcode : code.Holds k ops)
    (hm : Matches globals p.globals env cenv.scopes addrs sp bp σ u)
    (hf : Framed addrs bp (Stmt.taken outer) u) (hroom : room ≤ sp) :
    Meets code (s.exec globals (fuel + 1) returns env room (.ret value) σ)
      (Finished addrs bp u (k + ops.length)) (u.goto k) := by
  simp only [Compile.statement, bind_eq_ok, pure_eq_ok] at hops
  obtain ⟨a, ha, rfl⟩ := hops
  have hleave : ∀ (result : Option Word) σ' v, u.Keeps addrs bp v → σ'.Agrees addrs v →
      (∀ w, result = some w → v.get .ax = w) →
      Meets code (.ok (.returned result, σ'))
        (Finished addrs bp u (k + (a ++ Compile.epilogue).length)) (v.goto (k + a.length)) := by
    intro result σ' v hkeeps hagrees hax
    refine (hf.leave hsize hcode.right hkeeps hagrees hax).bind
      (f := fun x => .ok (Flow.returned x.1, x.2)) ?_
    rintro ⟨value, σ''⟩ v' - hx
    exact .ok (.returned hx)
  cases value with
  | none =>
    cases returns with
    | void =>
      cases ha
      simp only [Source.exec]
      refine hleave none σ u (.refl u) hm.agrees fun w hw => ?_
      cases hw
    | int | array =>
      simp only [Source.exec]
      exact .hidden rfl
  | some e =>
    cases returns with
    | void =>
      simp only [Source.exec]
      exact .hidden rfl
    | int | array =>
      simp only [Source.exec]
      refine (ih hcenv ha hcode.left hm hroom).bind ?_
      rintro ⟨w, σ'⟩ v - hv
      rw [← View.goto_self hv.pc]
      refine hleave (some w) σ' v (hv.keeps.mono hm.below) hv.agrees fun x hx => ?_
      cases hx
      exact hv.ax

end Statements

section Runs

variable {s : Source} {globals : Bindings} {p : Program} {code : Code} {entries : NameMap Entry}
  {fuel : Nat}

theorem ExecMeets.succ (hsize : code.size < 2147483648)
    (iheval : EvalMeets s globals p code entries fuel)
    (ihinvoke : InvokeMeets s globals p code entries fuel)
    (ih : ExecMeets s globals p code entries fuel)
    (ihall : ExecAllMeet s globals p code entries fuel) :
    ExecMeets s globals p code entries (fuel + 1) := by
  intro cenv env addrs sp bp k room σ u returns outer stmt node ops hcenv hlayout hops hcode hm hf
    hframe hroom
  match stmt with
  | .expression e =>
    cases hlayout
    exact meets_expression iheval ihinvoke hcenv hops hcode hm hroom
  | .block none body =>
    simp only [Stmt.layout, bind_eq_ok, pure_eq_ok] at hlayout
    obtain ⟨nodes, hnodes, rfl⟩ := hlayout
    simp only [Compile.statement] at hops
    simp only [Source.exec]
    rw [Stmt.frame] at hframe
    exact ihall hcenv hnodes hops hcode hm hf hframe hroom
  | .block (some items) body => exact meets_block ihall hcenv hlayout hops hcode hm hf hframe hroom
  | .branch test thenPart elsePart =>
    exact meets_branch hsize iheval ih hcenv hlayout hops hcode hm hf hframe hroom
  | .loop test body => exact meets_loop hsize iheval ih hcenv hlayout hops hcode hm hf hframe hroom
  | .ret value =>
    cases hlayout
    exact meets_ret hsize iheval hcenv hops hcode hm hf hroom

theorem ExecAllMeet.succ (ih : ExecMeets s globals p code entries fuel)
    (ihall : ExecAllMeet s globals p code entries fuel) :
    ExecAllMeet s globals p code entries (fuel + 1) := by
  intro cenv env addrs sp bp k room σ u returns outer body nodes ops hcenv hlayout hops hcode hm hf
    hframe hroom
  cases body with
  | nil =>
    cases hlayout
    cases hops
    simp only [Source.execAll]
    exact .ok (.next rfl ((View.Keeps.refl u).goto k) (hm.agrees.goto k))
  | cons stmt rest =>
    simp only [Stmt.layoutAll, bind_eq_ok, pure_eq_ok] at hlayout
    obtain ⟨node, hnode, nodes, hnodes, rfl⟩ := hlayout
    simp only [Compile.statements, bind_eq_ok, pure_eq_ok] at hops
    obtain ⟨a, ha, b, hb, rfl⟩ := hops
    rw [Stmt.frameAll] at hframe
    simp only [Source.execAll]
    refine (ih hcenv hnode ha hcode.left hm hf (by omega) hroom).bind ?_
    rintro ⟨flow, σ'⟩ v - hv
    cases hv with
    | next hpc hkeeps hagrees =>
      rw [← View.goto_self hpc]
      refine (ihall hcenv hnodes hb hcode.right (hm.keepFrame hkeeps hagrees) (hf.keep hkeeps)
        (by omega) hroom).mono fun x w _ hx => ?_
      exact (hx.of_keeps hf hkeeps).cast (by rw [List.length_append, Nat.add_assoc])
    | returned hleft => exact .ok (.returned hleft)

/-- The code of every part of a program does what the interpreter says. -/
structure Simulates (s : Source) (globals : Bindings) (p : Program) (code : Code)
    (entries : NameMap Entry) (fuel : Nat) : Prop where
  eval : EvalMeets s globals p code entries fuel
  element : ElementMeets s globals p code entries fuel
  arguments : ArgumentsMeet s globals p code entries fuel
  invoke : InvokeMeets s globals p code entries fuel
  exec : ExecMeets s globals p code entries fuel
  execAll : ExecAllMeet s globals p code entries fuel

theorem Linked.simulates (h : Linked s p code entries) (globals : Bindings) :
    Simulates s globals p code entries fuel := by
  induction fuel with
  | zero =>
    refine ⟨fun _ _ _ _ _ => ?_, fun _ _ _ _ _ _ => ?_, fun _ _ _ _ _ => ?_,
      fun _ _ _ _ _ _ => ?_, fun _ _ _ _ _ _ _ _ => ?_, fun _ _ _ _ _ _ _ _ => ?_⟩
    · rw [Source.eval]
      exact .hidden rfl
    · rw [Source.element]
      exact .hidden rfl
    · rw [Source.arguments]
      exact .hidden rfl
    · rw [Source.invoke]
      exact .hidden rfl
    · rw [Source.exec]
      exact .hidden rfl
    · rw [Source.execAll]
      exact .hidden rfl
  | succ fuel ih =>
    exact ⟨EvalMeets.succ h.size ih.eval ih.element ih.invoke, ElementMeets.succ h.size ih.eval,
      ArgumentsMeet.succ h.size ih.eval ih.arguments, InvokeMeets.succ h ih.arguments ih.exec,
      ExecMeets.succ h.size ih.eval ih.invoke ih.exec ih.execAll,
      ExecAllMeet.succ ih.exec ih.execAll⟩

end Runs

end CMinus
