import CMinus.Proofs.Expression

namespace CMinus

abbrev Memory := Word → Word

def Memory.write (M : Memory) (a w : Word) : Memory :=
  fun b => if b = a then w else M b

/-- The address of a variable, and the cells that were read to find it. -/
structure Site where
  ty : VarType
  address : Word
  cells : List Word

/-- An array that is passed by reference is found at the address in its cell; other variables are
where their location says. The registers hold `base`. -/
def Scopes.site (scopes : Scopes) (base : Register → Word) (name : String) (M : Memory) :
    Except Stop Site :=
  match scopes.lookup name with
  | none => .error .illTyped
  | some v =>
    match v.locate with
    | .error _ => .error .illTyped
    | .ok location =>
      let a := location.displacement + base location.base
      match location.opcode with
      | .ld => .ok ⟨v.ty, M a, [a]⟩
      | _ => .ok ⟨v.ty, a, []⟩

structure Evaluation where
  result : Word
  memory : Memory
  /-- The cells that were read or written. -/
  cells : List Word

namespace Node

/-- The result of a reference by address is the address. Elements lie downward from the address of
their array, and all sums, differences and products wrap. A call has no result here. -/
def evaluate (scopes : Scopes) (base : Register → Word) (access : Access) :
    Node → Memory → Except Stop Evaluation
  | number w, M => .ok ⟨w, M, []⟩
  | var name, M => do
    let site ← scopes.site base name M
    match access, site.ty with
    | .value, .int => .ok ⟨M site.address, M, site.cells ++ [site.address]⟩
    | _, _ => .ok ⟨site.address, M, site.cells⟩
  | element name index, M => do
    let site ← scopes.site base name M
    let i ← index.evaluate scopes base .value M
    let a := site.address - i.result
    match access with
    | .value => .ok ⟨i.memory a, i.memory, site.cells ++ i.cells ++ [a]⟩
    | .address => .ok ⟨a, i.memory, site.cells ++ i.cells⟩
  | assign target value, M =>
    if target.isPlace then do
      let t ← target.evaluate scopes base .address M
      let v ← value.evaluate scopes base .value t.memory
      .ok ⟨v.result, v.memory.write t.result v.result, t.cells ++ v.cells ++ [t.result]⟩
    else .error .illTyped
  | binary op left right, M => do
    let l ← left.evaluate scopes base .value M
    let r ← right.evaluate scopes base .value l.memory
    let w ← op.value l.result r.result
    .ok ⟨w, r.memory, l.cells ++ r.cells⟩
  | _, _ => .error .illTyped

def callFree : Node → Bool
  | number _ | var _ => true
  | element _ index => index.callFree
  | assign target value => target.callFree && value.callFree
  | binary _ left right => left.callFree && right.callFree
  | _ => false

/-- The most cells that the code of an expression has pushed at one time. -/
def pushes : Node → Nat
  | element _ index => index.pushes + 1
  | assign target value => max target.pushes (value.pushes + 1)
  | binary _ left right => max left.pushes (right.pushes + 1)
  | _ => 0

def resultIn (access : Access) (node : Node) : Register :=
  match access with
  | .value => .ax
  | .address => if node.isPlace then .bx else .ax

variable {scopes : Scopes} {base : Register → Word} {a : Word}

/-- Evaluation changes no cell but those it gives. -/
theorem memory_evaluate : (node : Node) → {access : Access} → {M : Memory} → {e : Evaluation} →
    node.evaluate scopes base access M = .ok e → a ∉ e.cells → e.memory a = M a
  | number w, _, _, _, h, _ => by
    cases h
    rfl
  | var name, access, M, e, h, _ => by
    simp only [evaluate, bind_eq_ok] at h
    obtain ⟨site, -, h⟩ := h
    split at h <;> cases h <;> rfl
  | element name index, access, M, e, h, ha => by
    simp only [evaluate, bind_eq_ok] at h
    obtain ⟨site, -, i, hi, h⟩ := h
    have hindex := memory_evaluate index hi
    cases access <;> cases h
    · simp only [List.mem_append, not_or] at ha
      exact hindex ha.1.2
    · simp only [List.mem_append, not_or] at ha
      exact hindex ha.2
  | assign target value, access, M, e, h, ha => by
    rw [evaluate] at h
    split at h
    · simp only [bind_eq_ok] at h
      obtain ⟨t, ht, v, hv, h⟩ := h
      cases h
      simp only [List.mem_append, List.mem_singleton, not_or] at ha
      obtain ⟨⟨hat, hav⟩, hne⟩ := ha
      simp only [Memory.write, if_neg hne]
      rw [memory_evaluate value hv hav, memory_evaluate target ht hat]
    · cases h
  | binary op left right, access, M, e, h, ha => by
    simp only [evaluate, bind_eq_ok] at h
    obtain ⟨l, hl, r, hr, w, -, h⟩ := h
    cases h
    simp only [List.mem_append, not_or] at ha
    rw [memory_evaluate right hr ha.2, memory_evaluate left hl ha.1]
  | call .., _, _, _, h, _ | function .., _, _, _, h, _ | compound .., _, _, _, h, _
  | branch .., _, _, _, h, _ | loop .., _, _, _, h, _ | ret .., _, _, _, h, _ => by cases h

end Node

/-- The failures that quotients have. -/
def Stop.IsQuotient (stop : Stop) : Prop :=
  stop = .divisionByZero ∨ stop = .quotientOverflow

theorem BinaryOp.fails_value (op : BinaryOp) (a b : Word) :
    Fails Stop.IsQuotient (op.value a b) := by
  cases op with
  | div =>
    rw [value]
    split
    · exact .error (.inl rfl)
    · cases a.div b with
      | ok w => exact .ok w
      | error o => exact .error (.inr rfl)
  | _ => exact .ok _

theorem Scopes.site_isOk {env : Env} {name : String} {v : Variable} {ops : List Operation}
    (h : Compile.place env name = .ok (v, ops)) (base : Register → Word) (M : Memory) :
    ∃ site, env.scopes.site base name M = .ok site := by
  obtain ⟨hlookup, location, hlocate, -⟩ := place_eq_ok h
  simp only [site, hlookup, hlocate]
  split <;> exact ⟨_, rfl⟩

/-- An expression without calls that has code has a result, but for trouble with a quotient. -/
theorem Node.fails_evaluate {env : Env} {base : Register → Word} :
    (node : Node) → {access : Access} → {ops : List Operation} →
      Compile.expression env access node = .ok ops → node.callFree = true → (M : Memory) →
      Fails Stop.IsQuotient (node.evaluate env.scopes base access M)
  | number w, _, _, _, _, _ => .ok _
  | var name, access, _, hops, _, M => by
    simp only [Compile.expression, bind_eq_ok] at hops
    obtain ⟨⟨v, target⟩, hplace, -⟩ := hops
    obtain ⟨site, hsite⟩ := Scopes.site_isOk hplace base M
    rw [evaluate, hsite, ok_bind]
    split <;> exact .ok _
  | element name index, access, _, hops, hfree, M => by
    simp only [Compile.expression, bind_eq_ok] at hops
    obtain ⟨⟨v, target⟩, hplace, i, hindex, -⟩ := hops
    obtain ⟨site, hsite⟩ := Scopes.site_isOk hplace base M
    rw [evaluate, hsite, ok_bind]
    apply (fails_evaluate index hindex hfree M).bind
    intro i
    cases access <;> exact .ok _
  | assign target value, _, _, hops, hfree, M => by
    rw [Compile.expression] at hops
    rw [callFree, Bool.and_eq_true] at hfree
    split at hops
    · next hplace =>
      simp only [bind_eq_ok] at hops
      obtain ⟨t, htarget, v, hvalue, -⟩ := hops
      rw [evaluate, if_pos hplace]
      apply (fails_evaluate target htarget hfree.1 M).bind
      intro t
      apply (fails_evaluate value hvalue hfree.2 t.memory).bind
      intro v
      exact .ok _
    · cases hops
  | binary op left right, _, _, hops, hfree, M => by
    simp only [Compile.expression, bind_eq_ok] at hops
    rw [callFree, Bool.and_eq_true] at hfree
    obtain ⟨l, hleft, r, hright, -⟩ := hops
    rw [evaluate]
    apply (fails_evaluate left hleft hfree.1 M).bind
    intro l
    apply (fails_evaluate right hright hfree.2 l.memory).bind
    intro r
    apply (op.fails_value l.result r.result).bind
    intro w
    exact .ok _
  | call .., _, _, _, hfree, _ | function .., _, _, _, hfree, _ | compound .., _, _, _, hfree, _
  | branch .., _, _, _, hfree, _ | loop .., _, _, _, hfree, _ | ret .., _, _, _, hfree, _ => by
    cases hfree

end CMinus
