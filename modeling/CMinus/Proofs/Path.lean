import CMinus.Proofs.Effect
import CMinus.Proofs.Pieces

namespace CMinus

namespace Node

mutual

/-- Some path through the statement gets to its end. The tests of branches and loops may come out
either way. -/
def completes : Node → Bool
  | compound _ statements => completesAll statements
  | branch _ thenPart elsePart => thenPart.completes || completesOptional elsePart
  | ret .. => false
  | _ => true

def completesAll : List Node → Bool
  | [] => true
  | node :: rest => node.completes && completesAll rest

def completesOptional : Option Node → Bool
  | none => true
  | some node => node.completes

end

end Node

namespace Operation

theorem destination_of_quiet {op : Operation} (h : op.writesPc = false) (a : Nat) :
    op.destination a = none := by
  obtain ⟨opcode, operands⟩ := op
  cases operands with
  | registers r s t => rfl
  | memory r d s =>
    have hjump : ¬ (opcode.isJump = true ∨ opcode = .lda ∧ r = .pc) := by
      rintro (hjump | ⟨rfl, rfl⟩)
      · cases opcode <;> simp_all [writesPc, Opcode.isJump]
      · cases h
    exact if_neg hjump

namespace Continues

variable {a b : Nat} {op : Operation}

theorem of_quiet (h : op.Continues a b) (hquiet : op.writesPc = false) : b = a + 1 := by
  cases h with
  | next => rfl
  | jump hb =>
    rw [destination_of_quiet hquiet] at hb
    cases hb
  | back hop =>
    subst hop
    cases hquiet

theorem jumpIfZero {t : Nat} (ht : t < 2147483648) (h : (Compile.jumpIfZero t).Continues a b) :
    b = a + 1 ∨ b = t := by
  cases h with
  | next => exact .inl rfl
  | jump hb =>
    have hd : (Word.low t).toInt = b := Option.some.inj hb
    rw [Word.toInt_low ht] at hd
    exact .inr (by omega)
  | back hop => cases hop

theorem eq_target {t : Nat} (ht : t < 2147483648) (h : (Compile.jump t).Continues a b) :
    b = t := by
  cases h with
  | next _ hfills => exact absurd rfl hfills
  | jump hb =>
    have hd : (Word.low t).toInt = b := Option.some.inj hb
    rw [Word.toInt_low ht] at hd
    omega
  | back hop => cases hop

theorem not_leave {d : Word} {s : Register} : ¬ (Operation.memory .ld .pc d s).Continues a b := by
  intro h
  cases h with
  | next _ hfills => exact hfills rfl
  | jump hb => cases hb
  | back hop => cases hop

end Continues

end Operation

/-- A path through code, inside one function. -/
inductive Code.Path (code : Code) (a : Nat) : Nat → Prop
  | refl : Path code a a
  | step {b c : Nat} {op : Operation} : Path code a b →
      (code.get? b).map (·.toOperation) = some op → op.Continues b c → Path code a c

namespace Code.Path

variable {code : Code} {a b c : Nat}

theorem trans (h : code.Path a b) (h' : code.Path b c) : code.Path a c := by
  induction h' with
  | refl => exact h
  | step _ hop hc ih => exact ih.step hop hc

theorem single {op : Operation} (hop : (code.get? a).map (·.toOperation) = some op)
    (hb : op.Continues a b) : code.Path a b :=
  Path.refl.step hop hb

theorem cast (h : code.Path a b) (hb : b = c) : code.Path a c :=
  hb ▸ h

end Code.Path

namespace Compile

/-- What holds at an operation of `ops`, which start at `base`, holds wherever control goes on
from it. -/
def Flows (live : Nat → Prop) (base : Nat) (ops : List Operation) : Prop :=
  ∀ i op b, ops[i]? = some op → live (base + i) → op.Continues (base + i) b → live b

namespace Flows

variable {live : Nat → Prop} {base : Nat} {ops ops' : List Operation}

theorem nil : Flows live base [] := by
  intro i op b hget
  cases hget

theorem single {op : Operation} (h : live base → ∀ b, op.Continues base b → live b) :
    Flows live base [op] := by
  intro i op' b hget hlive hc
  obtain ⟨hi, heq⟩ := List.getElem?_eq_some_iff.1 hget
  rw [List.length_singleton, Nat.lt_one_iff] at hi
  subst hi
  rw [List.getElem_singleton] at heq
  subst heq
  exact h hlive b hc

theorem append {k : Nat} (h : Flows live base ops) (h' : Flows live k ops')
    (hk : k = base + ops.length) : Flows live base (ops ++ ops') := by
  subst hk
  intro i op b hget hlive hc
  rw [List.getElem?_append] at hget
  split at hget
  · exact h i op b hget hlive hc
  · next hi =>
    have haddress : base + i = base + ops.length + (i - ops.length) := by omega
    rw [haddress] at hlive hc
    exact h' _ op b hget hlive hc

end Flows

/-- The addresses `live` of the code `ops`, which starts at `base`, are all that paths from its
start get to before they leave it. -/
structure Closed (live : Nat → Prop) (base : Nat) (ops : List Operation) : Prop where
  first : live base
  within : ∀ a, live a → base ≤ a ∧ a ≤ base + ops.length
  flows : Flows live base ops

namespace Closed

variable {live live' : Nat → Prop} {base : Nat} {ops ops' : List Operation}

theorem nil (base : Nat) : Closed (· = base) base [] :=
  ⟨rfl, fun _ h => ⟨Nat.le_of_eq h.symm, Nat.le_of_eq h⟩, .nil⟩

/-- Code stays closed among other code if nothing else becomes live in it. -/
theorem flowsIn (h : Closed live base ops) (hsub : ∀ a, live a → live' a)
    (hsame : ∀ a, base ≤ a → a < base + ops.length → live' a → live a) : Flows live' base ops := by
  intro i op b hget hlive hc
  have hi := (List.getElem?_eq_some_iff.1 hget).1
  exact hsub b (h.flows i op b hget (hsame _ (Nat.le_add_right ..) (by omega) hlive) hc)

theorem append (h : Closed live base ops) (h' : Closed live' (base + ops.length) ops') :
    Closed (fun a => live a ∨ live (base + ops.length) ∧ live' a) base (ops ++ ops') := by
  refine ⟨.inl h.first, ?_, ?_⟩
  · intro a ha
    rw [List.length_append]
    rcases ha with ha | ⟨-, ha⟩
    · have := h.within a ha
      omega
    · have := h'.within a ha
      omega
  · refine (h.flowsIn (fun a ha => .inl ha) ?_).append ?_ rfl
    · rintro a - hlt (ha | ⟨-, ha⟩)
      · exact ha
      · have := h'.within a ha
        omega
    · intro i op b hget hlive hc
      -- Only the end of `ops` can be live in both parts.
      have hboth : live (base + ops.length) ∧ live' (base + ops.length + i) := by
        rcases hlive with ha | hboth
        · have hi : i = 0 := by
            have := h.within _ ha
            omega
          subst hi
          exact ⟨ha, h'.first⟩
        · exact hboth
      exact .inr ⟨hboth.1, h'.flows i op b hget hboth.2 hc⟩

theorem append_end (h : Closed live base ops) (h' : Closed live' (base + ops.length) ops')
    (hend : live (base + (ops ++ ops').length) ∨
      live (base + ops.length) ∧ live' (base + (ops ++ ops').length)) :
    live (base + ops.length) ∧ live' (base + ops.length + ops'.length) := by
  rw [List.length_append, ← Nat.add_assoc] at hend
  rcases hend with hend | hboth
  · have hlen : ops'.length = 0 := by
      have := h.within _ hend
      omega
    rw [hlen, Nat.add_zero] at hend ⊢
    exact ⟨hend, h'.first⟩
  · exact hboth

end Closed

theorem Routed.continues {callee : Entry → Prop} {ops : List Operation}
    (h : Routed (fun _ => False) callee ops) {i a b : Nat} {op : Operation}
    (hget : ops[i]? = some op) (hc : op.Continues a b) : a < b ∧ b + i ≤ a + ops.length := by
  have hi := (List.getElem?_eq_some_iff.1 hget).1
  cases hw : op.writesPc with
  | false =>
    have := hc.of_quiet hw
    omega
  | true =>
    cases h i op hget hw with
    | jumpIfZero ht => exact ht.elim
    | jump ht => exact ht.elim
    | @test k opcode hop hs hk =>
      have hle : k + 5 ≤ ops.length := hs.length_le
      cases hc with
      | next => omega
      | jump hb =>
        simp only [Operation.memory, Operation.destination, hop, true_or, if_true] at hb
        have hd : (2 : Int) + (a + 1) = b := Option.some.inj hb
        omega
      | back hcall => cases hcall
    | @pass k opcode hop hs hk =>
      have hle : k + 5 ≤ ops.length := hs.length_le
      cases hc with
      | next _ hfills => exact absurd rfl hfills
      | jump hb =>
        have hd : (1 : Int) + (a + 1) = b := Option.some.inj hb
        omega
      | back hcall => cases hcall
    | @call k e he hs hk =>
      have hle : k + 5 ≤ ops.length := hs.length_le
      cases hc with
      | next _ hfills => exact absurd rfl hfills
      | jump hb => cases hb
      | back => omega
    | leave => exact absurd hc Operation.Continues.not_leave

theorem Routed.closed {callee : Entry → Prop} {ops : List Operation}
    (h : Routed (fun _ => False) callee ops) (base : Nat) :
    Closed (fun a => base ≤ a ∧ a ≤ base + ops.length) base ops := by
  refine ⟨⟨Nat.le_refl _, Nat.le_add_right ..⟩, fun _ ha => ha, ?_⟩
  intro i op b hget _ hc
  have := h.continues hget hc
  omega

theorem closed_expression {env : Env} {access : Access} {node : Node} {ops : List Operation}
    (h : expression env access node = .ok ops) (base : Nat) :
    Closed (fun a => base ≤ a ∧ a ≤ base + ops.length) base ops :=
  (routed_expression node h).closed base

theorem closed_returned {env : Env} {returns : ReturnType} {value : Option Node}
    {ops : List Operation} (h : returned env returns value = .ok ops) (base : Nat) :
    Closed (fun a => base ≤ a ∧ a ≤ base + ops.length) base ops :=
  (routed_returned h).closed base

theorem closed_epilogue (base : Nat) : Closed (fun a => base ≤ a ∧ a < base + 4) base epilogue := by
  refine ⟨⟨Nat.le_refl _, by omega⟩, fun a ha => ⟨ha.1, Nat.le_of_lt ha.2⟩, ?_⟩
  intro i op b hget _ hc
  match i, hget with
  | 0, hget | 1, hget | 2, hget =>
    cases hget
    have := hc.of_quiet rfl
    omega
  | 3, hget =>
    cases hget
    exact absurd hc Operation.Continues.not_leave

section Statements

variable {base mid next finish : Nat} {t a b : List Operation} {liveThen liveElse : Nat → Prop}

/-- The live addresses of a branch whose test starts at `base`. The jump behind the part that is
taken first stands at `last`. -/
inductive BranchLive (base mid last finish : Nat) (liveThen liveElse : Nat → Prop) : Nat → Prop
  | test {x : Nat} : base ≤ x → x < mid → BranchLive base mid last finish liveThen liveElse x
  | thenPart {x : Nat} : liveThen x → BranchLive base mid last finish liveThen liveElse x
  | elsePart {x : Nat} : liveElse x → BranchLive base mid last finish liveThen liveElse x
  | finish : liveThen last → BranchLive base mid last finish liveThen liveElse finish

theorem Closed.branch (hmid : mid = base + t.length + 1) (hnext : next = mid + a.length + 1)
    (hfinish : finish = next + b.length) (hsmall : finish < 2147483648)
    (ht : Closed (fun x => base ≤ x ∧ x ≤ base + t.length) base t)
    (ha : Closed liveThen mid a) (hb : Closed liveElse next b) :
    Closed (BranchLive base mid (mid + a.length) finish liveThen liveElse) base
      (t ++ [jumpIfZero next] ++ a ++ [jump finish] ++ b) := by
  have hthen := ha.within
  have helse := hb.within
  refine ⟨.test (Nat.le_refl _) (by omega), ?_, ?_⟩
  · intro x hx
    simp only [List.length_append, List.length_singleton]
    cases hx with
    | test hlow hhigh => omega
    | thenPart hx =>
      have := hthen x hx
      omega
    | elsePart hx =>
      have := helse x hx
      omega
    | finish => omega
  · have htest : Flows (BranchLive base mid (mid + a.length) finish liveThen liveElse) base t :=
      ht.flowsIn (fun x hx => .test hx.1 (by omega)) fun x hlow hhigh _ =>
        ⟨hlow, Nat.le_of_lt hhigh⟩
    have hskip : Flows (BranchLive base mid (mid + a.length) finish liveThen liveElse)
        (base + t.length) [jumpIfZero next] := by
      refine .single fun _ x hx => ?_
      rcases hx.jumpIfZero (by omega) with rfl | rfl
      · exact .thenPart (hmid ▸ ha.first)
      · exact .elsePart hb.first
    have hthenPart : Flows (BranchLive base mid (mid + a.length) finish liveThen liveElse) mid a := by
      refine ha.flowsIn (fun x hx => .thenPart hx) ?_
      intro x hlow hhigh hx
      cases hx with
      | test => omega
      | thenPart hx => exact hx
      | elsePart hx =>
        have := helse x hx
        omega
      | finish => omega
    have hjump : Flows (BranchLive base mid (mid + a.length) finish liveThen liveElse)
        (mid + a.length) [jump finish] := by
      refine .single fun hlive x hx => ?_
      cases hx.eq_target hsmall
      cases hlive with
      | test => omega
      | thenPart hlast => exact .finish hlast
      | elsePart hx =>
        have := helse _ hx
        omega
      | finish hlast => exact .finish hlast
    have helsePart : Flows (BranchLive base mid (mid + a.length) finish liveThen liveElse) next b := by
      refine hb.flowsIn (fun x hx => .elsePart hx) ?_
      intro x hlow hhigh hx
      cases hx with
      | test => omega
      | thenPart hx =>
        have := hthen x hx
        omega
      | elsePart hx => exact hx
      | finish => omega
    exact (((htest.append hskip rfl).append hthenPart (by simp; omega)).append hjump
      (by simp; omega)).append helsePart (by simp; omega)

/-- The live addresses of a loop whose test starts at `base`. -/
inductive LoopLive (base mid finish : Nat) (liveBody : Nat → Prop) : Nat → Prop
  | test {x : Nat} : base ≤ x → x < mid → LoopLive base mid finish liveBody x
  | body {x : Nat} : liveBody x → LoopLive base mid finish liveBody x
  | finish : LoopLive base mid finish liveBody finish

theorem Closed.loop {liveBody : Nat → Prop} (hmid : mid = base + t.length + 1)
    (hfinish : finish = mid + b.length + 1) (hsmall : finish < 2147483648)
    (ht : Closed (fun x => base ≤ x ∧ x ≤ base + t.length) base t) (hb : Closed liveBody mid b) :
    Closed (LoopLive base mid finish liveBody) base
      (t ++ [jumpIfZero finish] ++ b ++ [jump base]) := by
  have hbody := hb.within
  have hfirst : LoopLive base mid finish liveBody base := .test (Nat.le_refl _) (by omega)
  refine ⟨hfirst, ?_, ?_⟩
  · intro x hx
    simp only [List.length_append, List.length_singleton]
    cases hx with
    | test hlow hhigh => omega
    | body hx =>
      have := hbody x hx
      omega
    | finish => omega
  · have htest : Flows (LoopLive base mid finish liveBody) base t :=
      ht.flowsIn (fun x hx => .test hx.1 (by omega)) fun x hlow hhigh _ =>
        ⟨hlow, Nat.le_of_lt hhigh⟩
    have hskip : Flows (LoopLive base mid finish liveBody) (base + t.length)
        [jumpIfZero finish] := by
      refine .single fun _ x hx => ?_
      rcases hx.jumpIfZero hsmall with rfl | rfl
      · exact .body (hmid ▸ hb.first)
      · exact .finish
    have hround : Flows (LoopLive base mid finish liveBody) mid b := by
      refine hb.flowsIn (fun x hx => .body hx) ?_
      intro x hlow hhigh hx
      cases hx with
      | test => omega
      | body hx => exact hx
      | finish => omega
    have hjump : Flows (LoopLive base mid finish liveBody) (mid + b.length) [jump base] := by
      refine .single fun _ x hx => ?_
      cases hx.eq_target (by omega)
      exact hfirst
    exact ((htest.append hskip rfl).append hround (by simp; omega)).append hjump (by simp; omega)

mutual

/-- Paths through a statement get to its end only if the statement completes. -/
theorem closed_statement {env : Env} {base : Nat} {ops : List Operation} :
    (node : Node) → statement env base node = .ok ops → base + ops.length < 2147483648 →
      ∃ live, Closed live base ops ∧ (live (base + ops.length) → node.completes = true)
  | .function .., h, _ => nomatch h
  | .compound table body, h, hsmall => closed_statements body h hsmall
  | .branch test thenPart elsePart, h, hsmall => by
    simp only [statement, bind_eq_ok, pure_eq_ok] at h
    obtain ⟨t, htest, a, hthen, b, helse, rfl⟩ := h
    simp only [List.length_append, List.length_singleton] at hsmall
    obtain ⟨liveThen, hthen, hthenEnd⟩ := closed_statement thenPart hthen (by omega)
    obtain ⟨liveElse, helse, helseEnd⟩ := closed_optional elsePart helse (by omega)
    refine ⟨_, .branch rfl rfl rfl (by omega) (closed_expression htest base) hthen helse, ?_⟩
    intro hend
    rw [Node.completes, Bool.or_eq_true]
    simp only [List.length_append, List.length_singleton, ← Nat.add_assoc] at hend
    cases hend with
    | test => omega
    | thenPart hx =>
      have := hthen.within _ hx
      omega
    | elsePart hx => exact .inr (helseEnd hx)
    | finish hlast => exact .inl (hthenEnd hlast)
  | .loop test body, h, hsmall => by
    simp only [statement, bind_eq_ok, pure_eq_ok] at h
    obtain ⟨t, htest, b, hbody, rfl⟩ := h
    simp only [List.length_append, List.length_singleton] at hsmall
    obtain ⟨liveBody, hbody, -⟩ := closed_statement body hbody (by omega)
    exact ⟨_, .loop rfl rfl (by omega) (closed_expression htest base) hbody, fun _ => rfl⟩
  | .ret returns value, h, _ => by
    simp only [statement, bind_eq_ok, pure_eq_ok] at h
    obtain ⟨v, hvalue, rfl⟩ := h
    have hv := closed_returned hvalue base
    have hleave := closed_epilogue (base + v.length)
    refine ⟨_, hv.append hleave, fun hend => ?_⟩
    have hout := (hv.append_end hleave hend).2.2
    exact absurd hout (Nat.lt_irrefl _)
  | .number _, h, _ | .var _, h, _ | .element _ _, h, _ | .assign _ _, h, _
  | .binary _ _ _, h, _ | .call _ _, h, _ => ⟨_, closed_expression h _, fun _ => rfl⟩

theorem closed_statements {env : Env} {base : Nat} {ops : List Operation} :
    (nodes : List Node) → statements env base nodes = .ok ops → base + ops.length < 2147483648 →
      ∃ live, Closed live base ops ∧
        (live (base + ops.length) → Node.completesAll nodes = true)
  | [], h, _ => by
    cases h
    exact ⟨_, .nil base, fun _ => rfl⟩
  | node :: rest, h, hsmall => by
    simp only [statements, bind_eq_ok, pure_eq_ok] at h
    obtain ⟨a, hnode, b, hrest, rfl⟩ := h
    rw [List.length_append] at hsmall
    obtain ⟨live, hnode, hnodeEnd⟩ := closed_statement node hnode (by omega)
    obtain ⟨live', hrest, hrestEnd⟩ := closed_statements rest hrest (by omega)
    refine ⟨_, hnode.append hrest, fun hend => ?_⟩
    obtain ⟨hmid, hend⟩ := hnode.append_end hrest hend
    rw [Node.completesAll, hnodeEnd hmid, hrestEnd hend, Bool.and_self]

theorem closed_optional {env : Env} {base : Nat} {ops : List Operation} :
    (node : Option Node) → optional env base node = .ok ops → base + ops.length < 2147483648 →
      ∃ live, Closed live base ops ∧
        (live (base + ops.length) → Node.completesOptional node = true)
  | none, h, _ => by
    cases h
    exact ⟨_, .nil base, fun _ => rfl⟩
  | some node, h, hsmall => closed_statement node h hsmall

end

end Statements

/-- A path leads from the first of these operations to right behind the last, wherever they
stand. -/
def Passable (ops : List Operation) : Prop :=
  ∀ (code : Code) (base : Nat), code.Holds base ops → code.Path base (base + ops.length)

namespace Passable

variable {ops ops' : List Operation}

theorem nil : Passable [] :=
  fun _ _ _ => .refl

theorem single {op : Operation} (h : ∀ a, op.Continues a (a + 1)) : Passable [op] :=
  fun _ base hcode => .single (hcode 0 op rfl) (h base)

theorem append (h : Passable ops) (h' : Passable ops') : Passable (ops ++ ops') := by
  intro code base hcode
  have hpath := (h code base hcode.left).trans (h' code _ hcode.right)
  exact hpath.cast (by rw [List.length_append, Nat.add_assoc])

theorem straight (h : ∀ op ∈ ops, ∀ a, op.Continues a (a + 1)) : Passable ops := by
  induction ops with
  | nil => exact .nil
  | cons op ops ih =>
    obtain ⟨hop, hops⟩ := List.forall_mem_cons.1 h
    exact (Passable.single hop).append (ih hops)

end Passable

theorem continues_of_isJump {opcode : Opcode} (h : opcode.isJump = true) (r : Register) (d : Word)
    (s : Register) (a : Nat) : (Operation.memory opcode r d s).Continues a (a + 1) := by
  cases opcode with
  | jlt | jle | jgt | jge | jeq | jne => exact .next nofun nofun
  | _ => cases h

/-- Of the operations of expressions, only the jump over the true case of a comparison does not go
on to the next address. -/
theorem Plain.continues {op : Operation} (h : Plain op) (hpass : op ≠ .memory .lda .pc 1 .pc)
    (a : Nat) : op.Continues a (a + 1) := by
  cases h with
  | place hopcode _ =>
    simp only [List.mem_cons, List.not_mem_nil, or_false] at hopcode
    rcases hopcode with rfl | rfl <;> exact .next nofun nofun
  | through hopcode =>
    simp only [List.mem_cons, List.not_mem_nil, or_false] at hopcode
    rcases hopcode with rfl | rfl | rfl <;> exact .next nofun nofun
  | compute hopcode hr =>
    simp only [List.mem_cons, List.not_mem_nil, or_false] at hopcode hr
    rcases hopcode with rfl | rfl | rfl | rfl <;> rcases hr with rfl | rfl <;>
      exact .next nofun nofun
  | test hjump => exact continues_of_isJump hjump ..
  | pass => exact absurd rfl hpass
  | enter d => exact .back rfl
  | _ => exact .next nofun nofun

theorem passable_compare {opcode : Opcode} (h : opcode.isJump = true) :
    Passable (compare opcode) := by
  intro code base hcode
  have hsub : Operation.Continues base (.registers .sub .ax .bx .ax) (base + 1) := .next nofun nofun
  have hfalse : Operation.Continues (base + 2) (.memory .ldc .ax 0 .ax) (base + 3) :=
    .next nofun nofun
  have hpass : Operation.Continues (base + 3) (.memory .lda .pc 1 .pc) (base + 5) := by
    refine .jump (congrArg some ?_)
    change (1 : Int) + (((base + 3 : Nat) : Int) + 1) = ((base + 5 : Nat) : Int)
    omega
  exact (((Code.Path.single (hcode 0 _ rfl) hsub).step (hcode 1 _ rfl)
    (continues_of_isJump h ..)).step (hcode 2 _ rfl) hfalse).step (hcode 3 _ rfl) hpass

theorem passable_of_piece {part : List Operation} (h : ExpressionPiece part) : Passable part := by
  have hplain := plain_of_piece h
  have hstraight (hpass : .memory .lda .pc 1 .pc ∉ part) : Passable part :=
    .straight fun op hop => (hplain op hop).continues fun heq => hpass (heq ▸ hop)
  cases h with
  | apply op =>
    cases op with
    | add | sub | mul | div => exact hstraight (by decide)
    | equal | notEqual | lessThan | greaterThan | lessOrEqual | greaterOrEqual =>
      exact passable_compare rfl
  | loadVariable v access =>
    cases access with
    | address => exact .nil
    | value =>
      refine hstraight ?_
      rw [loadVariable]
      split <;> decide
  | loadElement access => cases access <;> exact hstraight (by decide)
  | pop | index | store => exact hstraight (by decide)
  | _ => exact hstraight (by simp [push, call, Operation.memory])

theorem Passable.of_assembled {ops : List Operation} (h : Assembled ExpressionPiece ops) :
    Passable ops := by
  induction h with
  | nil => exact .nil
  | join hpart _ ih => exact (passable_of_piece hpart).append ih

theorem passable_expression {env : Env} {access : Access} {node : Node} {ops : List Operation}
    (h : expression env access node = .ok ops) : Passable ops :=
  .of_assembled (assembled_expression node h)

section Statements

variable {code : Code}

theorem path_jump {a t : Nat} (ht : t < 2147483648)
    (hop : (code.get? a).map (·.toOperation) = some (jump t)) : code.Path a t :=
  .single hop (.jump (congrArg some (Word.toInt_low ht)))

theorem path_jumpIfZero {a t : Nat} (ht : t < 2147483648)
    (hop : (code.get? a).map (·.toOperation) = some (jumpIfZero t)) :
    code.Path a (a + 1) ∧ code.Path a t :=
  ⟨.single hop (.next nofun nofun), .single hop (.jump (congrArg some (Word.toInt_low ht)))⟩

mutual

/-- A path leads through every statement that completes. -/
theorem path_statement {env : Env} {base : Nat} {ops : List Operation} :
    (node : Node) → statement env base node = .ok ops → code.Holds base ops →
      base + ops.length < 2147483648 → node.completes = true →
      code.Path base (base + ops.length)
  | .function .., h, _, _, _ => nomatch h
  | .compound table body, h, hcode, hsmall, hc => path_statements body h hcode hsmall hc
  | .branch test thenPart elsePart, h, hcode, hsmall, hc => by
    simp only [statement, bind_eq_ok, pure_eq_ok] at h
    obtain ⟨t, htest, a, hthen, b, helse, rfl⟩ := h
    simp only [List.length_append, List.length_singleton, ← Nat.add_assoc] at hsmall ⊢
    have hskip := hcode.left.left.left
    have hto := path_jumpIfZero (by omega) (hskip.right 0 _ rfl)
    have hpath := passable_expression htest code base hskip.left
    rw [Node.completes, Bool.or_eq_true] at hc
    rcases hc with hc | hc
    · have hthen := path_statement thenPart hthen (hcode.left.left.right.cast (by simp; omega))
        (by omega) hc
      have hjump := hcode.left.right.cast (l := base + t.length + 1 + a.length) (by simp; omega)
      exact ((hpath.trans hto.1).trans hthen).trans (path_jump (by omega) (hjump 0 _ rfl))
    · have helse := path_optional elsePart helse (hcode.right.cast (by simp; omega)) (by omega) hc
      exact (hpath.trans hto.2).trans helse
  | .loop test body, h, hcode, hsmall, _ => by
    simp only [statement, bind_eq_ok, pure_eq_ok] at h
    obtain ⟨t, htest, b, hbody, rfl⟩ := h
    simp only [List.length_append, List.length_singleton, ← Nat.add_assoc] at hsmall ⊢
    have hskip := hcode.left.left
    have hto := path_jumpIfZero (by omega) (hskip.right 0 _ rfl)
    exact (passable_expression htest code base hskip.left).trans hto.2
  | .ret .., _, _, _, hc => nomatch hc
  | .number _, h, hcode, _, _ | .var _, h, hcode, _, _ | .element _ _, h, hcode, _, _
  | .assign _ _, h, hcode, _, _ | .binary _ _ _, h, hcode, _, _ | .call _ _, h, hcode, _, _ =>
    passable_expression h code _ hcode

theorem path_statements {env : Env} {base : Nat} {ops : List Operation} :
    (nodes : List Node) → statements env base nodes = .ok ops → code.Holds base ops →
      base + ops.length < 2147483648 → Node.completesAll nodes = true →
      code.Path base (base + ops.length)
  | [], h, _, _, _ => by
    cases h
    exact .refl
  | node :: rest, h, hcode, hsmall, hc => by
    simp only [statements, bind_eq_ok, pure_eq_ok] at h
    obtain ⟨a, hnode, b, hrest, rfl⟩ := h
    rw [List.length_append, ← Nat.add_assoc] at hsmall ⊢
    rw [Node.completesAll, Bool.and_eq_true] at hc
    have hnode := path_statement node hnode hcode.left (by omega) hc.1
    exact hnode.trans (path_statements rest hrest hcode.right hsmall hc.2)

theorem path_optional {env : Env} {base : Nat} {ops : List Operation} :
    (node : Option Node) → optional env base node = .ok ops → code.Holds base ops →
      base + ops.length < 2147483648 → Node.completesOptional node = true →
      code.Path base (base + ops.length)
  | none, h, _, _, _ => by
    cases h
    exact .refl
  | some node, h, hcode, hsmall, hc => path_statement node h hcode hsmall hc

end

end Statements

end Compile

end CMinus
