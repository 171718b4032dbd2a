import CMinus.Proofs.Compile
import CMinus.Proofs.Reference

namespace CMinus

theorem Size.add_eq_ok {a b c : Size} (h : a.add b = .ok c) :
    c.toNat = a.toNat + b.toNat := by
  rw [Size.add] at h
  split at h
  · next hlt =>
    cases h
    rw [UInt64.toNat_add]
    exact Nat.mod_eq_of_lt hlt
  · cases h

namespace Table

theorem allocate_eq_ok {t t' : Table} {name : String} {ty : VarType} {offset cells : Size}
    {v : Variable} (h : t.allocate name ty offset cells = .ok (v, t')) :
    t.get? name = none ∧ t'.scope = t.scope ∧ t'.size.toNat = t.size.toNat + cells.toNat ∧
      ∀ other, t'.get? other =
        if other = name then some ⟨t.scope, ty, offset⟩ else t.get? other := by
  rw [allocate] at h
  split at h
  · cases h
  · next hnew =>
    cases hsize : t.size.add cells with
    | error operation =>
      simp only [hsize] at h
      cases h
    | ok size =>
      simp only [hsize] at h
      cases h
      refine ⟨?_, rfl, Size.add_eq_ok hsize, fun other => NameMap.get?_insert ..⟩
      rw [get?]
      simpa [NameMap.contains] using hnew

theorem declareAll_cons_eq_ok {t t' : Table} {d : Declaration} {rest : List Declaration}
    (h : t.declareAll (d :: rest) = .ok t') :
    ∃ v t₁, t.declare d = .ok (v, t₁) ∧ t₁.declareAll rest = .ok t' := by
  rw [declareAll] at h
  split at h
  · next v t₁ hd => exact ⟨v, t₁, hd, h⟩
  · cases h

/-- The table has a variable for `name` that takes the cells of the binding, of `extent` cells with
the numbers from `n` on that start at offset `start`. -/
inductive Slot (t : Table) (name : String) (start n extent : Nat) : Binding → Prop
  | scalar {j : Nat} {offset : Size} : j < extent → offset.toNat = start + j →
      t.get? name = some ⟨t.scope, .int, offset⟩ → Slot t name start n extent (.scalar (n + j))
  | array {j length : Nat} {offset : Size} : j + length ≤ extent → offset.toNat = start + j + 1 →
      t.get? name = some ⟨t.scope, .array, offset⟩ →
      Slot t name start n extent (.array (n + j) length)

theorem Slot.shift {t : Table} {name : String} {start n extent cells : Nat} {b : Binding}
    (h : Slot t name (start + cells) (n + cells) extent b) :
    Slot t name start n (cells + extent) b := by
  cases h with
  | @scalar j offset hj hoffset hget =>
    rw [Nat.add_assoc]
    exact .scalar (by omega) (by omega) hget
  | @array j length offset hj hoffset hget =>
    rw [Nat.add_assoc]
    exact .array (by omega) (by omega) hget

theorem declareArray_eq_ok {t t' : Table} {name : String} {length : Size} {v : Variable}
    (hscope : t.scope ≠ .param) (h : t.declareArray name length = .ok (v, t')) :
    ∃ offset, t.size.add 1 = .ok offset ∧ t.allocate name .array offset length = .ok (v, t') := by
  rw [declareArray] at h
  cases hadd : t.size.add 1 with
  | ok offset =>
    refine ⟨offset, rfl, ?_⟩
    rw [hadd] at h
    split at h
    · next hparam => exact absurd hparam hscope
    · exact h
    · exact h
  | error operation =>
    rw [hadd] at h
    split at h
    · next hparam => exact absurd hparam hscope
    · cases h
    · cases h

theorem declare_item {t t' : Table} {item : Item} {v : Variable} (hscope : t.scope ≠ .param)
    (h : t.declare item.declaration = .ok (v, t')) :
    t.get? item.name = none ∧ t'.scope = t.scope ∧ t'.size.toNat = t.size.toNat + item.cells ∧
      ∃ ty offset,
        (∀ other, t'.get? other =
          if other = item.name then some ⟨t.scope, ty, offset⟩ else t.get? other) ∧
        (∀ n, ty = .int ∧ offset.toNat = t.size.toNat ∧ item.binding n = .scalar n ∧
            item.cells = 1 ∨
          ty = .array ∧ offset.toNat = t.size.toNat + 1 ∧ item.binding n = .array n item.cells) := by
  cases item with
  | int name =>
    have halloc : t.allocate name .int t.size 1 = .ok (v, t') := by
      rw [Item.declaration, declare, declareInt] at h
      split at h
      · next hparam => exact absurd hparam hscope
      · exact h
      · exact h
    obtain ⟨hnone, hscope', hsize, hget⟩ := allocate_eq_ok halloc
    exact ⟨hnone, hscope', hsize, .int, t.size, hget, fun n => .inl ⟨rfl, rfl, rfl, rfl⟩⟩
  | array name length =>
    obtain ⟨offset, hadd, halloc⟩ := declareArray_eq_ok hscope h
    obtain ⟨hnone, hscope', hsize, hget⟩ := allocate_eq_ok halloc
    exact ⟨hnone, hscope', hsize, .array, offset, hget,
      fun n => .inr ⟨rfl, Size.add_eq_ok hadd, rfl⟩⟩

theorem declareAll_items {t t' : Table} {items : List Item} (hscope : t.scope ≠ .param)
    (h : t.declareAll (items.map Item.declaration) = .ok t') :
    t'.scope = t.scope ∧ t'.size.toNat = t.size.toNat + Item.extent items := by
  induction items generalizing t with
  | nil =>
    cases h
    exact ⟨rfl, rfl⟩
  | cons item rest ih =>
    obtain ⟨v, t₁, hitem, hrest⟩ := declareAll_cons_eq_ok h
    obtain ⟨-, hscope₁, hsize, -⟩ := declare_item hscope hitem
    obtain ⟨hscope', hsize'⟩ := ih (hscope₁ ▸ hscope) hrest
    refine ⟨hscope'.trans hscope₁, ?_⟩
    rw [hsize', hsize, Item.extent]
    omega

/-- Every variable of a list has a slot in the table, and the table says nothing new of other
names. -/
theorem lookup_declareAll {t t' : Table} {items : List Item} (hscope : t.scope ≠ .param)
    (h : t.declareAll (items.map Item.declaration) = .ok t') (n : Nat) (name : String) :
    (∀ b, (Bindings.ofItems n items).lookup name = some b →
      t.get? name = none ∧ Slot t' name t.size.toNat n (Item.extent items) b) ∧
    ((Bindings.ofItems n items).lookup name = none → t'.get? name = t.get? name) := by
  induction items generalizing t n with
  | nil =>
    cases h
    exact ⟨fun _ hb => (nomatch hb), fun _ => rfl⟩
  | cons item rest ih =>
    obtain ⟨hfinal, -⟩ := declareAll_items hscope h
    obtain ⟨v, t₁, hitem, hrest⟩ := declareAll_cons_eq_ok h
    obtain ⟨hnew, hscope₁, hsize, ty, offset, hget, hkind⟩ := declare_item hscope hitem
    obtain ⟨hsome, hnone⟩ := ih (hscope₁ ▸ hscope) hrest (n + item.cells)
    by_cases hname : name = item.name
    · subst hname
      rw [Bindings.ofItems, List.lookup_cons_self]
      refine ⟨fun b hb => ⟨hnew, ?_⟩, fun hb => (nomatch hb)⟩
      cases hb
      -- No later variable has the name, or it would have been refused.
      have hlast : t'.get? item.name = some ⟨t'.scope, ty, offset⟩ := by
        cases hlookup : (Bindings.ofItems (n + item.cells) rest).lookup item.name with
        | none => rw [hnone hlookup, hget, if_pos rfl, hfinal]
        | some b =>
          have := (hsome b hlookup).1
          rw [hget, if_pos rfl] at this
          cases this
      obtain ⟨rfl, hoffset, hb, hcells⟩ | ⟨rfl, hoffset, hb⟩ := hkind n
      · rw [hb, Item.extent, hcells]
        exact .scalar (j := 0) (by omega) hoffset hlast
      · rw [hb, Item.extent]
        exact .array (j := 0) (by omega) hoffset hlast
    · have hlookup : (Bindings.ofItems n (item :: rest)).lookup name =
          (Bindings.ofItems (n + item.cells) rest).lookup name := by
        rw [Bindings.ofItems, List.lookup_cons, beq_false_of_ne hname]
      have hsame : t₁.get? name = t.get? name := by
        rw [hget, if_neg hname]
      rw [hlookup]
      refine ⟨fun b hb => ?_, fun hb => (hnone hb).trans hsame⟩
      obtain ⟨hfresh, hslot⟩ := hsome b hb
      rw [hsize] at hslot
      exact ⟨hsame ▸ hfresh, hslot.shift⟩

end Table

namespace Argument

/-- The addresses of scalar parameters, when the arguments lie from address `a` on. -/
def slots (a : Nat) : List Argument → List Nat
  | [] => []
  | arg :: rest => arg.contents.map (fun _ => a) ++ slots (a + 1) rest

theorem mem_slots {a b : Nat} {args : List Argument} (h : b ∈ slots a args) :
    ∃ i w, b = a + i ∧ args[i]? = some (.word w) := by
  induction args generalizing a with
  | nil => cases h
  | cons arg rest ih =>
    rcases List.mem_append.1 h with h | h
    · cases arg with
      | word w => exact ⟨0, w, List.mem_singleton.1 h, rfl⟩
      | array first length => cases h
    · obtain ⟨i, w, rfl, hget⟩ := ih h
      exact ⟨i + 1, w, by omega, hget⟩

theorem range_slots {a b : Nat} {args : List Argument} (h : b ∈ slots a args) :
    a ≤ b ∧ b < a + args.length := by
  obtain ⟨i, w, rfl, hget⟩ := mem_slots h
  have := (List.getElem?_eq_some_iff.1 hget).1
  omega

theorem nodup_slots (a : Nat) (args : List Argument) : (slots a args).Nodup := by
  induction args generalizing a with
  | nil => exact List.nodup_nil
  | cons arg rest ih =>
    cases arg with
    | word w =>
      refine List.nodup_cons.2 ⟨fun h => ?_, ih (a + 1)⟩
      have hrange : a + 1 ≤ a ∧ a < a + 1 + rest.length := range_slots h
      omega
    | array first length => exact ih (a + 1)

theorem length_slots (a : Nat) (args : List Argument) :
    (args.flatMap contents).length = (slots a args).length := by
  induction args generalizing a with
  | nil => rfl
  | cons arg rest ih => simp [slots, ih (a + 1)]

theorem getElem?_slots {a i : Nat} {w : Word} {args : List Argument}
    (h : args[i]? = some (.word w)) :
    (slots a args)[((args.take i).flatMap contents).length]? = some (a + i) := by
  induction args generalizing a i with
  | nil => simp at h
  | cons arg rest ih =>
    cases i with
    | zero =>
      cases h
      rfl
    | succ i =>
      rw [List.take_succ_cons, List.flatMap_cons, List.length_append, slots,
        List.getElem?_append_right (by simp), List.length_map, Nat.add_sub_cancel_left,
        ih h]
      congr 1
      omega

theorem getElem?_contents {a j b : Nat} {w : Word} {args : List Argument}
    (hb : (slots a args)[j]? = some b) (hw : (args.flatMap contents)[j]? = some (some w)) :
    ∃ i, b = a + i ∧ args[i]? = some (.word w) := by
  induction args generalizing a j with
  | nil => simp [slots] at hb
  | cons arg rest ih =>
    rw [slots, List.getElem?_append, List.length_map] at hb
    rw [List.flatMap_cons, List.getElem?_append] at hw
    split at hb
    · next hj =>
      rw [if_pos hj] at hw
      cases arg with
      | word x =>
        obtain rfl : j = 0 := by simpa [contents] using hj
        simp only [contents, List.map_cons, List.map_nil, List.getElem?_cons_zero,
          Option.some.injEq] at hb hw
        exact ⟨0, hb.symm, by rw [hw]; rfl⟩
      | array first length => simp [contents] at hj
    · next hj =>
      rw [if_neg hj] at hw
      obtain ⟨i, rfl, hget⟩ := ih hb hw
      exact ⟨i + 1, by omega, hget⟩

end Argument

namespace Table

theorem declare_param {t t' : Table} {name : String} {ty : VarType} {v : Variable}
    (hscope : t.scope = .param) (h : t.declare (.param name ty) = .ok (v, t')) :
    t.get? name = none ∧ t'.scope = .param ∧ t'.size.toNat = t.size.toNat + 1 ∧
      ∀ other, t'.get? other =
        if other = name then some ⟨.param, ty, t.size⟩ else t.get? other := by
  obtain ⟨hnone, hscope', hsize, hget⟩ := allocate_eq_ok h
  rw [hscope] at hscope' hget
  exact ⟨hnone, hscope', hsize, hget⟩

theorem size_declareAll_params {t t' : Table} {params : List (String × VarType)}
    (hscope : t.scope = .param)
    (h : t.declareAll (params.map fun param => .param param.1 param.2) = .ok t') :
    t'.size.toNat = t.size.toNat + params.length := by
  induction params generalizing t with
  | nil =>
    cases h
    rfl
  | cons param rest ih =>
    obtain ⟨v, t₁, hparam, hrest⟩ := declareAll_cons_eq_ok h
    obtain ⟨-, hscope₁, hsize, -⟩ := declare_param hscope hparam
    rw [ih hscope₁ hrest, hsize, List.length_cons]
    omega

theorem lookup_declareAll_params {t t' : Table} {params : List (String × VarType)}
    {args : List Argument} (htypes : args.map Argument.ty = params.map (·.2))
    (hscope : t.scope = .param)
    (h : t.declareAll (params.map fun param => .param param.1 param.2) = .ok t') (n : Nat)
    (name : String) :
    (∀ b, (Bindings.ofArguments n params args).lookup name = some b →
      t.get? name = none ∧ ∃ i arg offset, args[i]? = some arg ∧
        offset.toNat = t.size.toNat + i ∧ t'.get? name = some ⟨.param, arg.ty, offset⟩ ∧
        b = arg.binding (n + ((args.take i).flatMap Argument.contents).length)) ∧
    ((Bindings.ofArguments n params args).lookup name = none → t'.get? name = t.get? name) := by
  induction params generalizing t args n with
  | nil =>
    cases h
    exact ⟨fun _ hb => by simp [Bindings.ofArguments] at hb, fun _ => rfl⟩
  | cons param params ih =>
    obtain ⟨arg, args, rfl, hty, htypes⟩ := List.map_eq_cons_iff.1 htypes
    obtain ⟨v, t₁, hparam, hrest⟩ := declareAll_cons_eq_ok h
    obtain ⟨hnew, hscope₁, hsize, hget⟩ := declare_param hscope hparam
    obtain ⟨hsome, hnone⟩ := ih htypes hscope₁ hrest (n + arg.contents.length)
    by_cases hname : name = param.1
    · subst hname
      rw [Bindings.ofArguments, List.lookup_cons_self]
      refine ⟨fun b hb => ⟨hnew, 0, arg, t.size, rfl, rfl, ?_, ?_⟩, fun hb => (nomatch hb)⟩
      · -- No later parameter has the name, or it would have been refused.
        cases hlookup : (Bindings.ofArguments (n + arg.contents.length) params args).lookup
            param.1 with
        | none => rw [hnone hlookup, hget, if_pos rfl, hty]
        | some b =>
          have := (hsome b hlookup).1
          rw [hget, if_pos rfl] at this
          cases this
      · cases hb
        rfl
    · have hlookup : (Bindings.ofArguments n (param :: params) (arg :: args)).lookup name =
          (Bindings.ofArguments (n + arg.contents.length) params args).lookup name := by
        rw [Bindings.ofArguments, List.lookup_cons, beq_false_of_ne hname]
      have hsame : t₁.get? name = t.get? name := by
        rw [hget, if_neg hname]
      rw [hlookup]
      refine ⟨fun b hb => ?_, fun hb => (hnone hb).trans hsame⟩
      obtain ⟨hfresh, i, arg', offset, harg, hoffset, hfound, rfl⟩ := hsome b hb
      refine ⟨hsame ▸ hfresh, i + 1, arg', offset, harg, by omega, hfound, ?_⟩
      rw [List.take_succ_cons, List.flatMap_cons, List.length_append, Nat.add_assoc]

end Table

theorem Size.toNat_max (a b : Size) : (max a b).toNat = max a.toNat b.toNat := by
  change (if a ≤ b then b else a).toNat = max a.toNat b.toNat
  split
  · next h => exact (Nat.max_eq_right (UInt64.le_iff_toNat_le.1 h)).symm
  · next h =>
    rw [UInt64.le_iff_toNat_le] at h
    exact (Nat.max_eq_left (by omega)).symm

namespace Stmt

/-- The cells of the blocks around a statement. -/
def taken : Option Table → Nat
  | none => 0
  | some t => t.size.toNat

theorem scope_root (outer : Option Table) : (root outer).scope = .block := by
  cases outer <;> rfl

theorem size_root (outer : Option Table) : (root outer).size.toNat = taken outer := by
  cases outer <;> rfl

theorem get?_root (outer : Option Table) (name : String) : (root outer).get? name = none := by
  cases outer <;> rfl

theorem layout_block_eq_ok {returns : ReturnType} {outer : Option Table} {items : List Item}
    {body : List Stmt} {node : Node}
    (h : (block (some items) body).layout returns outer = .ok node) :
    ∃ table nodes, (root outer).declareAll (items.map Item.declaration) = .ok table ∧
      layoutAll returns (some table) body = .ok nodes ∧ node = .compound (some table) nodes ∧
      table.size.toNat = taken outer + Item.extent items := by
  simp only [layout, bind_eq_ok, pure_eq_ok] at h
  obtain ⟨table, htable, nodes, hnodes, rfl⟩ := h
  have hsize := (Table.declareAll_items (by rw [scope_root]; decide) htable).2
  exact ⟨table, nodes, htable, hnodes, rfl, by rw [hsize, size_root]⟩

mutual

/-- The tree of a statement needs the cells that the statement needs. -/
theorem frameSize_layout {returns : ReturnType} {outer : Option Table} {node : Node} :
    (stmt : Stmt) → stmt.layout returns outer = .ok node →
      node.frameSize.toNat = stmt.frame (taken outer)
  | expression e, h => by
    cases h
    rfl
  | block none body, h => by
    simp only [layout, bind_eq_ok, pure_eq_ok] at h
    obtain ⟨nodes, hnodes, rfl⟩ := h
    rw [Node.frameSize, Size.toNat_max, largestFrame_layout body hnodes, frame]
    exact Nat.max_eq_left (Nat.zero_le _)
  | block (some items) body, h => by
    obtain ⟨table, nodes, -, hnodes, rfl, hsize⟩ := layout_block_eq_ok h
    rw [Node.frameSize, Size.toNat_max, largestFrame_layout body hnodes, frame, taken, hsize]
  | branch test thenPart elsePart, h => by
    simp only [layout, bind_eq_ok, pure_eq_ok] at h
    obtain ⟨a, hthen, b, helse, rfl⟩ := h
    rw [Node.frameSize, Size.toNat_max, frameSize_layout thenPart hthen,
      optionalFrame_layout elsePart helse, frame]
  | loop test body, h => by
    simp only [layout, bind_eq_ok, pure_eq_ok] at h
    obtain ⟨b, hbody, rfl⟩ := h
    rw [Node.frameSize, frameSize_layout body hbody, frame]
  | ret value, h => by
    cases h
    rfl

theorem largestFrame_layout {returns : ReturnType} {outer : Option Table} {nodes : List Node} :
    (body : List Stmt) → layoutAll returns outer body = .ok nodes →
      (Node.largestFrame nodes).toNat = frameAll (taken outer) body
  | [], h => by
    cases h
    rfl
  | stmt :: rest, h => by
    simp only [layoutAll, bind_eq_ok, pure_eq_ok] at h
    obtain ⟨node, hstmt, nodes, hrest, rfl⟩ := h
    rw [Node.largestFrame, Size.toNat_max, frameSize_layout stmt hstmt,
      largestFrame_layout rest hrest, frameAll]

theorem optionalFrame_layout {returns : ReturnType} {outer : Option Table} {node : Option Node} :
    (stmt : Option Stmt) → layoutOptional returns outer stmt = .ok node →
      (Node.optionalFrame node).toNat = frameOptional (taken outer) stmt
  | none, h => by
    cases h
    rfl
  | some stmt, h => by
    simp only [layoutOptional, bind_eq_ok, pure_eq_ok] at h
    obtain ⟨node, hstmt, rfl⟩ := h
    exact frameSize_layout stmt hstmt

end

end Stmt

end CMinus
