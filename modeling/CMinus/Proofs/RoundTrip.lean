import CMinus.Proofs.ReadBack

namespace CMinus

namespace Json.Reader

variable {α β γ δ σ : Type}

/-- Every value that the reader answers satisfies `P`. -/
def Yields (P : α → Prop) (r : Reader α) : Prop :=
  ∀ cs x rest, r cs = .ok (x, rest) → P x

section
variable {P : α → Prop} {Q : β → Prop} {r : Reader α} {f : α → Reader β}

theorem Yields.bind (h : Yields P r) (hf : ∀ x, P x → Yields Q (f x)) : Yields Q (r >>= f) := by
  intro cs y rest hy
  cases hr : r cs with
  | error e =>
    rw [bind_of_error hr] at hy
    cases hy
  | ok found =>
    obtain ⟨x, mid⟩ := found
    rw [bind_of_ok hr] at hy
    exact hf x (h cs x mid hr) mid y rest hy

theorem Yields.after (hf : ∀ x, Yields Q (f x)) : Yields Q (r >>= f) :=
  Yields.bind (P := fun _ => True) (fun _ _ _ _ => trivial) fun x _ => hf x

theorem Yields.mono {P' : α → Prop} (h : Yields P r) (hP : ∀ x, P x → P' x) : Yields P' r :=
  fun cs x rest hx => hP x (h cs x rest hx)

theorem Yields.pure {x : α} (h : P x) : Yields P (Pure.pure x : Reader α) := by
  intro cs y rest hy
  cases hy
  exact h

theorem Yields.fail (e : ReadError) : Yields P (fail e) := by
  intro cs x rest h
  cases h

theorem Yields.mismatch (expected : String) : Yields P (mismatch expected) :=
  .after fun _ => .fail _

theorem Yields.enter {body : Nat → Reader α} {budget : Nat}
    (h : ∀ b < budget, Yields P (body b)) : Yields P (enter budget body) := by
  cases budget with
  | zero => exact .fail _
  | succ budget => exact .after fun _ => h budget (Nat.lt_succ_self budget)

end

/-- A reader answers values that are nested no deeper than its budget. -/
def Fits (depth : α → Nat) (read : Nat → Reader α) : Prop :=
  ∀ budget, Yields (depth · ≤ budget) (read budget)

theorem Fits.scalar (read : Nat → Reader α) : Fits (fun _ => 0) read :=
  fun budget _ _ _ _ => Nat.zero_le budget

theorem elements_yields {P : α → Prop} {item : Reader α} (h : Yields P item) (fuel : List Char)
    (isFirst : Bool) {taken : List α} (htaken : ∀ x ∈ taken, P x) :
    Yields (fun xs => ∀ x ∈ xs, P x) (elements item fuel isFirst taken) := by
  induction fuel generalizing isFirst taken with
  | nil => exact .fail _
  | cons step fuel ih =>
    refine .after fun more => ?_
    split
    · refine h.bind fun x hx => ih false ?_
      simpa using ⟨hx, htaken⟩
    · exact .pure (by simpa using htaken)

theorem sequence_yields {P : α → Prop} {expected : String} {body : Nat → Reader α} {budget : Nat}
    (h : ∀ b < budget, Yields P (body b)) : Yields P (sequence expected body budget) := by
  refine .after fun c => ?_
  split
  · exact .enter fun b hb => (h b hb).bind fun x hx => .after fun _ => .pure hx
  · exact .mismatch expected

theorem Fits.list {depth : α → Nat} {item : Nat → Reader α} (h : Fits depth item) :
    Fits (fun xs => enclosing (xs.map depth)) (list item) := by
  intro budget
  refine sequence_yields fun b hb => .after fun cs => ?_
  refine (elements_yields (h b) cs true (by simp)).mono fun xs hxs => ?_
  exact enclosing_le hb (by simpa using hxs)

theorem component_yields {P : α → Prop} {expected : String} {count index : Nat} {item : Reader α}
    (h : Yields P item) : Yields P (component expected count index item) := by
  refine .after fun more => ?_
  split
  · exact h
  · exact .fail _

theorem Fits.nullable {depth : α → Nat} {item : Nat → Reader α} (h : Fits depth item) :
    Fits (Document.depthOption depth) (fun budget => nullable (item budget)) := by
  intro budget
  refine .after fun c => ?_
  split
  · exact .after fun _ => .after fun _ => .pure (Nat.zero_le budget)
  · exact (h budget).bind fun x hx => .pure hx

theorem members_yields {P : σ → Prop} {member : σ → String → Reader σ}
    (h : ∀ state key, P state → Yields P (member state key)) (fuel : List Char) (isFirst : Bool)
    {state : σ} (hstate : P state) : Yields P (members member fuel isFirst state) := by
  induction fuel generalizing isFirst state with
  | nil => exact .fail _
  | cons step fuel ih =>
    refine .after fun more => ?_
    split
    · exact .after fun _ => .after fun key => (h state key hstate).bind fun next => ih false
    · exact .pure hstate

theorem object_yields {P : σ → Prop} {member : σ → String → Reader σ} {start : σ}
    (h : ∀ state key, P state → Yields P (member state key)) (hstart : P start) :
    Yields P (object member start) :=
  .after fun fuel => (members_yields h fuel true hstart).bind fun _ hx => .after fun _ => .pure hx

theorem fieldValue_yields {P : σ → Prop} {fields : List (Field σ)}
    (h : ∀ field ∈ fields, ∀ state, P state → Yields P (field.read state)) (state : σ)
    (key : String) (hstate : P state) : Yields P (fieldValue fields state key) := by
  rw [fieldValue]
  split
  · exact .after fun _ => .after fun _ => .pure hstate
  · split
    · exact .fail _
    · next field hfind _ =>
      exact .after fun _ => h field (List.mem_of_find?_eq_some hfind) state hstate

theorem fieldElements_yields {P : σ → Prop} {expected : String} {count : Nat}
    {fields : List (Field σ)}
    (h : ∀ field ∈ fields, ∀ state, P state → Yields P (field.read state)) (index : Nat)
    {state : σ} (hstate : P state) :
    Yields P (fieldElements expected count index fields state) := by
  induction fields generalizing index state with
  | nil => exact .pure hstate
  | cons field fields ih =>
    refine (component_yields (h field (by simp) state hstate)).bind fun next hnext => ?_
    exact ih (fun f hf => h f (by simp [hf])) (index + 1) hnext

/-- The fields of a record keep `I` in whichever order they come; at the end it gives `P`. -/
theorem record_yields {P : α → Prop} {I : Nat → σ → Prop} {name : String}
    {fields : Nat → List (Field σ)} {start : σ} {finish : σ → Reader α} {budget : Nat}
    (hfields : ∀ b, ∀ field ∈ fields b, ∀ state, I b state → Yields (I b) (field.read state))
    (hstart : ∀ b, I b start)
    (hfinish : ∀ b < budget, ∀ state, I b state → Yields P (finish state)) :
    Yields P (record name fields start finish budget) := by
  refine .after fun c => ?_
  split
  · refine .enter fun b hb => ?_
    refine (fieldElements_yields (hfields b) 0 (hstart b)).bind fun state hstate => ?_
    exact (hfinish b hb state hstate).bind fun x hx => .after fun _ => .pure hx
  · split
    · refine .enter fun b hb => ?_
      exact (object_yields (fieldValue_yields (hfields b)) (hstart b)).bind (hfinish b hb)
    · exact .mismatch _

theorem required_yields {P : α → Prop} {name : String} {x : Option α} (h : ∀ y ∈ x, P y) :
    Yields P (required name x) := by
  cases x with
  | none => exact .fail _
  | some y => exact .pure (h y rfl)

theorem Fits.record2 {dA : α → Nat} {dB : β → Nat} {depth : γ → Nat} {name : String}
    {a : Part α} {b : Part β} {make : α → β → γ}
    (hdepth : ∀ x y, depth (make x y) = enclosing [dA x, dB y])
    (ha : Fits dA a.2) (hb : Fits dB b.2) : Fits depth (record2 name a b make) := by
  intro budget
  -- Parts read so far fit, whether or not all of them are there.
  refine record_yields (I := fun n state => (∀ x ∈ state.1, dA x ≤ n) ∧ ∀ y ∈ state.2, dB y ≤ n)
    (fun n field hfield state ⟨hx, hy⟩ => ?_) (fun n => by simp) (fun n hn state ⟨hx, hy⟩ => ?_)
  · simp only [List.mem_cons, List.not_mem_nil, or_false] at hfield
    obtain rfl | rfl := hfield
    · exact (ha n).bind fun x hx => .pure ⟨by simpa using hx, hy⟩
    · exact (hb n).bind fun y hy => .pure ⟨hx, by simpa using hy⟩
  · refine (required_yields hx).bind fun x hx => (required_yields hy).bind fun y hy => .pure ?_
    rw [hdepth]
    exact enclosing_le hn (by simp [hx, hy])

theorem Fits.record3 {dA : α → Nat} {dB : β → Nat} {dC : γ → Nat} {depth : δ → Nat}
    {name : String} {a : Part α} {b : Part β} {c : Part γ} {make : α → β → γ → δ}
    (hdepth : ∀ x y z, depth (make x y z) = enclosing [dA x, dB y, dC z])
    (ha : Fits dA a.2) (hb : Fits dB b.2) (hc : Fits dC c.2) :
    Fits depth (record3 name a b c make) := by
  intro budget
  refine record_yields
    (I := fun n state => (∀ x ∈ state.1, dA x ≤ n) ∧ (∀ y ∈ state.2.1, dB y ≤ n) ∧
      ∀ z ∈ state.2.2, dC z ≤ n)
    (fun n field hfield state ⟨hx, hy, hz⟩ => ?_) (fun n => by simp)
    (fun n hn state ⟨hx, hy, hz⟩ => ?_)
  · simp only [List.mem_cons, List.not_mem_nil, or_false] at hfield
    obtain rfl | rfl | rfl := hfield
    · exact (ha n).bind fun x hx => .pure ⟨by simpa using hx, hy, hz⟩
    · exact (hb n).bind fun y hy => .pure ⟨hx, by simpa using hy, hz⟩
    · exact (hc n).bind fun z hz => .pure ⟨hx, hy, by simpa using hz⟩
  · refine (required_yields hx).bind fun x hx => (required_yields hy).bind fun y hy =>
      (required_yields hz).bind fun z hz => .pure ?_
    rw [hdepth]
    exact enclosing_le hn (by simp [hx, hy, hz])

/-- A repeated name replaces a value, and no other value is lost or made. -/
theorem Fits.names {depth : α → Nat} {item : Nat → Reader α} (h : Fits depth item) :
    Fits (Document.depthNames depth) (Document.names item) := by
  intro budget
  refine .after fun c => ?_
  split
  · refine .enter fun n hn => ?_
    refine (object_yields (P := fun m => ∀ entry ∈ m.entries, depth entry.2 ≤ n)
      (fun m key hm => ?_) (by simp [NameMap.empty])).mono fun m hm => ?_
    · refine .after fun _ => (h n).bind fun x hx => .pure fun entry hentry => ?_
      obtain rfl | hold := NameMap.mem_place hentry
      · exact hx
      · exact hm entry hold
    · refine enclosing_le hn fun d hd => ?_
      obtain ⟨entry, hentry, rfl⟩ := List.mem_map.1 hd
      exact hm entry hentry
  · exact .mismatch _

theorem variantName_yields {P : Variant α → Prop} {variants : List (Variant α)}
    (h : ∀ v ∈ variants, P v) : Yields P (variantName variants) := by
  refine .after fun _ => .after fun name => ?_
  split
  · next v hfind => exact .pure (h v (List.mem_of_find?_eq_some hfind))
  · exact .fail _

theorem variantKey_yields {P : Variant α → Prop} {variants : List (Variant α)}
    (h : ∀ v ∈ variants, P v) : Yields P (variantKey variants) := by
  refine .after fun c => ?_
  split
  · exact variantName_yields h
  · exact .fail _
  · exact .fail _

/-- A case whose bare name means an unnested value, and whose payload takes one level less. -/
structure CaseFits (depth : α → Nat) (v : Variant α) : Prop where
  bare : Yields (depth · = 0) v.bare
  payload : Fits (depth · - 1) v.payload

theorem Fits.variant {depth : α → Nat} {variants : List (Variant α)}
    (h : ∀ v ∈ variants, CaseFits depth v) : Fits depth (variant variants) := by
  intro budget
  refine .after fun c => ?_
  split
  · refine .enter fun n hn => (variantKey_yields h).bind fun v hv => .after fun _ => ?_
    refine (hv.payload n).bind fun x (hx : depth x - 1 ≤ n) => .after fun c => ?_
    split
    · exact .fail _
    · exact .after fun _ => .pure (by omega)
    · exact .fail _
  · split
    · exact (variantName_yields h).bind fun v hv => hv.bare.mono fun x hx => by omega
    · exact .fail _

end Json.Reader

open Json Json.Reader

theorem Variable.read_fits : Fits depth read :=
  .record3 (fun _ _ _ => rfl) (.scalar _) (.scalar _) (.scalar _)

theorem Table.read_fits : Fits depth read :=
  .record3 (fun _ _ _ => rfl) (.scalar _) (.scalar _) Variable.read_fits.names

theorem Signature.read_fits : Fits depth read :=
  .record2 (fun _ _ => rfl) (.scalar _) Table.read_fits

namespace Node

variable {α β γ : Type} {dA : α → Nat} {dB : β → Nat} {dC : γ → Nat}

theorem pair_fits {name : String} {a : Nat → Reader α} {b : Nat → Reader β} {make : α → β → Node}
    (hdepth : ∀ x y, (make x y).depth = enclosing [enclosing [dA x, dB y]])
    (ha : Fits dA a) (hb : Fits dB b) : CaseFits depth (pair name a b make) := by
  refine ⟨.fail _, fun budget => sequence_yields fun n hn => ?_⟩
  refine (component_yields (ha n)).bind fun x hx => (component_yields (hb n)).bind fun y hy =>
    .pure ?_
  change (make x y).depth - 1 ≤ budget
  rw [hdepth, enclosing_singleton]
  exact enclosing_le hn (by simp [hx, hy])

theorem triple_fits {name : String} {a : Nat → Reader α} {b : Nat → Reader β}
    {c : Nat → Reader γ} {make : α → β → γ → Node}
    (hdepth : ∀ x y z, (make x y z).depth = enclosing [enclosing [dA x, dB y, dC z]])
    (ha : Fits dA a) (hb : Fits dB b) (hc : Fits dC c) :
    CaseFits depth (triple name a b c make) := by
  refine ⟨.fail _, fun budget => sequence_yields fun n hn => ?_⟩
  refine (component_yields (ha n)).bind fun x hx => (component_yields (hb n)).bind fun y hy =>
    (component_yields (hc n)).bind fun z hz => .pure ?_
  change (make x y z).depth - 1 ≤ budget
  rw [hdepth, enclosing_singleton]
  exact enclosing_le hn (by simp [hx, hy, hz])

theorem each_fits {child : Nat → Reader Node} (h : Fits depth child) :
    Fits (fun nodes => enclosing (depthEach nodes)) (list child) := by
  simpa only [depthEach_eq_map] using h.list

theorem optional_fits {child : Nat → Reader Node} (h : Fits depth child) :
    Fits depthOptional (optionally child) := by
  rw [funext depthOptional_eq]
  exact h.nullable

theorem variants_fit {child : Nat → Reader Node} (h : Fits depth child) :
    ∀ v ∈ variants child, CaseFits depth v := by
  have hfunction : Fits (depth · - 1) (record3 "FunctionDecl" ("name", Document.name)
      ("return_type", ReturnType.read) ("body", child) function) := by
    refine .record3 (fun _ _ body => ?_) (.scalar _) (.scalar _) h
    rw [depth, enclosing_singleton]
    rfl
  simp only [variants, List.forall_mem_cons]
  exact ⟨⟨.fail _, hfunction⟩,
    pair_fits (fun _ _ => rfl) Table.read_fits.nullable (each_fits h),
    triple_fits (fun _ _ _ => rfl) h h (optional_fits h),
    pair_fits (fun _ _ => rfl) h h,
    pair_fits (fun _ _ => rfl) (.scalar _) (optional_fits h),
    ⟨.fail _, fun _ => .after fun _ => .pure (Nat.zero_le _)⟩,
    ⟨.fail _, fun _ => .after fun _ => .pure (Nat.zero_le _)⟩,
    pair_fits (fun _ _ => rfl) (.scalar _) h,
    pair_fits (fun _ _ => rfl) h h,
    triple_fits (fun _ _ _ => rfl) (.scalar _) h h,
    pair_fits (fun _ _ => rfl) (.scalar _) (each_fits h),
    fun v hv => absurd hv List.not_mem_nil⟩

theorem readWithin_fits (levels : Nat) : Fits depth (readWithin levels) := by
  induction levels with
  | zero => exact fun _ => .fail _
  | succ levels ih => exact .variant (variants_fit ih)

theorem read_fits : Fits depth read :=
  fun budget => readWithin_fits (budget + 1) budget

end Node

theorem Program.read_fits : Fits depth read :=
  .record3 (fun _ _ _ => rfl) Table.read_fits Signature.read_fits.names
    (Node.each_fits Node.read_fits)

namespace Document

/-- A written value is read back exactly if its text has at most 127 brackets open at once, and what
a text reads as survives being written and read again. -/
structure RoundTrips {α : Type} (read : Nat → Reader α) (write : α → List Char) : Prop where
  reads_iff : ∀ value,
    parse read (String.ofList (write value)) = .ok value ↔ nesting (write value) ≤ 127
  tooDeep : ∀ value, 127 < nesting (write value) →
    parse read (String.ofList (write value)) = .error .tooDeep
  stable : ∀ text value, parse read text = .ok value →
    parse read (String.ofList (write value)) = .ok value

section
variable {α : Type} {read : Nat → Reader α} {write : α → List Char} {depth : α → Nat}

theorem parse_write {value : α} {d : Nat} (h : Takes 128 read (write value) d value) :
    parse read (String.ofList (write value)) = within 127 d (.ok value) := by
  have hread := h.reads 127 (by decide) [] Number.stops_nil
  rw [List.append_nil] at hread
  rw [parse, depthLimit, Reader.run, String.toList_ofList, hread]
  unfold within
  split <;> rfl

theorem depth_le_of_parse (h : Fits depth read) {text : String} {value : α}
    (hparse : parse read text = .ok value) : depth value ≤ 127 := by
  rw [parse, Reader.run] at hparse
  cases hread : read depthLimit text.toList with
  | error e => simp [hread, bind, Except.bind] at hparse
  | ok found =>
    obtain ⟨x, rest⟩ := found
    have hx := h depthLimit _ _ _ hread
    simp only [hread, bind, Except.bind] at hparse
    split at hparse
    · obtain rfl : x = value := by simpa [pure, Except.pure] using hparse
      exact hx
    · cases hparse

theorem RoundTrips.of_depth (hspans : ∀ value, Spans (write value) (depth value))
    (htakes : ∀ value, Takes 128 read (write value) (depth value) value)
    (hfits : Fits depth read) : RoundTrips read write where
  reads_iff value := by
    rw [parse_write (htakes value), (hspans value).nesting_eq, within]
    split <;> simp_all
  tooDeep value hdeep := by
    rw [(hspans value).nesting_eq] at hdeep
    rw [parse_write (htakes value), within, if_neg (by omega)]
  stable text value hparse := by
    rw [parse_write (htakes value), within, if_pos (depth_le_of_parse hfits hparse)]

end

/-- Every kind of document round-trips. -/
theorem roundTrips :
    RoundTrips Program.read Program.write ∧ RoundTrips Node.read Node.write ∧
    RoundTrips Table.read Table.write ∧ RoundTrips Variable.read Variable.write ∧
    RoundTrips Signature.read Signature.write ∧ RoundTrips ReturnType.read ReturnType.write ∧
    RoundTrips Scope.read Scope.write ∧ RoundTrips VarType.read VarType.write ∧
    RoundTrips BinaryOp.read BinaryOp.write :=
  ⟨.of_depth Program.spans_write Program.read_takes Program.read_fits,
    .of_depth Node.spans_write Node.read_takes Node.read_fits,
    .of_depth Table.spans_write Table.read_takes Table.read_fits,
    .of_depth Variable.spans_write Variable.read_takes Variable.read_fits,
    .of_depth Signature.spans_write Signature.read_takes Signature.read_fits,
    .of_depth (fun _ => Text.spans_encode _) ReturnType.read_takes (.scalar _),
    .of_depth (fun _ => Text.spans_encode _) Scope.read_takes (.scalar _),
    .of_depth (fun _ => Text.spans_encode _) VarType.read_takes (.scalar _),
    .of_depth (fun _ => Text.spans_encode _) BinaryOp.read_takes (.scalar _)⟩

-- Fields out of order, one of them unknown; a record as a list; a constant as an object; a name twice.
example :
    (parse Table.read ("\x7b\"vars\":\x7b\"x\":[\"Param\",\"Array\",3]," ++
      "\"x\" : [\x7b\"Local\":null\x7d,\"\\u0049nt\",0]\x7d," ++
      "\"note\":[[]],\"size\":1,\"scope\":\"Local\"\x7d")).toOption =
      some ⟨.block, 1, .insert .empty "x" ⟨.block, .int, 0⟩⟩ := by
  decide +kernel

end Document

end CMinus
