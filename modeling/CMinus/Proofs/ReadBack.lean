import CMinus.Document.Read
import CMinus.Proofs.Nesting

namespace CMinus

namespace Json

/-- `result`, unless the budget does not admit `d` brackets. -/
def within {α : Type} (budget d : Nat) (result : Except ReadError α) : Except ReadError α :=
  if d ≤ budget then result else .error .tooDeep

@[simp]
theorem within_zero {α : Type} (budget : Nat) (result : Except ReadError α) :
    within budget 0 result = result := by
  simp [within]

theorem within_within {α : Type} (budget d e : Nat) (result : Except ReadError α) :
    within budget d (within budget e result) = within budget (max d e) result := by
  grind [within]

/-- The first character of a value: it is no blank and does not close a list. -/
def Opens (text : List Char) : Prop :=
  ∃ c more, text = c :: more ∧ Reader.isBlank c = false ∧ c ≠ ']'

namespace Reader

open Writer (memberTexts)

variable {α β : Type}

/-- With a budget below `limit`, the reader takes exactly `text`, which is nested `d` deep, from the
front of a document, and answers `value`. -/
structure Takes (limit : Nat) (read : Nat → Reader α) (text : List Char) (d : Nat)
    (value : α) : Prop where
  opens : Opens text
  reads : ∀ budget < limit, ∀ rest, Number.Stops rest →
    read budget (text ++ rest) = within budget d (.ok (value, rest))

theorem bind_within {r : Reader α} {f : α → Reader β} {cs rest : List Char} {budget d : Nat} {x : α}
    (h : r cs = within budget d (.ok (x, rest))) :
    (r >>= f) cs = within budget d (f x rest) := by
  unfold within at h ⊢
  split at h
  case isTrue hle => rw [if_pos hle, bind_of_ok h]
  case isFalse hle => rw [if_neg hle, bind_of_error h]

theorem bind_parts {r : Reader α} {f : α → Reader β} {cs rest rest' : List Char} {budget d : Nat}
    {ds : List Nat} {x : α} {y : β} (h : r cs = within budget d (.ok (x, rest)))
    (hf : f x rest = within budget (height ds) (.ok (y, rest'))) :
    (r >>= f) cs = within budget (height (d :: ds)) (.ok (y, rest')) := by
  rw [bind_within h, hf, within_within]
  rfl

/-- Inside a bracket there is one level less to spare. -/
theorem enter_within {body : Nat → Reader α} {budget d : Nat} {c : Char} {cs rest : List Char}
    {x : α} (h : ∀ b < budget, body b cs = within b d (.ok (x, rest))) :
    enter budget body (c :: cs) = within budget (d + 1) (.ok (x, rest)) := by
  cases budget with
  | zero => simp [enter, fail, within]
  | succ budget =>
    rw [enter, bind_of_ok (advance_cons c cs), h budget (Nat.lt_succ_self budget)]
    simp [within]

theorem Takes.map {limit d : Nat} {read : Nat → Reader α} {text : List Char} {x : α}
    (h : Takes limit read text d x) (f : α → β) :
    Takes limit (fun budget => do return f (← read budget)) text d (f x) where
  opens := h.opens
  reads budget hbudget rest hrest := bind_within (h.reads budget hbudget rest hrest)

/-- The parts of a list or object that are still to come; those after the first follow a comma. -/
def separated : Bool → List (List Char) → List Char
  | true, texts => Writer.commas texts
  | false, texts => texts.flatMap (',' :: ·)

@[simp]
theorem separated_nil (isFirst : Bool) : separated isFirst [] = [] := by
  cases isFirst <;> rfl

theorem stops_separated (texts : List (List Char)) (close : Char)
    (hclose : close.isDigit = false ∧ close ≠ '.' ∧ close ≠ 'e' ∧ close ≠ 'E')
    (rest : List Char) : Number.Stops (separated false texts ++ close :: rest) := by
  cases texts with
  | nil => exact Number.stops_cons rest hclose
  | cons text texts => exact Number.stops_cons _ (by decide)

/-- What is left of a list or object has more characters than parts, so the readers of parts never
run out of steps. -/
theorem length_lt_commas {texts : List (List Char)} (h : ∀ text ∈ texts, 0 < text.length)
    (close : Char) (rest : List Char) :
    texts.length < (Writer.commas texts ++ close :: rest).length := by
  have hcommas (texts : List (List Char)) :
      texts.length ≤ (texts.flatMap (',' :: ·)).length := by
    induction texts with
    | nil => simp
    | cons text texts ih =>
      simp only [List.flatMap_cons, List.length_append, List.length_cons]
      omega
  cases texts with
  | nil => simp [Writer.commas]
  | cons text texts =>
    have htext := h text (by simp)
    have htexts := hcommas texts
    rw [Writer.commas_cons]
    simp only [List.length_append, List.length_cons]
    omega

theorem another_separated (isFirst : Bool) {text : List Char} (h : Opens text)
    (texts : List (List Char)) (rest : List Char) :
    another isFirst (separated isFirst (text :: texts) ++ rest) =
      .ok (true, text ++ (separated false texts ++ rest)) := by
  obtain ⟨c, more, rfl, hblank, hclose⟩ := h
  cases isFirst with
  | true =>
    rw [another, separated, Writer.commas_cons, List.append_assoc, List.cons_append,
      bind_of_ok (peek_cons hblank _)]
    simp [separated]
  | false =>
    rw [another, separated, List.flatMap_cons, List.append_assoc, List.cons_append,
      bind_of_ok (peek_cons (by decide) _)]
    simp only [Char.reduceEq, imp_self, Bool.false_eq_true, ↓reduceIte, List.cons_append]
    rw [bind_of_ok (advance_cons _ _), bind_of_ok (peek_cons hblank _)]
    simp [separated]

theorem another_close (isFirst : Bool) (rest : List Char) :
    another isFirst (']' :: rest) = .ok (false, ']' :: rest) := by
  rw [another, bind_of_ok (peek_cons (by decide) _)]
  rfl

theorem closeList_cons (rest : List Char) : closeList (']' :: rest) = .ok ((), rest) := by
  rw [closeList, bind_of_ok (peek_cons (by decide) _)]
  rfl

section
variable {item : Nat → Reader α} {write : α → List Char} {depth : α → Nat} {limit budget : Nat}
  {xs : List α}

theorem elements_separated (hbudget : budget < limit)
    (h : ∀ x ∈ xs, Takes limit item (write x) (depth x) x) (fuel : List Char) (isFirst : Bool)
    (taken : List α) (rest : List Char) (hfuel : xs.length < fuel.length) :
    elements (item budget) fuel isFirst taken (separated isFirst (xs.map write) ++ ']' :: rest) =
      within budget (height (xs.map depth)) (.ok (taken.reverse ++ xs, ']' :: rest)) := by
  induction xs generalizing fuel isFirst taken with
  | nil =>
    cases fuel with
    | nil => simp at hfuel
    | cons step fuel =>
      rw [elements]
      simp [bind_of_ok (another_close isFirst rest), height]
  | cons x xs ih =>
    cases fuel with
    | nil => simp at hfuel
    | cons step fuel =>
      have hx := h x (by simp)
      have hread := hx.reads budget hbudget _
        (stops_separated (xs.map write) ']' (by decide) rest)
      have hrest := ih (fun y hy => h y (by simp [hy])) fuel false (x :: taken)
        (by simpa using hfuel)
      rw [elements, List.map_cons, bind_of_ok (another_separated isFirst hx.opens _ _), if_pos rfl]
      rw [List.reverse_cons, List.append_assoc] at hrest
      exact bind_parts hread hrest

theorem sequence_takes {expected : String} {body : Nat → Reader α} {inner : List Char} {d : Nat}
    {x : α}
    (h : ∀ budget < limit, ∀ rest,
      body budget (inner ++ ']' :: rest) = within budget d (.ok (x, ']' :: rest))) :
    Takes limit (sequence expected body) ('[' :: inner ++ [']']) (d + 1) x where
  opens := ⟨'[', _, rfl, by decide, by decide⟩
  reads budget hbudget rest _ := by
    rw [sequence, List.append_assoc, List.cons_append, bind_of_ok (first_cons (by decide) _),
      if_pos rfl]
    apply enter_within
    intro b hb
    rw [List.singleton_append, bind_within (h b (by omega) rest), bind_of_ok (closeList_cons rest)]
    rfl

theorem list_takes (h : ∀ x ∈ xs, Takes limit item (write x) (depth x) x) :
    Takes limit (list item) (Writer.list (xs.map write)) (enclosing (xs.map depth)) xs := by
  have hpos : ∀ text ∈ xs.map write, 0 < text.length := by
    intro text htext
    obtain ⟨x, hx, rfl⟩ := List.mem_map.1 htext
    obtain ⟨c, more, heq, -⟩ := (h x hx).opens
    simp [heq]
  apply sequence_takes
  intro budget hbudget rest
  have hfuel := length_lt_commas hpos ']' rest
  rw [List.length_map] at hfuel
  rw [bind_of_ok (remaining_run _)]
  exact elements_separated hbudget h _ true [] rest hfuel

end

theorem anotherKey_separated (isFirst : Bool) (name : String) (value : List Char)
    (texts : List (List Char)) (rest : List Char) :
    anotherKey isFirst (separated isFirst (Writer.member name value :: texts) ++ rest) =
      .ok (true, Writer.member name value ++ (separated false texts ++ rest)) := by
  cases isFirst with
  | true =>
    rw [anotherKey, separated, Writer.commas_cons, Writer.member, Text.encode]
    simp only [List.cons_append, List.append_assoc]
    rw [bind_of_ok (peek_cons (by decide) _)]
    simp [separated]
  | false =>
    rw [anotherKey, separated, List.flatMap_cons, List.append_assoc, List.cons_append,
      bind_of_ok (peek_cons (by decide) _)]
    simp only [Char.reduceEq, imp_self, Bool.false_eq_true, ↓reduceIte]
    rw [bind_of_ok (advance_cons _ _), Writer.member, Text.encode]
    simp only [List.cons_append, List.append_assoc]
    rw [bind_of_ok (peek_cons (by decide) _)]
    simp [separated]

theorem anotherKey_close (isFirst : Bool) (rest : List Char) :
    anotherKey isFirst ('\x7d' :: rest) = .ok (false, '\x7d' :: rest) := by
  rw [anotherKey, bind_of_ok (peek_cons (by decide) _)]
  rfl

theorem colon_cons (rest : List Char) : colon (':' :: rest) = .ok ((), rest) := by
  rw [colon, bind_of_ok (peek_cons (by decide) _)]
  rfl

variable {σ : Type}

/-- Members written as `ms`, nested as deep as `ds` says, take the state of a reader from one to
another. -/
inductive Folds (limit : Nat) (member : Nat → σ → String → Reader σ) :
    σ → List (String × List Char) → List Nat → σ → Prop
  | nil {state : σ} : Folds limit member state [] [] state
  | cons {state last : σ} {name : String} {value : List Char} {d : Nat}
      {ms : List (String × List Char)} {ds : List Nat} (next : σ) :
    (∀ budget < limit, ∀ rest, Number.Stops rest →
      member budget state name (':' :: (value ++ rest)) = within budget d (.ok (next, rest))) →
    Folds limit member next ms ds last →
    Folds limit member state ((name, value) :: ms) (d :: ds) last

section
variable {limit budget : Nat} {member : Nat → σ → String → Reader σ} {start : σ}
  {ms : List (String × List Char)} {ds : List Nat}

/-- As `elements_separated`, for the members of an object and the state that they build. -/
theorem Folds.members_separated {last : σ} (h : Folds limit member start ms ds last)
    (hbudget : budget < limit) (fuel : List Char) (isFirst : Bool) (rest : List Char)
    (hfuel : ms.length < fuel.length) :
    members (member budget) fuel isFirst start
        (separated isFirst (memberTexts ms) ++ '\x7d' :: rest) =
      within budget (height ds) (.ok (last, '\x7d' :: rest)) := by
  induction h generalizing fuel isFirst with
  | nil =>
    cases fuel with
    | nil => simp at hfuel
    | cons step fuel =>
      rw [members]
      simp [memberTexts, bind_of_ok (anotherKey_close isFirst rest), height]
  | @cons state last name value d ms ds next hmember _ ih =>
    cases fuel with
    | nil => simp at hfuel
    | cons step fuel =>
      have hread := hmember budget hbudget _
        (stops_separated (memberTexts ms) '\x7d' (by decide) rest)
      have hrest := ih fuel false (by simpa using hfuel)
      rw [members, memberTexts, List.map_cons, bind_of_ok (anotherKey_separated isFirst _ _ _ _),
        if_pos rfl, Writer.member, List.append_assoc, quoted_encode]
      exact bind_parts hread hrest

theorem Folds.object {last : σ} (h : Folds limit member start ms ds last) (hbudget : budget < limit)
    (rest : List Char) :
    object (member budget) start (Writer.commas (memberTexts ms) ++ '\x7d' :: rest) =
      within budget (height ds) (.ok (last, rest)) := by
  have hpos : ∀ text ∈ memberTexts ms, 0 < text.length := by
    intro text htext
    obtain ⟨m, -, rfl⟩ := List.mem_map.1 htext
    simp [Writer.member, Text.encode]
  have hfuel := length_lt_commas hpos '\x7d' rest
  rw [show (memberTexts ms).length = ms.length from List.length_map ..] at hfuel
  rw [Reader.object, bind_of_ok (remaining_run _)]
  exact bind_within (h.members_separated hbudget _ true rest hfuel)

theorem opens_object (ms : List (String × List Char)) : Opens (Writer.object ms) :=
  ⟨'\x7b', _, rfl, by decide, by decide⟩

theorem record_takes {name : String} {fields : Nat → List (Field σ)} {finish : σ → Reader α}
    {x : α} (last : σ) (h : Folds limit (fun budget => fieldValue (fields budget)) start ms ds last)
    (hfinish : finish last = pure x) :
    Takes limit (record name fields start finish) (Writer.object ms) (enclosing ds) x where
  opens := opens_object ms
  reads budget hbudget rest _ := by
    rw [record, Writer.object, List.append_assoc, List.cons_append,
      bind_of_ok (first_cons (by decide) _), if_neg (by decide), if_pos rfl]
    apply enter_within
    intro b hb
    rw [← memberTexts, List.singleton_append, bind_within (h.object (by omega) rest), hfinish]
    rfl

theorem dictionary_takes {item : Nat → Reader α} {insert : σ → String → α → σ} {last : σ}
    (h : Folds limit (fun budget state key => do
      colon
      return insert state key (← item budget)) start ms ds last) :
    Takes limit (dictionary item insert start) (Writer.object ms) (enclosing ds) last where
  opens := opens_object ms
  reads budget hbudget rest _ := by
    rw [dictionary, Writer.object, List.append_assoc, List.cons_append,
      bind_of_ok (first_cons (by decide) _), if_pos rfl]
    apply enter_within
    intro b hb
    exact h.object (by omega) rest

end

variable {γ δ : Type} {limit : Nat}

theorem Folds.field {fields : Nat → List (Field σ)} {state last : σ} {key : String}
    {value : List Char} {d : Nat} {ms : List (String × List Char)} {ds : List Nat}
    {read : Nat → Reader α} {x : α} (put : α → σ)
    (hfield : ∀ budget, ∃ field, (fields budget).find? (·.name = key) = some field ∧
      field.isSet state = false ∧ field.read state = (do return put (← read budget)))
    (h : Takes limit read value d x)
    (hrest : Folds limit (fun budget => fieldValue (fields budget)) (put x) ms ds last) :
    Folds limit (fun budget => fieldValue (fields budget)) state ((key, value) :: ms) (d :: ds)
      last := by
  refine .cons (put x) (fun budget hbudget rest hstops => ?_) hrest
  obtain ⟨field, hfind, hset, hread⟩ := hfield budget
  rw [fieldValue, hfind]
  simp only [hset, Bool.false_eq_true, ↓reduceIte]
  rw [bind_of_ok (colon_cons _), hread]
  exact bind_within (h.reads budget hbudget rest hstops)

theorem record2_takes {name : String} {a : Part α} {b : Part β} {make : α → β → γ}
    (hab : a.1 ≠ b.1) {textA textB : List Char} {dA dB : Nat} {x : α} {y : β}
    (ha : Takes limit a.2 textA dA x) (hb : Takes limit b.2 textB dB y) :
    Takes limit (record2 name a b make) (Writer.object [(a.1, textA), (b.1, textB)])
      (enclosing [dA, dB]) (make x y) := by
  refine record_takes (some x, some y) ?_ rfl
  refine .field (fun x => (some x, none)) (fun _ => ?_) ha <|
    .field (fun y => (some x, some y)) (fun _ => ?_) hb .nil
  · exact ⟨_, List.find?_cons_of_pos (by simp), rfl, rfl⟩
  · exact ⟨_, (List.find?_cons_of_neg (by simpa using hab)).trans
      (List.find?_cons_of_pos (by simp)), rfl, rfl⟩

theorem record3_takes {name : String} {a : Part α} {b : Part β} {c : Part γ}
    {make : α → β → γ → δ} (hab : a.1 ≠ b.1) (hac : a.1 ≠ c.1) (hbc : b.1 ≠ c.1)
    {textA textB textC : List Char} {dA dB dC : Nat} {x : α} {y : β} {z : γ}
    (ha : Takes limit a.2 textA dA x) (hb : Takes limit b.2 textB dB y)
    (hc : Takes limit c.2 textC dC z) :
    Takes limit (record3 name a b c make)
      (Writer.object [(a.1, textA), (b.1, textB), (c.1, textC)]) (enclosing [dA, dB, dC])
      (make x y z) := by
  refine record_takes (some x, some y, some z) ?_ rfl
  refine .field (fun x => (some x, none, none)) (fun _ => ?_) ha <|
    .field (fun y => (some x, some y, none)) (fun _ => ?_) hb <|
    .field (fun z => (some x, some y, some z)) (fun _ => ?_) hc .nil
  · exact ⟨_, List.find?_cons_of_pos (by simp), rfl, rfl⟩
  · exact ⟨_, (List.find?_cons_of_neg (by simpa using hab)).trans
      (List.find?_cons_of_pos (by simp)), rfl, rfl⟩
  · exact ⟨_, (List.find?_cons_of_neg (by simpa using hac)).trans <|
      (List.find?_cons_of_neg (by simpa using hbc)).trans (List.find?_cons_of_pos (by simp)),
      rfl, rfl⟩

section
variable {variants : List (Variant α)} {v : Variant α}

theorem variantName_encode (hfind : variants.find? (·.name = v.name) = some v)
    (rest : List Char) : variantName variants (Text.encode v.name ++ rest) = .ok (v, rest) := by
  rw [variantName, quoted_encode, hfind]
  rfl

theorem variantKey_encode (hfind : variants.find? (·.name = v.name) = some v)
    (rest : List Char) : variantKey variants (Text.encode v.name ++ rest) = .ok (v, rest) := by
  rw [variantKey, bind_of_ok (first_encode _ _)]
  exact variantName_encode hfind rest

theorem bare_takes {x : α} (hfind : variants.find? (·.name = v.name) = some v)
    (hbare : v.bare = pure x) : Takes limit (variant variants) (Text.encode v.name) 0 x where
  opens := ⟨'"', _, rfl, by decide, by decide⟩
  reads budget _ rest _ := by
    rw [variant, bind_of_ok (first_encode _ _), if_neg (by decide), if_pos rfl,
      bind_of_ok (variantName_encode hfind _), hbare]
    simp

/-- The object around a case counts as a level of its own. -/
theorem variant_takes {x : α} {payload : List Char} {d : Nat}
    (hfind : variants.find? (·.name = v.name) = some v)
    (h : Takes limit v.payload payload d x) :
    Takes (limit + 1) (variant variants) (Writer.variant v.name payload) (enclosing [d]) x where
  opens := opens_object _
  reads budget hbudget rest _ := by
    rw [variant, Writer.variant, Writer.object, List.append_assoc, List.cons_append,
      bind_of_ok (first_cons (by decide) _), if_pos rfl]
    apply enter_within
    intro b hb
    -- A payload that is a number ends at the bracket of the object.
    have hstops : Number.Stops ('\x7d' :: rest) := Number.stops_cons rest (by decide)
    simp only [List.map_cons, List.map_nil, Writer.commas, Writer.member, List.append_assoc,
      List.cons_append, List.nil_append, height, Nat.max_zero]
    rw [bind_of_ok (variantKey_encode hfind _), bind_of_ok (colon_cons _),
      bind_within (h.reads b (by omega) _ hstops), bind_of_ok (peek_cons (by decide) _)]
    rfl

end

theorem component_takes {item : Nat → Reader α} {text : List Char} {d budget : Nat} {x : α}
    (h : Takes limit item text d x) (hbudget : budget < limit) (expected : String)
    (count index : Nat) (texts : List (List Char)) (rest : List Char) :
    component expected count index (item budget)
        (separated (index = 0) (text :: texts) ++ ']' :: rest) =
      within budget d (.ok (x, separated false texts ++ ']' :: rest)) := by
  rw [component, bind_of_ok (another_separated _ h.opens _ _)]
  exact h.reads budget hbudget _ (stops_separated texts ']' (by decide) rest)

/-- What is written as an object or `null` is told apart by its first character. -/
theorem nullable_takes {item : Nat → Reader α} {write : α → List Char} {depth : α → Nat}
    {x : Option α} (h : ∀ y ∈ x, Takes limit item (write y) (depth y) y ∧
      ∃ more, write y = '\x7b' :: more) :
    Takes limit (fun budget => nullable (item budget)) (Document.writeOption write x)
      (Document.depthOption depth x) x := by
  cases x with
  | none =>
    refine ⟨⟨'n', _, rfl, by decide, by decide⟩, fun budget _ rest _ => ?_⟩
    have hpeek : peek (Writer.null ++ rest) = .ok (some 'n', Writer.null ++ rest) :=
      peek_cons (by decide) _
    rw [Document.writeOption, nullable, bind_of_ok hpeek, if_pos rfl, Writer.null, List.cons_append,
      bind_of_ok (advance_cons _ _), bind_of_ok (word_append _ _)]
    simp [Document.depthOption]
  | some y =>
    obtain ⟨htakes, more, hmore⟩ := h y rfl
    refine ⟨htakes.opens, fun budget hbudget rest hrest => ?_⟩
    have hpeek : peek (write y ++ rest) = .ok (some '\x7b', write y ++ rest) := by
      rw [hmore]
      exact peek_cons (by decide) _
    rw [Document.writeOption, nullable, bind_of_ok hpeek, if_neg (by decide),
      bind_within (htakes.reads budget hbudget rest hrest)]
    rfl

end Reader

end Json

open Json Json.Reader

section
variable {α : Type} {limit : Nat}

namespace Document

theorem constant_takes {name : α → String} {all : List α} {value : α}
    (h : all.find? (name · = name value) = some value) :
    Takes limit (constant name all) (writeName (name value)) 0 value := by
  have hfind : (all.map fun value => Variant.unit (name value) value).find?
      (·.name = name value) = some (.unit (name value) value) := by
    rw [List.find?_map]
    exact Option.map_eq_some_iff.2 ⟨value, h, rfl⟩
  exact bare_takes (v := .unit (name value) value) hfind rfl

theorem name_takes (text : String) : Takes limit name (writeName text) 0 text where
  opens := ⟨'"', _, rfl, by decide, by decide⟩
  reads budget _ rest _ := by
    rw [name, Reader.text, writeName, bind_of_ok (first_encode text rest), if_pos rfl,
      within_zero, ← bind_pure textBody]
    exact quoted_encode text rest

theorem opens_integer (value : Int) : Opens (Writer.integer value) := by
  rw [Writer.integer_eq]
  split
  · obtain ⟨c, digits, hdigits, hc⟩ := Number.exists_toDigits_eq value.toNat
    refine ⟨c, digits, hdigits, isBlank_of_isDigit hc, ?_⟩
    rintro rfl
    simp at hc
  · exact ⟨'-', _, rfl, by decide, by decide⟩

theorem size_takes (n : Size) : Takes limit size (writeSize n) 0 n where
  opens := opens_integer _
  reads budget _ rest hrest := by
    have hn := n.toNat_lt
    have hread := integer_written 0 18446744073709551615 n.toNat
      (by omega) (by omega) (by omega) (by omega) "usize" hrest
    rw [size, writeSize, bind_of_ok hread]
    simp

theorem word_takes (w : Word) : Takes limit word (Writer.integer w.toInt) 0 w where
  opens := opens_integer _
  reads budget _ rest hrest := by
    have hlow := w.le_toInt
    have hhigh := w.toInt_lt
    have hread := integer_written (-2147483648) 2147483647 w.toInt
      (by omega) (by omega) (by omega) (by omega) "i32" hrest
    rw [word, bind_of_ok hread]
    simp

end Document

theorem NameMap.place_last {α : Type} {name : String} {value : α} {entries : List (String × α)}
    (h : ∀ entry ∈ entries, entry.1 < name) :
    place name value entries = entries ++ [(name, value)] := by
  induction entries with
  | nil => rfl
  | cons entry entries ih =>
    have hentry := h entry (by simp)
    have hlt : ¬name < entry.1 := String.lt_asymm hentry
    have hne : name ≠ entry.1 := by
      rintro rfl
      exact String.lt_irrefl _ hentry
    rw [place, if_neg hlt, if_neg hne, ih fun e he => h e (by simp [he])]
    rfl

namespace Document

/-- Names come in increasing order, so each is inserted behind those before it. -/
theorem folds_names {item : Nat → Reader α} {write : α → List Char} {depth : α → Nat}
    (h : ∀ value, Takes limit item (write value) (depth value) value)
    (todo : List (String × α)) (m last : NameMap α) (hlast : last.entries = m.entries ++ todo) :
    Folds limit (fun budget state key => do
        colon
        return NameMap.insert state key (← item budget))
      m (todo.map fun (name, value) => (name, write value))
      (todo.map fun (_, value) => depth value) last := by
  induction todo generalizing m with
  | nil =>
    obtain ⟨entries, _⟩ := m
    obtain ⟨entries', _⟩ := last
    obtain rfl : entries' = entries := by simpa using hlast
    exact .nil
  | cons entry todo ih =>
    have hsorted : NameMap.Sorted (m.entries ++ entry :: todo) := hlast ▸ last.sorted
    have hbefore : ∀ e ∈ m.entries, e.1 < entry.1 := fun e he =>
      (List.pairwise_append.1 hsorted).2.2 e he entry (by simp)
    refine .cons (m.insert entry.1 entry.2) (fun budget hbudget rest hrest => ?_) (ih _ ?_)
    · rw [bind_of_ok (colon_cons _)]
      exact bind_within ((h entry.2).reads budget hbudget rest hrest)
    · change last.entries = NameMap.place entry.1 entry.2 m.entries ++ todo
      rw [NameMap.place_last hbefore, hlast, List.append_assoc, List.singleton_append]

theorem names_takes {item : Nat → Reader α} {write : α → List Char} {depth : α → Nat}
    (h : ∀ value, Takes limit item (write value) (depth value) value) (m : NameMap α) :
    Takes limit (names item) (writeNames write m) (depthNames depth m) m :=
  dictionary_takes (folds_names h m.entries .empty m rfl)

end Document

end

section
variable {limit : Nat}

open Document

theorem Scope.read_takes (s : Scope) : Takes limit read s.write 0 s :=
  constant_takes (by cases s <;> rfl)

theorem VarType.read_takes (t : VarType) : Takes limit read t.write 0 t :=
  constant_takes (by cases t <;> rfl)

theorem ReturnType.read_takes (t : ReturnType) : Takes limit read t.write 0 t :=
  constant_takes (by cases t <;> rfl)

theorem BinaryOp.read_takes (op : BinaryOp) : Takes limit read op.write 0 op :=
  constant_takes (by cases op <;> rfl)

theorem Variable.read_takes (v : Variable) : Takes limit read v.write v.depth v :=
  record3_takes (by decide) (by decide) (by decide) (Scope.read_takes _) (VarType.read_takes _)
    (size_takes _)

theorem Table.read_takes (t : Table) : Takes limit read t.write t.depth t :=
  record3_takes (by decide) (by decide) (by decide) (Scope.read_takes _) (size_takes _)
    (names_takes Variable.read_takes _)

theorem Signature.read_takes (f : Signature) : Takes limit read f.write f.depth f :=
  record2_takes (by decide) (ReturnType.read_takes _) (Table.read_takes _)

end

namespace Node

open Document

variable {α β γ : Type} {limit : Nat}

theorem pair_takes {name : String} {a : Nat → Reader α} {b : Nat → Reader β}
    {make : α → β → Node} {textA textB : List Char} {dA dB : Nat} {x : α} {y : β}
    (ha : Takes limit a textA dA x) (hb : Takes limit b textB dB y) :
    Takes limit (pair name a b make).payload (Writer.list [textA, textB]) (enclosing [dA, dB])
      (make x y) := by
  apply sequence_takes
  intro budget hbudget rest
  have hx := component_takes ha hbudget (shape name) 2 0 [textB] rest
  have hy := component_takes hb hbudget (shape name) 2 1 [] rest
  exact bind_parts hx (bind_parts hy (within_zero ..).symm)

theorem triple_takes {name : String} {a : Nat → Reader α} {b : Nat → Reader β}
    {c : Nat → Reader γ} {make : α → β → γ → Node} {textA textB textC : List Char} {dA dB dC : Nat}
    {x : α} {y : β} {z : γ} (ha : Takes limit a textA dA x) (hb : Takes limit b textB dB y)
    (hc : Takes limit c textC dC z) :
    Takes limit (triple name a b c make).payload (Writer.list [textA, textB, textC])
      (enclosing [dA, dB, dC]) (make x y z) := by
  apply sequence_takes
  intro budget hbudget rest
  have hx := component_takes ha hbudget (shape name) 3 0 [textB, textC] rest
  have hy := component_takes hb hbudget (shape name) 3 1 [textC] rest
  have hz := component_takes hc hbudget (shape name) 3 2 [] rest
  exact bind_parts hx (bind_parts hy (bind_parts hz (within_zero ..).symm))

theorem writeEach_eq_map (nodes : List Node) : writeEach nodes = nodes.map write := by
  induction nodes with
  | nil => rfl
  | cons node nodes ih => rw [writeEach, ih, List.map_cons]

theorem depthEach_eq_map (nodes : List Node) : depthEach nodes = nodes.map depth := by
  induction nodes with
  | nil => rfl
  | cons node nodes ih => rw [depthEach, ih, List.map_cons]

theorem writeOptional_eq (node : Option Node) : writeOptional node = writeOption write node := by
  cases node <;> rfl

theorem depthOptional_eq (node : Option Node) : depthOptional node = depthOption depth node := by
  cases node <;> rfl

theorem each_takes {child : Nat → Reader Node} {nodes : List Node}
    (h : ∀ node ∈ nodes, Takes limit child node.write node.depth node) :
    Takes limit (list child) (Writer.list (writeEach nodes)) (enclosing (depthEach nodes))
      nodes := by
  rw [writeEach_eq_map, depthEach_eq_map]
  exact list_takes h

theorem exists_write_eq (node : Node) : ∃ more, node.write = '\x7b' :: more := by
  cases node <;> exact ⟨_, rfl⟩

theorem optional_takes {child : Nat → Reader Node} {node : Option Node}
    (h : ∀ n ∈ node, Takes limit child n.write n.depth n) :
    Takes limit (optionally child) (writeOptional node) (depthOptional node) node := by
  rw [writeOptional_eq, depthOptional_eq]
  exact nullable_takes fun n hn => ⟨h n hn, exists_write_eq n⟩

theorem readWithin_takes_of_payload {name : String} {v : (Nat → Reader Node) → Variant Node}
    {payload : List Char} {d : Nat} {node : Node}
    (hfind : ∀ child, (variants child).find? (·.name = name) = some (v child))
    (h : ∀ levels, Takes levels (v (readWithin levels)).payload payload d node) (levels : Nat) :
    Takes levels (readWithin levels) (Writer.variant name payload) (enclosing [d]) node := by
  cases levels with
  | zero => exact ⟨opens_object _, fun _ hbudget => absurd hbudget (Nat.not_lt_zero _)⟩
  | succ levels =>
    have hname : (v (readWithin levels)).name = name := by
      simpa using List.find?_some (hfind (readWithin levels))
    subst hname
    exact variant_takes (hfind _) (h levels)

mutual

theorem readWithin_takes : (node : Node) → (levels : Nat) →
    Takes levels (readWithin levels) node.write node.depth node
  | function name returns body =>
    readWithin_takes_of_payload (fun _ => rfl) fun levels =>
      record3_takes (by decide) (by simp) (by simp) (name_takes name) returns.read_takes
        (readWithin_takes body levels)
  | compound table statements =>
    readWithin_takes_of_payload (fun _ => rfl) fun levels =>
      pair_takes (nullable_takes fun t _ => ⟨t.read_takes, _, rfl⟩)
        (each_takes (readEach_takes statements levels))
  | branch test thenPart elsePart =>
    readWithin_takes_of_payload (fun _ => rfl) fun levels =>
      triple_takes (readWithin_takes test levels) (readWithin_takes thenPart levels)
        (optional_takes (readOptional_takes elsePart levels))
  | loop test body =>
    readWithin_takes_of_payload (fun _ => rfl) fun levels =>
      pair_takes (readWithin_takes test levels) (readWithin_takes body levels)
  | ret returns value =>
    readWithin_takes_of_payload (fun _ => rfl) fun levels =>
      pair_takes returns.read_takes (optional_takes (readOptional_takes value levels))
  | number value =>
    readWithin_takes_of_payload (fun _ => rfl) fun _ => (word_takes value).map number
  | var name => readWithin_takes_of_payload (fun _ => rfl) fun _ => (name_takes name).map var
  | element name index =>
    readWithin_takes_of_payload (fun _ => rfl) fun levels =>
      pair_takes (name_takes name) (readWithin_takes index levels)
  | assign target value =>
    readWithin_takes_of_payload (fun _ => rfl) fun levels =>
      pair_takes (readWithin_takes target levels) (readWithin_takes value levels)
  | binary op left right =>
    readWithin_takes_of_payload (fun _ => rfl) fun levels =>
      triple_takes op.read_takes (readWithin_takes left levels) (readWithin_takes right levels)
  | call name args =>
    readWithin_takes_of_payload (fun _ => rfl) fun levels =>
      pair_takes (name_takes name) (each_takes (readEach_takes args levels))

theorem readEach_takes : (nodes : List Node) → (levels : Nat) → ∀ node ∈ nodes,
    Takes levels (readWithin levels) node.write node.depth node
  | [], _ => by simp
  | node :: rest, levels => by
    intro n hn
    cases hn with
    | head => exact readWithin_takes node levels
    | tail _ hn => exact readEach_takes rest levels n hn

theorem readOptional_takes : (node : Option Node) → (levels : Nat) → ∀ n ∈ node,
    Takes levels (readWithin levels) n.write n.depth n
  | none, _ => by simp
  | some node, levels => by
    intro n hn
    obtain rfl : node = n := by simpa using hn
    exact readWithin_takes node levels

end

/-- No budget is too large for the levels that it is given. -/
theorem read_takes (node : Node) : Takes limit read node.write node.depth node where
  opens := (readWithin_takes node 0).opens
  reads budget _ := (readWithin_takes node (budget + 1)).reads budget (Nat.lt_succ_self budget)

end Node

theorem Program.read_takes {limit : Nat} (p : Program) : Takes limit read p.write p.depth p :=
  record3_takes (by decide) (by decide) (by decide) p.globals.read_takes
    (Document.names_takes Signature.read_takes _)
    (Node.each_takes fun node _ => node.read_takes)

end CMinus
