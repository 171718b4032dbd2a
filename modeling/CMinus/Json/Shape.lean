import CMinus.Json.Skip

namespace CMinus.Json.Reader

variable {α β γ δ σ : Type}

/-- What stands here, in the words of an error. A list or an object is not read. -/
def found : Reader Found := do
  match ← peek with
  | none => malformed .expectedValue
  | some c =>
    if c = 'n' then
      advance
      word ['u', 'l', 'l']
      return .null
    else if c = 't' then
      advance
      word ['r', 'u', 'e']
      return .boolean true
    else if c = 'f' then
      advance
      word ['a', 'l', 's', 'e']
      return .boolean false
    else if c = '"' then
      advance
      return .text (← textBody)
    else if c = '-' then
      advance
      return (← Number.read false).found
    else if c.isDigit then return (← Number.read true).found
    else if c = '[' then return .sequence
    else if c = '\x7b' then return .map
    else malformed .expectedValue

def mismatch (expected : String) : Reader α := do
  fail (.mismatch (.type (← found) expected))

/-- Looks at the first character of a value. -/
def first : Reader Char := do
  match ← peek with
  | some c => return c
  | none => malformed .endInValue

def text (expected : String) : Reader String := do
  if (← first) = '"' then
    advance
    textBody
  else mismatch expected

/-- An integer between `low` and `high`. -/
def integer (low high : Int) (expected : String) : Reader Int := do
  let c ← first
  if c = '-' then advance
  if c = '-' ∨ c.isDigit then
    match ← Number.read (c ≠ '-') with
    | .float value => fail (.mismatch (.type (.float value) expected))
    | .integer value =>
      if low ≤ value ∧ value ≤ high then return value
      else fail (.mismatch (.range value expected))
  else mismatch expected

def null (expected : String) : Reader Unit := do
  if (← first) = 'n' then
    advance
    word ['u', 'l', 'l']
  else mismatch expected

def nullable (item : Reader α) : Reader (Option α) := do
  if (← peek) = some 'n' then
    advance
    word ['u', 'l', 'l']
    return none
  else return some (← item)

/-- Is there another element? Reads the comma before it. -/
def another (isFirst : Bool) : Reader Bool := do
  match ← peek with
  | none => malformed .endInList
  | some ']' => return false
  | some c =>
    if isFirst then return true
    else if c = ',' then
      advance
      match ← peek with
      | none => malformed .endInValue
      | some ']' => malformed .trailingComma
      | some _ => return true
    else malformed .expectedListEnd

def closeList : Reader Unit := do
  match ← peek with
  | none => malformed .endInList
  | some ']' => advance
  | some ',' =>
    advance
    if (← peek) = some ']' then malformed .trailingComma else malformed .trailingCharacters
  | some _ => malformed .trailingCharacters

/-- Reads elements up to the closing bracket. `taken` holds those so far, last first. -/
def elements (item : Reader α) : (fuel : List Char) → Bool → List α → Reader (List α)
  | [], _, _ => malformed .endInList
  | _ :: fuel, isFirst, taken => do
    if ← another isFirst then
      let x ← item
      elements item fuel false (x :: taken)
    else return taken.reverse

/-- A list whose elements `body` reads. -/
def sequence (expected : String) (body : Nat → Reader α) (budget : Nat) : Reader α := do
  if (← first) = '[' then
    enter budget fun budget => do
      let x ← body budget
      closeList
      return x
  else mismatch expected

def list (item : Nat → Reader α) : Nat → Reader (List α) :=
  sequence "a sequence" fun budget => do
    elements (item budget) (← remaining) true []

/-- The element number `index` of a list of `count` elements. -/
def component (expected : String) (count index : Nat) (item : Reader α) : Reader α := do
  if ← another (index = 0) then item
  else fail (.mismatch (.length index s!"{expected} with {count} elements"))

/-- Is there another member? Reads the comma before it. -/
def anotherKey (isFirst : Bool) : Reader Bool := do
  match ← peek with
  | none => malformed .endInObject
  | some '\x7d' => return false
  | some c =>
    if isFirst then
      if c = '"' then return true else malformed .keyNotText
    else if c = ',' then
      advance
      match ← peek with
      | none => malformed .endInValue
      | some '"' => return true
      | some '\x7d' => malformed .trailingComma
      | some _ => malformed .keyNotText
    else malformed .expectedObjectEnd

def colon : Reader Unit := do
  match ← peek with
  | none => malformed .endInObject
  | some ':' => advance
  | some _ => malformed .expectedColon

/-- Reads members up to the closing bracket; `member` reads what follows a key. -/
def members (member : σ → String → Reader σ) : (fuel : List Char) → Bool → σ → Reader σ
  | [], _, _ => malformed .endInObject
  | _ :: fuel, isFirst, state => do
    if ← anotherKey isFirst then
      advance
      let key ← textBody
      let state ← member state key
      members member fuel false state
    else return state

/-- Reads the members of an object and its closing bracket. -/
def object (member : σ → String → Reader σ) (start : σ) : Reader σ := do
  let state ← members member (← remaining) true start
  advance
  return state

/-- A map from names. The last of several values for one name counts. -/
def dictionary (item : Nat → Reader α) (insert : σ → String → α → σ) (start : σ) (budget : Nat) :
    Reader σ := do
  if (← first) = '\x7b' then
    enter budget fun budget =>
      object (fun state key => do
        colon
        return insert state key (← item budget)) start
  else mismatch "a map"

/-- One part of a record; `σ` holds the parts read so far. -/
structure Field (σ : Type) where
  name : String
  isSet : σ → Bool
  read : σ → Reader σ

/-- Reads what follows a key. An unknown key is skipped with its value. -/
def fieldValue (fields : List (Field σ)) (state : σ) (key : String) : Reader σ := do
  match fields.find? (·.name = key) with
  | none =>
    colon
    skip
    return state
  | some field =>
    if field.isSet state then fail (.mismatch (.duplicateField key))
    else
      colon
      field.read state

def fieldElements (expected : String) (count : Nat) : Nat → List (Field σ) → σ → Reader σ
  | _, [], state => pure state
  | index, field :: rest, state => do
    let state ← component expected count index (field.read state)
    fieldElements expected count (index + 1) rest state

/-- A record is an object with its fields in any order, or a list of the fields in order. -/
def record (name : String) (fields : Nat → List (Field σ)) (start : σ) (finish : σ → Reader α)
    (budget : Nat) : Reader α := do
  let expected := "struct " ++ name
  let c ← first
  if c = '[' then
    enter budget fun budget => do
      let fields := fields budget
      let state ← fieldElements expected fields.length 0 fields start
      let value ← finish state
      closeList
      return value
  else if c = '\x7b' then
    enter budget fun budget => do
      finish (← object (fieldValue (fields budget)) start)
  else mismatch expected

def required (name : String) : Option α → Reader α
  | some value => pure value
  | none => fail (.mismatch (.missingField name))

/-- A name with the reader of what it names. -/
abbrev Part (α : Type) := String × (Nat → Reader α)

def record2 (name : String) (a : Part α) (b : Part β) (make : α → β → γ) : Nat → Reader γ :=
  record name
    (fun budget =>
      [⟨a.1, (·.1.isSome), fun (_, y) => do return (some (← a.2 budget), y)⟩,
       ⟨b.1, (·.2.isSome), fun (x, _) => do return (x, some (← b.2 budget))⟩])
    (none, none)
    (fun (x, y) => do return make (← required a.1 x) (← required b.1 y))

def record3 (name : String) (a : Part α) (b : Part β) (c : Part γ) (make : α → β → γ → δ) :
    Nat → Reader δ :=
  record name
    (fun budget =>
      [⟨a.1, (·.1.isSome), fun (_, y, z) => do return (some (← a.2 budget), y, z)⟩,
       ⟨b.1, (·.2.1.isSome), fun (x, _, z) => do return (x, some (← b.2 budget), z)⟩,
       ⟨c.1, (·.2.2.isSome), fun (x, y, _) => do return (x, y, some (← c.2 budget))⟩])
    (none, none, none)
    (fun (x, y, z) => do
      return make (← required a.1 x) (← required b.1 y) (← required c.1 z))

/-- One case of a sum: what its bare name means, and what follows its name as a key. -/
structure Variant (α : Type) where
  name : String
  bare : Reader α
  payload : Nat → Reader α

namespace Variant

def unit (name : String) (value : α) : Variant α :=
  ⟨name, pure value, fun _ => do
    null "unit"
    return value⟩

def single (name : String) (payload : Nat → Reader α) : Variant α :=
  ⟨name, fail (.mismatch (.type .bareVariant "newtype variant")), payload⟩

/-- A case that carries a list of values. -/
def tuple (name : String) (payload : Nat → Reader α) : Variant α :=
  ⟨name, fail (.mismatch (.type .bareVariant "tuple variant")), payload⟩

end Variant

/-- The case that the quoted text here names. -/
def variantName (variants : List (Variant α)) : Reader (Variant α) := do
  advance
  let name ← textBody
  match variants.find? (·.name = name) with
  | some v => return v
  | none => fail (.mismatch (.unknownVariant name (variants.map (·.name))))

/-- The key of an object that holds a case. It may not be left out. -/
def variantKey (variants : List (Variant α)) : Reader (Variant α) := do
  match ← first with
  | '"' => variantName variants
  | '\x7d' => malformed .expectedValue
  | _ => malformed .keyNotText

/-- A sum is written as the bare name of a case, or as an object with that name as its only key. -/
def variant (variants : List (Variant α)) (budget : Nat) : Reader α := do
  let c ← first
  if c = '\x7b' then
    enter budget fun budget => do
      let v ← variantKey variants
      colon
      let value ← v.payload budget
      match ← peek with
      | none => malformed .endInObject
      | some '\x7d' =>
        advance
        return value
      | some _ => malformed .expectedValue
  else if c = '"' then
    let v ← variantName variants
    v.bare
  else malformed .expectedValue

end CMinus.Json.Reader
