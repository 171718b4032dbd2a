import CMinus.Json.Reader

namespace CMinus.Json

/-- A number without fraction and exponent that fits 64 bits is an integer. Of any other number, up
to 64 bits of its digits are kept and scaled by a power of ten. -/
inductive Number where
  | integer (value : Int)
  | float (value : Float)

namespace Number

def found : Number → Found
  | integer value => .integer value
  | float value => .float value

def digitValue (c : Char) : Nat :=
  c.toNat - '0'.toNat

/-- Appends digits to `n` as long as the result stays below `limit`, and returns the rest. -/
def accumulate (limit n : Nat) : List Char → Nat × List Char
  | [] => (n, [])
  | d :: rest =>
    let next := n * 10 + digitValue d
    if next < limit then accumulate limit next rest else (n, d :: rest)

def significandLimit : Nat := 18446744073709551616

def exponentLimit : Nat := 2147483648

def powerOfTen (n : Nat) : Float :=
  Float.ofScientific 1 false n

/-- Divides by `10 ^ n` in steps of at most `10 ^ 308`. -/
def scaleDown (x : Float) (n : Nat) : Float :=
  if n ≤ 308 then x / powerOfTen n
  else if x == 0 then x
  else scaleDown (x / powerOfTen 308) (n - 308)
termination_by n

/-- The number `significand * 10 ^ exponent`, unless it is too large. -/
def scale (positive : Bool) (significand : Nat) (exponent : Int) : Except ReadError Number := do
  let x := significand.toUInt64.toFloat
  let scaled ←
    if exponent < 0 then pure (scaleDown x exponent.natAbs)
    else if exponent ≤ 308 then
      let y := x * powerOfTen exponent.toNat
      if y.isInf then throw (.malformed .numberRange) else pure y
    else if x == 0 then pure x
    else throw (.malformed .numberRange)
  return .float (if positive then scaled else -scaled)

/-- Zero and numbers below `-2 ^ 63` are floating point after a minus sign. -/
def ofInteger (positive : Bool) (significand : Nat) : Number :=
  if positive then .integer significand
  else if significand = 0 ∨ 9223372036854775808 < significand then
    .float (-significand.toUInt64.toFloat)
  else .integer (-significand)

/-- What a missing digit means. -/
def noDigit (cs : List Char) : ReadError :=
  .malformed (if cs.isEmpty then .endInValue else .invalidNumber)

/-- Reads what follows the `e` of a number. -/
def readExponent (positive : Bool) (significand : Nat) (exponent : Int) : Reader Number := fun cs =>
  let up := cs.head? ≠ some '-'
  let cs := if cs.head? = some '+' ∨ cs.head? = some '-' then cs.tail else cs
  let digits := cs.takeWhile Char.isDigit
  let rest := cs.dropWhile Char.isDigit
  if digits.isEmpty then .error (noDigit cs)
  else
    match accumulate exponentLimit 0 digits with
    | (n, []) =>
      (scale positive significand (if up then exponent + n else exponent - n)).map (·, rest)
    | (_, _ :: _) =>
      if significand ≠ 0 ∧ up then .error (.malformed .numberRange)
      else .ok (.float (if positive then 0 else -0), rest)

def isExponentMark (c : Option Char) : Bool :=
  c = some 'e' || c = some 'E'

/-- Reads what follows the point of a number. -/
def readFraction (positive : Bool) (significand : Nat) (exponent : Int) : Reader Number := fun cs =>
  let digits := cs.takeWhile Char.isDigit
  let rest := cs.dropWhile Char.isDigit
  if digits.isEmpty then .error (noDigit cs)
  else
    let (significand, dropped) := accumulate significandLimit significand digits
    let exponent := exponent - (digits.length - dropped.length)
    if isExponentMark rest.head? then readExponent positive significand exponent rest.tail
    else (scale positive significand exponent).map (·, rest)

/-- Reads what follows the leading digits of a number, of which `dropped` did not fit. -/
def readTail (positive : Bool) (significand dropped : Nat) : Reader Number := fun cs =>
  if cs.head? = some '.' then readFraction positive significand dropped cs.tail
  else if isExponentMark cs.head? then readExponent positive significand dropped cs.tail
  else if dropped = 0 then .ok (ofInteger positive significand, cs)
  else (scale positive significand dropped).map (·, cs)

def startsWithDigit (cs : List Char) : Bool :=
  cs.head?.any Char.isDigit

def read (positive : Bool) : Reader Number := fun cs =>
  match cs with
  | [] => .error (.malformed .endInValue)
  | c :: rest =>
    if c = '0' then
      if startsWithDigit rest then .error (.malformed .invalidNumber)
      else readTail positive 0 0 rest
    else if c.isDigit then
      let (significand, dropped) := accumulate significandLimit 0 (cs.takeWhile Char.isDigit)
      readTail positive significand dropped.length (cs.dropWhile Char.isDigit)
    else .error (.malformed .invalidNumber)

def skipDigits (cs : List Char) : Except ReadError (List Char) :=
  if startsWithDigit cs then .ok (cs.dropWhile Char.isDigit)
  else .error (.malformed .invalidNumber)

def skipExponent (cs : List Char) : Except ReadError (List Char) :=
  if isExponentMark cs.head? then
    match cs.tail with
    | '+' :: rest => skipDigits rest
    | '-' :: rest => skipDigits rest
    | rest => skipDigits rest
  else .ok cs

/-- As `read`, for a number that nobody looks at: its size does not matter. -/
def skip : Reader Unit := fun cs => do
  let rest ←
    match cs with
    | '0' :: rest => if startsWithDigit rest then throw (.malformed .invalidNumber) else pure rest
    | _ => skipDigits cs
  let rest ←
    match rest with
    | '.' :: rest => skipDigits rest
    | _ => pure rest
  return ((), ← skipExponent rest)

end Number

end CMinus.Json
