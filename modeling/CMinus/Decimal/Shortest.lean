namespace CMinus.Decimal

/-- The number `mantissa * 2 ^ exponent`, with the power of two below its neighbour. -/
structure Binary where
  mantissa : Nat
  exponent : Int
  isPower : Bool

/-- The number of a positive finite pattern of 64 bits. -/
def Binary.ofBits (bits : Nat) : Binary :=
  let fraction := bits % 4503599627370496
  let field := bits / 4503599627370496 % 2048
  if field = 0 then ⟨fraction, -1074, false⟩
  else ⟨fraction + 4503599627370496, (field : Int) - 1075, fraction = 0 ∧ 1 < field⟩

/-- The numbers that round to a binary number, as fractions with one denominator. -/
structure Interval where
  low : Nat
  value : Nat
  high : Nat
  denominator : Nat
  closed : Bool

/-- The ends lie half way to the neighbours, and round to the number if its mantissa is even. The
neighbour below a power of two is nearer than the one above. -/
def Binary.interval (b : Binary) : Interval :=
  let unit := Nat.pow 2 (b.exponent - 2).toNat
  { low := (4 * b.mantissa - if b.isPower then 1 else 2) * unit
    value := 4 * b.mantissa * unit
    high := (4 * b.mantissa + 2) * unit
    denominator := Nat.pow 2 (2 - b.exponent).toNat
    closed := b.mantissa % 2 = 0 }

/-- The decimal `digits * 10 ^ exponent`. -/
structure Scientific where
  digits : Nat
  exponent : Int

/-- The interval in units of `10 ^ exponent`. -/
def Interval.scaled (i : Interval) (exponent : Int) : Interval :=
  let up := Nat.pow 10 (-exponent).toNat
  { i with
    low := i.low * up
    value := i.value * up
    high := i.high * up
    denominator := i.denominator * Nat.pow 10 exponent.toNat }

def Interval.holds (i : Interval) (n : Nat) : Bool :=
  let n := n * i.denominator
  if i.closed then i.low ≤ n && n ≤ i.high else i.low < n && n < i.high

/-- The nearest integer in the interval, or none. A tie goes to the even one. -/
def Interval.nearest? (i : Interval) : Option Nat :=
  let below := i.value / i.denominator
  let twice := 2 * (i.value % i.denominator)
  let preferBelow := twice < i.denominator || (twice = i.denominator && below % 2 = 0)
  match i.holds below, i.holds (below + 1) with
  | true, true => some (if preferBelow then below else below + 1)
  | true, false => some below
  | false, true => some (below + 1)
  | false, false => none

/-- Searches the grids of `10 ^ exponent` and finer ones. -/
def Interval.search (i : Interval) : Nat → Int → Scientific
  | 0, exponent => ⟨(i.scaled exponent).value / (i.scaled exponent).denominator, exponent⟩
  | fuel + 1, exponent =>
    match (i.scaled exponent).nearest? with
    | some digits => ⟨digits, exponent⟩
    | none => i.search fuel (exponent - 1)

def digitCount (n : Nat) : Nat :=
  (Nat.toDigits 10 n).length

/-- Seventeen digits always suffice. -/
def Interval.shortest (i : Interval) : Scientific :=
  i.search 20 ((digitCount i.value : Int) - digitCount i.denominator + 1)

def zeros (n : Nat) : String :=
  String.ofList (List.replicate n '0')

/-- A power of ten after the mark `e`, always with its sign. -/
def exponentText (n : Int) : String :=
  if 0 ≤ n then s!"e+{n}" else s!"e{n}"

/-- Positional with a point up to 16 digits before it and four zeros after it, otherwise with an
exponent. -/
def Scientific.text (s : Scientific) : String :=
  let digits := Nat.toDigits 10 s.digits
  let point := digits.length + s.exponent
  if 0 ≤ s.exponent ∧ point ≤ 16 then String.ofList digits ++ zeros s.exponent.toNat ++ ".0"
  else if 0 < point ∧ point ≤ 16 then
    String.ofList (digits.take point.toNat) ++ "." ++ String.ofList (digits.drop point.toNat)
  else if -5 < point ∧ point ≤ 0 then "0." ++ zeros (-point).toNat ++ String.ofList digits
  else if digits.length = 1 then String.ofList digits ++ exponentText (point - 1)
  else
    String.ofList (digits.take 1) ++ "." ++ String.ofList (digits.drop 1) ++
      exponentText (point - 1)

def text (x : Float) : String :=
  let bits := x.toBits.toNat
  let sign := if bits < 9223372036854775808 then "" else "-"
  let magnitude := bits % 9223372036854775808
  if magnitude = 0 then sign ++ "0.0"
  else sign ++ (Binary.ofBits magnitude).interval.shortest.text

end CMinus.Decimal
