import CMinus.Json.Reader

namespace CMinus.Json

namespace Text

def hexValue (c : Char) : Option Nat :=
  if c.isDigit then some (c.toNat - '0'.toNat)
  else if 'a' ≤ c ∧ c ≤ 'f' then some (c.toNat - 'a'.toNat + 10)
  else if 'A' ≤ c ∧ c ≤ 'F' then some (c.toNat - 'A'.toNat + 10)
  else none

def hex4? : List Char → Option (Nat × List Char)
  | a :: b :: c :: d :: rest => do
    let a ← hexValue a
    let b ← hexValue b
    let c ← hexValue c
    let d ← hexValue d
    return (((a * 16 + b) * 16 + c) * 16 + d, rest)
  | _ => none

/-- Where no four digits stand, four further bytes tell a wrong escape from an early end. -/
def hex4 : Reader Nat := fun cs =>
  match hex4? cs with
  | some found => .ok found
  | none =>
    if (cs.take 4).foldl (fun n c => n + c.utf8Size) 0 < 4 then .error (.malformed .endInText)
    else .error (.malformed .invalidEscape)

/-- Reads `c`, the next character of an escaped surrogate pair. -/
def pairPart (c : Char) : Reader Unit
  | [] => .error (.malformed .endInText)
  | d :: cs => if c = d then .ok ((), cs) else .error (.malformed .escapeEnd)

def isLeading (n : Nat) : Bool :=
  0xD800 ≤ n && n ≤ 0xDBFF

def isTrailing (n : Nat) : Bool :=
  0xDC00 ≤ n && n ≤ 0xDFFF

/-- A code point after `\u`: one group of digits, or a surrogate pair as two escapes. -/
def codePoint : Reader Char := do
  let n ← hex4
  if isTrailing n then Reader.malformed .loneSurrogate
  else if isLeading n then
    pairPart '\\'
    pairPart 'u'
    let m ← hex4
    if isTrailing m then return Char.ofNat ((n - 0xD800) * 1024 + (m - 0xDC00) + 0x10000)
    else Reader.malformed .loneSurrogate
  else return Char.ofNat n

/-- The characters that stand for themselves or a control character after a backslash. -/
def shortEscape? : Char → Option Char
  | '"' => some '"'
  | '\\' => some '\\'
  | '/' => some '/'
  | 'b' => some '\x08'
  | 'f' => some '\x0c'
  | 'n' => some '\n'
  | 'r' => some '\r'
  | 't' => some '\t'
  | _ => none

def escape : Reader Char
  | [] => .error (.malformed .endInText)
  | c :: cs =>
    match shortEscape? c with
    | some d => .ok (d, cs)
    | none => if c = 'u' then codePoint cs else .error (.malformed .invalidEscape)

/-- As `escape`, for a text that nobody looks at: surrogates need not pair. -/
def skipEscape : Reader Unit
  | [] => .error (.malformed .endInText)
  | c :: cs =>
    if (shortEscape? c).isSome then .ok ((), cs)
    else if c = 'u' then (hex4 cs).map fun (_, rest) => ((), rest)
    else .error (.malformed .invalidEscape)

/-- Reads up to the closing quote, in at most as many steps as `fuel` has characters. `taken` holds
the characters so far, last first. -/
def charsFrom : (fuel taken : List Char) → Reader (List Char)
  | [], _, _ => .error (.malformed .endInText)
  | _ :: _, _, [] => .error (.malformed .endInText)
  | _ :: fuel, taken, c :: cs =>
    if c = '"' then .ok (taken.reverse, cs)
    else if c = '\\' then
      match escape cs with
      | .ok (d, rest) => charsFrom fuel (d :: taken) rest
      | .error e => .error e
    else if c < ' ' then .error (.malformed .controlCharacter)
    else charsFrom fuel (c :: taken) cs

def skipFrom : (fuel : List Char) → Reader Unit
  | [], _ => .error (.malformed .endInText)
  | _ :: _, [] => .error (.malformed .endInText)
  | _ :: fuel, c :: cs =>
    if c = '"' then .ok ((), cs)
    else if c = '\\' then
      match skipEscape cs with
      | .ok (_, rest) => skipFrom fuel rest
      | .error e => .error e
    else if c < ' ' then .error (.malformed .controlCharacter)
    else skipFrom fuel cs

def hexDigit (n : Nat) : Char :=
  if n < 10 then Char.ofNat ('0'.toNat + n) else Char.ofNat ('a'.toNat + (n - 10))

/-- Only the quote, the backslash and control characters are escaped. -/
def encodeChar (c : Char) : List Char :=
  match c with
  | '"' => ['\\', '"']
  | '\\' => ['\\', '\\']
  | '\x08' => ['\\', 'b']
  | '\x0c' => ['\\', 'f']
  | '\n' => ['\\', 'n']
  | '\r' => ['\\', 'r']
  | '\t' => ['\\', 't']
  | c =>
    if c < ' ' then ['\\', 'u', '0', '0', hexDigit (c.toNat / 16), hexDigit (c.toNat % 16)]
    else [c]

def encode (text : String) : List Char :=
  '"' :: text.toList.flatMap encodeChar ++ ['"']

end Text

namespace Reader

/-- Reads a string whose opening quote was read. -/
def textBody : Reader String := fun cs =>
  match Text.charsFrom cs [] cs with
  | .ok (chars, rest) => .ok (String.ofList chars, rest)
  | .error e => .error e

/-- Skips a string whose opening quote was read. -/
def skipTextBody : Reader Unit := fun cs =>
  Text.skipFrom cs cs

end Reader

end CMinus.Json
