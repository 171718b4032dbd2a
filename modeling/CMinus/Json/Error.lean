import CMinus.Decimal.Shortest
import CMinus.Text.Quoted

namespace CMinus.Json

/-- The text is no JSON at all. -/
inductive Malformed where
  | endInList
  | endInObject
  | endInText
  | endInValue
  | expectedColon
  | expectedListEnd
  | expectedObjectEnd
  | expectedIdent
  | expectedValue
  | invalidEscape
  | invalidNumber
  | numberRange
  | controlCharacter
  | keyNotText
  | loneSurrogate
  | escapeEnd
  | trailingComma
  | trailingCharacters
  deriving DecidableEq, Repr

namespace Malformed

def message : Malformed → String
  | endInList => "EOF while parsing a list"
  | endInObject => "EOF while parsing an object"
  | endInText => "EOF while parsing a string"
  | endInValue => "EOF while parsing a value"
  | expectedColon => "expected `:`"
  | expectedListEnd => "expected `,` or `]`"
  | expectedObjectEnd => "expected `,` or `\x7d`"
  | expectedIdent => "expected ident"
  | expectedValue => "expected value"
  | invalidEscape => "invalid escape"
  | invalidNumber => "invalid number"
  | numberRange => "number out of range"
  | controlCharacter => "control character (\\u0000-\\u001F) found while parsing a string"
  | keyNotText => "key must be a string"
  | loneSurrogate => "lone leading surrogate in hex escape"
  | escapeEnd => "unexpected end of hex escape"
  | trailingComma => "trailing comma"
  | trailingCharacters => "trailing characters"

end Malformed

/-- What stands where something else is expected. -/
inductive Found where
  | null
  | boolean (value : Bool)
  | integer (value : Int)
  | float (value : Float)
  | text (value : String)
  | sequence
  | map
  | bareVariant

namespace Found

/-- Names the value without its digits if it is no integer. -/
def brief : Found → String
  | null => "null"
  | boolean true => "boolean `true`"
  | boolean false => "boolean `false`"
  | integer value => s!"integer `{value}`"
  | float _ => "floating point"
  | text value => "string " ++ Text.quoted value
  | sequence => "sequence"
  | map => "map"
  | bareVariant => "unit variant"

def describe : Found → String
  | float value => "floating point `" ++ Decimal.text value ++ "`"
  | found => found.brief

end Found

/-- The text is JSON as far as it was read, but not of the expected shape. -/
inductive Mismatch where
  | type (found : Found) (expected : String)
  | range (value : Int) (expected : String)
  | length (count : Nat) (expected : String)
  | unknownVariant (name : String) (known : List String)
  | duplicateField (name : String)
  | missingField (name : String)

namespace Mismatch

def backquoted (name : String) : String :=
  "`" ++ name ++ "`"

/-- Lists the names that would have been accepted. -/
def oneOf : List String → String
  | [] => "there are no variants"
  | [a] => "expected " ++ backquoted a
  | [a, b] => "expected " ++ backquoted a ++ " or " ++ backquoted b
  | names => "expected one of " ++ ", ".intercalate (names.map backquoted)

def messageWith (describe : Found → String) : Mismatch → String
  | type found expected => "invalid type: " ++ describe found ++ ", expected " ++ expected
  | range value expected => s!"invalid value: integer `{value}`, expected {expected}"
  | length count expected => s!"invalid length {count}, expected {expected}"
  | unknownVariant name known => s!"unknown variant `{name}`, " ++ oneOf known
  | duplicateField name => s!"duplicate field `{name}`"
  | missingField name => s!"missing field `{name}`"

def message : Mismatch → String :=
  messageWith Found.describe

/-- The message without the digits of a floating point number. -/
def brief : Mismatch → String :=
  messageWith Found.brief

end Mismatch

inductive ReadError where
  | malformed (cause : Malformed)
  | mismatch (cause : Mismatch)
  | tooDeep

namespace ReadError

def message : ReadError → String
  | malformed cause => cause.message
  | mismatch cause => cause.message
  | tooDeep => "recursion limit exceeded"

end ReadError

end CMinus.Json
