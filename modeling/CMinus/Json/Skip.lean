import CMinus.Json.Number
import CMinus.Json.Text

namespace CMinus.Json

inductive Bracket where
  | list
  | object
  deriving DecidableEq, Repr

namespace Bracket

def close : Bracket → Char
  | list => ']'
  | object => '\x7d'

def early : Bracket → Malformed
  | list => .endInList
  | object => .endInObject

def unclosed : Bracket → Malformed
  | list => .expectedListEnd
  | object => .expectedObjectEnd

end Bracket

namespace Reader

/-- Skips a value, or enters a list or object and says which. -/
def skipScalar : Reader (Option Bracket) := do
  match ← peek with
  | none => malformed .endInValue
  | some c =>
    if c = '[' then
      advance
      return some .list
    else if c = '\x7b' then
      advance
      return some .object
    else
      if c = 'n' then
        advance
        word ['u', 'l', 'l']
      else if c = 't' then
        advance
        word ['r', 'u', 'e']
      else if c = 'f' then
        advance
        word ['a', 'l', 's', 'e']
      else if c = '"' then
        advance
        skipTextBody
      else if c = '-' then
        advance
        Number.skip
      else if c.isDigit then Number.skip
      else malformed .expectedValue
      return none

/-- Closes brackets, innermost first, as long as they close. Answers those still open. A comma is
accepted only after a value. -/
def skipClosing : List Bracket → Bool → Reader (List Bracket)
  | [], _ => pure []
  | b :: rest, afterValue => do
    match ← peek with
    | none => malformed b.early
    | some c =>
      if c = ',' && afterValue then
        advance
        return b :: rest
      else if c = b.close then
        advance
        skipClosing rest true
      else if afterValue then malformed b.unclosed
      else return b :: rest

/-- Skips the key of the next member, if an object is open. -/
def skipKey : List Bracket → Reader Unit
  | .object :: _ => do
    match ← peek with
    | none => malformed .endInObject
    | some '"' =>
      advance
      skipTextBody
      match ← peek with
      | none => malformed .endInObject
      | some ':' => advance
      | some _ => malformed .expectedColon
    | some _ => malformed .keyNotText
  | _ => pure ()

/-- Skips values until no bracket is open. -/
def skipOpen : (fuel : List Char) → List Bracket → Reader Unit
  | [], _ => malformed .endInValue
  | _ :: fuel, brackets => do
    let unclosed ←
      match ← skipScalar with
      | some b => skipClosing (b :: brackets) false
      | none => skipClosing brackets true
    match unclosed with
    | [] => pure ()
    | b :: rest =>
      skipKey (b :: rest)
      skipOpen fuel (b :: rest)

def skip : Reader Unit := do
  skipOpen (← remaining) []

end Reader

end CMinus.Json
