namespace CMinus

/-- A request to compile one file. -/
structure Options where
  input : String
  output : Option String
  trace : Bool
  deriving DecidableEq, Repr

inductive Command where
  | compile (options : Options)
  | help
  deriving DecidableEq, Repr

inductive ArgumentError where
  | missingFileName
  | unknownOption (flag : String)
  | severalInputs
  | noInput
  deriving DecidableEq, Repr

namespace ArgumentError

def message : ArgumentError → String
  | missingFileName => "-o expects a file name"
  | unknownOption flag => s!"unknown option `{flag}`"
  | severalInputs => "only one input file may be given"
  | noInput => "no input file"

end ArgumentError

namespace Command

/-- What the arguments so far have said. -/
structure Seen where
  input : Option String
  output : Option String
  trace : Bool

def isFlag (arg : String) : Bool :=
  arg.toList.head? = some '-'

/-- Reads from left to right; the last `-o` counts, and help ends the reading. -/
def parseFrom (seen : Seen) : List String → Except ArgumentError Command
  | [] =>
    match seen.input with
    | some input => .ok (.compile ⟨input, seen.output, seen.trace⟩)
    | none => .error .noInput
  | arg :: rest =>
    if arg = "-h" ∨ arg = "--help" then .ok .help
    else if arg = "-t" ∨ arg = "--trace" then parseFrom { seen with trace := true } rest
    else if arg = "-o" then
      match rest with
      | [] => .error .missingFileName
      | path :: rest => parseFrom { seen with output := some path } rest
    else if isFlag arg then .error (.unknownOption arg)
    else if seen.input.isSome then .error .severalInputs
    else parseFrom { seen with input := some arg } rest

def parse (args : List String) : Except ArgumentError Command :=
  parseFrom ⟨none, none, false⟩ args

end Command

end CMinus
