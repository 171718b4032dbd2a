import CMinus.CommandLine.Path
import CMinus.Document.Read
import CMinus.Generate.Program

namespace CMinus

/-- Why a file could not be read or written. -/
inductive FileError where
  | notFound
  | notText
  | other (message : String)
  deriving DecidableEq, Repr

namespace FileError

def message : FileError → String
  | notFound => "No such file or directory (os error 2)"
  | notText => "stream did not contain valid UTF-8"
  | other message => message

end FileError

structure Disk (m : Type → Type) where
  read : String → m (Except FileError ByteArray)
  write : String → String → m (Except FileError Unit)

structure Report where
  exit : UInt32
  stdout : String
  stderr : String

def usage : String :=
  "Usage: tmgen [options] <program.json>\n\n" ++
  "Reads an annotated C-minus program (JSON) and writes TM assembly.\n\n" ++
  "Options:\n" ++
  "  -o <file>      Write the listing to <file> (default: input with .tm extension)\n" ++
  "  -t, --trace    Annotate the listing with trace comments\n" ++
  "  -h, --help     Show this help\n"

namespace Report

def success : Report := ⟨0, "", ""⟩

def help : Report := ⟨0, usage, ""⟩

def badArguments (e : ArgumentError) : Report :=
  ⟨2, "", e.message ++ "\n\n" ++ usage ++ "\n"⟩

/-- Every line of a cause is indented. -/
def indented (cause : String) : String :=
  String.ofList <| cause.toList.flatMap fun c => if c = '\n' then "\n    ".toList else [c]

def failure (context cause : String) : Report :=
  ⟨1, "", "Error: " ++ context ++ "\n\nCaused by:\n    " ++ indented cause ++ "\n"⟩

/-- A run that broke off without a report of its own. -/
def aborted (f : Fault) : Report :=
  ⟨101, "", f.message ++ "\n"⟩

end Report

namespace Options

def decode (bytes : ByteArray) : Except FileError String :=
  match String.fromUTF8? bytes with
  | some text => .ok text
  | none => .error .notText

def listing (o : Options) (contents : Except FileError ByteArray) : Except Report String :=
  match contents.bind decode with
  | .error e => .error (.failure ("reading " ++ o.input) e.message)
  | .ok text =>
    match Program.parse text with
    | .error e => .error (.failure (o.input ++ " is not an annotated program") e.message)
    | .ok program =>
      match program.generate o.trace with
      | .error (.rejected reason) => .error (.failure "code generation failed" reason.message)
      | .error (.fault f) => .error (.aborted f)
      | .ok code => .ok code.listing

end Options

/-- Runs the program. Nothing is written unless the whole listing is there. -/
def session {m : Type → Type} [Monad m] (disk : Disk m) (args : List String) : m Report := do
  match Command.parse args with
  | .error e => return .badArguments e
  | .ok .help => return .help
  | .ok (.compile o) =>
    match o.listing (← disk.read o.input) with
    | .error report => return report
    | .ok listing =>
      match ← disk.write o.outputPath listing with
      | .error e => return .failure ("writing " ++ o.outputPath) e.message
      | .ok _ => return .success

end CMinus
