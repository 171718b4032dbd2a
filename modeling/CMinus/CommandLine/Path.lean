import CMinus.CommandLine.Arguments

namespace CMinus.Path

/-- Drops trailing separators and trailing `.` components from a reversed path. -/
def dropTrailing : List Char → List Char
  | '/' :: rest => dropTrailing rest
  | '.' :: '/' :: rest => dropTrailing rest
  | path => path

/-- A path cut at its file name: what stands before the name, and the name. -/
structure Split where
  before : List Char
  name : List Char

/-- The last component of a path, unless it names no file. -/
def split? (path : List Char) : Option Split :=
  let trimmed := dropTrailing path.reverse
  let name := (trimmed.takeWhile (· ≠ '/')).reverse
  if name = [] ∨ name = ['.'] ∨ name = ['.', '.'] then none
  else some ⟨(trimmed.dropWhile (· ≠ '/')).reverse, name⟩

/-- A file name without the last point and what follows it. A point at the front is part of the
name. -/
def stem (name : List Char) : List Char :=
  let rest := (name.reverse.dropWhile (· ≠ '.')).tail.reverse
  if rest.isEmpty then name else rest

/-- What follows the last point of a file name. -/
def extension? (name : List Char) : Option (List Char) :=
  let rest := (name.reverse.dropWhile (· ≠ '.')).tail
  if rest.isEmpty then none else some (name.reverse.takeWhile (· ≠ '.')).reverse

def byteCount (text : List Char) : Nat :=
  text.foldl (fun n c => n + c.utf8Size) 0

/-- Drops whole characters from a reversed text, `bytes` bytes at most. -/
def dropBytes (bytes : Nat) : List Char → List Char
  | [] => []
  | c :: rest => if c.utf8Size ≤ bytes then dropBytes (bytes - c.utf8Size) rest else c :: rest

/-- Drops as many bytes from the end of a path as its extension has. -/
def dropExtension (path : List Char) : List Char :=
  match (split? path).bind (extension? ·.name) with
  | some extension => (dropBytes (byteCount extension) path.reverse).reverse
  | none => path

/-- Replaces the extension of a path. What stands before the file name stays as it is, and a path
without a file name gets no extension. -/
def withExtension (path extension : String) : String :=
  let path := dropExtension path.toList
  match split? path with
  | none => String.ofList path
  | some s => String.ofList (s.before ++ stem s.name ++ '.' :: extension.toList)

end CMinus.Path

namespace CMinus.Options

/-- The listing goes to the file asked for, or beside the input with the extension `tm`. -/
def outputPath (o : Options) : String :=
  match o.output with
  | some path => path
  | none => Path.withExtension o.input "tm"

end CMinus.Options
