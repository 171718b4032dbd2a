import CMinus.CommandLine.Session

namespace CMinus

/-- A file stands under the names of its directories and its own name, seen from the working
directory. A directory exists if a file is in it. -/
structure FileTree where
  files : List (List String × ByteArray)

namespace FileTree

def isDirectory (t : FileTree) (names : List String) : Bool :=
  names = [] || t.files.any fun (file, _) => names.length < file.length && names.isPrefixOf file

/-- Follows the components of a path from the directory `names`. All but the last have to lead to a
directory. -/
def walk (t : FileTree) (names : List String) : List String → Option (List String)
  | [] => some names
  | component :: rest =>
    if t.isDirectory names then
      if component = "" ∨ component = "." then t.walk names rest
      else if component = ".." then
        if names = [] then none else t.walk names.dropLast rest
      else t.walk (names ++ [component]) rest
    else none

def resolve (t : FileTree) (path : String) : Option (List String) :=
  if path = "" ∨ path.toList.head? = some '/' then none
  else t.walk [] (path.splitOn "/")

def find? (t : FileTree) (names : List String) : Option ByteArray :=
  (t.files.find? (·.1 = names)).map (·.2)

def read (t : FileTree) (path : String) : Except FileError ByteArray :=
  match (t.resolve path).bind t.find? with
  | some contents => .ok contents
  | none => .error .notFound

def put (t : FileTree) (names : List String) (contents : ByteArray) : FileTree :=
  ⟨(names, contents) :: t.files.filter (·.1 ≠ names)⟩

def write (t : FileTree) (path : String) (text : String) : Except FileError FileTree :=
  match t.resolve path with
  | some names => .ok (t.put names text.toUTF8)
  | none => .error .notFound

/-- Adds a file and the directories that it needs. -/
def add (t : FileTree) (path : String) (contents : ByteArray) : FileTree :=
  t.put ((path.splitOn "/").filter fun name => name ≠ "" ∧ name ≠ ".") contents

def disk : Disk (StateM FileTree) where
  read path := do return (← get).read path
  write path text := do
    match (← get).write path text with
    | .ok t =>
      set t
      return .ok ()
    | .error e => return .error e

/-- Runs the program on these files. -/
def session (t : FileTree) (args : List String) : Report × FileTree :=
  (CMinus.session disk args).run t

end FileTree

end CMinus
