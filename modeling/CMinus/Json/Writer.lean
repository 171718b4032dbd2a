import CMinus.Json.Text

namespace CMinus.Json.Writer

def integer (value : Int) : List Char :=
  (toString value).toList

def null : List Char :=
  ['n', 'u', 'l', 'l']

def commas : List (List Char) → List Char
  | [] => []
  | [item] => item
  | item :: rest => item ++ ',' :: commas rest

def list (items : List (List Char)) : List Char :=
  '[' :: commas items ++ [']']

def member (name : String) (value : List Char) : List Char :=
  Text.encode name ++ ':' :: value

def object (members : List (String × List Char)) : List Char :=
  '\x7b' :: commas (members.map fun (name, value) => member name value) ++ ['\x7d']

/-- A case of a sum with what it carries. -/
def variant (name : String) (payload : List Char) : List Char :=
  object [(name, payload)]

end CMinus.Json.Writer
