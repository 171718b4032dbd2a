namespace CMinus.Text

inductive Alignment where
  | left
  | right
  | center
  deriving DecidableEq, Repr

def blanks (n : Nat) : String :=
  String.ofList (List.replicate n ' ')

/-- Centering puts the smaller half of the blanks first. -/
def pad (alignment : Alignment) (width : Nat) (text : String) : String :=
  let missing := width - text.length
  match alignment with
  | .left => text ++ blanks missing
  | .right => blanks missing ++ text
  | .center => blanks (missing / 2) ++ text ++ blanks (missing - missing / 2)

end CMinus.Text
