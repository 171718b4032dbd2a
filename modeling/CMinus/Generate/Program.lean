import CMinus.Generate.Body

namespace CMinus

/-- Code under construction, with the functions begun so far. -/
structure Draft where
  entries : NameMap Entry
  stream : Stream

namespace Draft

def new (trace : Bool) : Draft :=
  ⟨.empty, .new trace⟩

def comment (d : Draft) (text : String) : Draft :=
  { d with stream := d.stream.comment text }

def write (d : Draft) (lines : List Line) : Except Failure Draft :=
  (d.stream.write lines).map fun stream => { d with stream }

/-- Begins the function `name` at the cursor. -/
def define (d : Draft) (name : String) (params : Size) : Except Failure Draft :=
  if d.entries.contains name then .error (.rejected (.duplicateFunction name))
  else
    let address := d.stream.cursor
    .ok ⟨d.entries.insert name ⟨address, params⟩, d.stream.setEntry name address⟩

end Draft

namespace Generate

/-- The prelude, room for the call of `main`, and the functions that every program can call. -/
def opening (globals : Size) (trace : Bool) : Except Failure (Nat × Draft) := do
  let lines ← (Sequence.preamble globals).mapError .ofOverflow
  let d ← ((Draft.new trace).comment "Begin prelude").write lines
  let d := (d.comment "End of prelude").comment "Jump to main()"
  let start := d.stream.cursor
  let stream ← d.stream.skip (Sequence.callLength + 1)
  let d := { d with stream }
  let d ← (d.comment "Begin input()").define "input" 0
  let d ← d.write Sequence.input
  let d := d.comment "End input()"
  let d ← (d.comment "Begin output()").define "output" 1
  let d ← d.write Sequence.output
  return (start, d.comment "End output()")

def function (p : Program) (d : Draft) (name : String) (returns : ReturnType) (body : Node) :
    Except Failure Draft := do
  let some signature := p.signature? name | throw (.rejected (.unknownFunction name))
  let d ← (d.comment "-> function:").define name signature.paramCount
  let lines ← (Sequence.prologue body.frameSize).mapError .ofOverflow
  let d ← d.write lines
  let env : Env := ⟨p.functions, d.entries, [signature.params, p.globals]⟩
  let stream ← statement env body d.stream
  let stream ← match returns with
    | .void => stream.write Sequence.epilogue
    | .int | .array => pure stream
  return { d with stream := stream.comment "<- function" }

def declaration (p : Program) (d : Draft) : Node → Except Failure Draft
  | .function name returns body => function p d name returns body
  | other => .error (.rejected (.unexpectedNode other.kind .topLevel))

def declarations (p : Program) (d : Draft) : List Node → Except Failure Draft
  | [] => .ok d
  | node :: rest => do
    let d ← declaration p d node
    declarations p d rest

end Generate

namespace Program

/-- The code of a program. The call of `main` stands in front of all functions and is written last.
A traced program carries comments and remarks in its listing. -/
def generate (p : Program) (trace : Bool) : Except Failure Code := do
  let (start, d) ← Generate.opening p.globals.size trace
  let d ← Generate.declarations p d p.declarations
  let env : Env := ⟨p.functions, d.entries, []⟩
  let entry ← env.entry "main"
  let stream ← d.stream.patch start (Sequence.call entry.address entry.params ++ Sequence.halt)
  return stream.finish

end Program

end CMinus
