import CMinus.Tree
import CMinus.Machine.Instruction

namespace CMinus

/-- One instruction that leaves an address in `bx`: `opcode bx, displacement(base)`. -/
structure Location where
  opcode : Opcode
  displacement : Word
  base : Register
  deriving DecidableEq

namespace Variable

/-- The cell of a scalar or the first cell of an array. Global cells grow down from `gp` and those of
blocks down from `bp`; parameters lie above the saved `bp` and the return address. The slot of an
array parameter holds the address of the caller's array, so it is loaded. Offsets count by their low
32 bits. -/
def locate (v : Variable) : Except Overflow Location :=
  let offset := v.offset.low
  match v.scope, v.ty with
  | .global, .array => do return ⟨.lda, ← offset.neg, .gp⟩
  | .global, .int => .ok ⟨.lda, -1 - offset, .gp⟩
  | .block, .array => do return ⟨.lda, ← offset.neg, .bp⟩
  | .block, .int => .ok ⟨.lda, -1 - offset, .bp⟩
  | .param, .array => do return ⟨.ld, ← Word.add 2 offset, .bp⟩
  | .param, .int => do return ⟨.lda, ← Word.add 2 offset, .bp⟩

end Variable

namespace Node

mutual

/-- The cells that a function body needs below its frame base: the largest extent of a block in
it. -/
def frameSize : Node → Size
  | compound table statements =>
    let own := match table with
      | some t => t.size
      | none => 0
    max (largestFrame statements) own
  | branch _ thenPart elsePart => max thenPart.frameSize (optionalFrame elsePart)
  | loop _ body => body.frameSize
  | _ => 0

def largestFrame : List Node → Size
  | [] => 0
  | node :: rest => max node.frameSize (largestFrame rest)

def optionalFrame : Option Node → Size
  | none => 0
  | some node => node.frameSize

end

end Node

end CMinus
