import Pathwise.MethodGraph

/-!
# Pathwise.MethodGraph.Builder

Step-by-step construction of method graphs. Instructions get their offsets in
the order they are added, over all blocks.
-/

namespace Pathwise.MethodGraph

/-- A graph under construction. -/
structure Builder where
  method : MethodRef
  blocks : List Block := []
  nextOffset : Nat := 0

namespace Builder

/-- Append an empty block; also its index. -/
def addBlock (b : Builder) : Nat × Builder :=
  let index := b.blocks.length
  (index, { b with blocks := b.blocks ++ [{ index, instructions := [], successors := [] }] })

/-- Append an instruction to a block that exists; also its offset. -/
def push? (b : Builder) (block : Nat) (opcode : Opcode) (target : Option Variable)
    (operands : List Variable) : Option (Nat × Builder) :=
  if block < b.blocks.length then
    let offset := b.nextOffset
    let add (x : Block) : Block :=
      { x with instructions := x.instructions ++ [{ offset, opcode, target, operands }] }
    some (offset, { b with blocks := b.blocks.modify block add, nextOffset := offset + 1 })
  else none

/-- Append an edge to a block that exists. -/
def addEdge? (b : Builder) (source target : Nat) : Option Builder :=
  if source < b.blocks.length then
    let add (x : Block) : Block := { x with successors := x.successors ++ [target] }
    some { b with blocks := b.blocks.modify source add }
  else none

/-- The graph as built so far. -/
def build (b : Builder) : MethodGraph := { method := b.method, blocks := b.blocks }

end Builder

end Pathwise.MethodGraph
