import Pathwise.Digraph
import Pathwise.Method
import Pathwise.Number.Double

/-!
# Pathwise.MethodGraph

Control-flow graphs of methods. A graph is a list of blocks of typed
instructions; block 0 is the entry. A front end numbers the blocks by their
position; `MethodGraph.validate` checks that, and that every edge leads to a
block. The order of blocks and their dominators are defined for all graphs: an
edge to a missing block is no edge.
-/

namespace Pathwise

/-- Where a variable is stored. -/
inductive Slot where
  | parameter (index : Nat)
  | localVar (index : Nat)
  | staticField (field : FieldRef)
  /-- A temporary of the evaluation stack, numbered uniquely in its method. -/
  | stack (index : Nat)
deriving DecidableEq, Inhabited

namespace Slot

/-- Written `p0`, `l0` or `s0`; a field by its name. -/
def text : Slot → String
  | .parameter i => "p" ++ toString i
  | .localVar i => "l" ++ toString i
  | .staticField f => f.text
  | .stack i => "s" ++ toString i

instance : ToString Slot := ⟨text⟩

/-- Parameters, locals, static fields and temporaries, in that order. -/
def cmp : Slot → Slot → Ordering
  | .parameter i, .parameter j => compare i j
  | .parameter _, _ => .lt
  | .localVar _, .parameter _ => .gt
  | .localVar i, .localVar j => compare i j
  | .localVar _, _ => .lt
  | .staticField _, .stack _ => .lt
  | .staticField f, .staticField g => compare f g
  | .staticField _, _ => .gt
  | .stack i, .stack j => compare i j
  | .stack _, _ => .gt

instance : Ord Slot := ⟨cmp⟩

end Slot

/-- An operand or target with its type. -/
structure Variable where
  slot : Slot
  type : TypeRef
deriving DecidableEq, Inhabited

namespace Variable

/-- By slot, then by type. -/
def cmp (v w : Variable) : Ordering := (compare v.slot w.slot).then (compare v.type w.type)

instance : Ord Variable := ⟨cmp⟩

end Variable

/-- The constant that an instruction loads. -/
inductive Literal where
  | bool (value : Bool)
  | int (value : Int)
  | float (value : Number.Double)
  | str (value : String)
  | null
deriving DecidableEq, Inhabited

/-- Operators of arithmetic. -/
inductive BinaryOp where
  | add
  | sub
  | mul
deriving DecidableEq, Inhabited

namespace BinaryOp

/-- The name of an operator. -/
def name : BinaryOp → String
  | .add => "add"
  | .sub => "sub"
  | .mul => "mul"

end BinaryOp

/-- Comparisons of two values. -/
inductive Comparison where
  | eq
  | ne
  | lt
  | le
  | gt
  | ge
deriving DecidableEq, Inhabited

namespace Comparison

/-- The name of a comparison. -/
def name : Comparison → String
  | .eq => "eq"
  | .ne => "ne"
  | .lt => "lt"
  | .le => "le"
  | .gt => "gt"
  | .ge => "ge"

end Comparison

/-- What a conditional branch asks of its operand. -/
inductive BranchTest where
  | ifTrue
  | ifFalse
  | ifNull
  | ifNotNull
deriving DecidableEq, Inhabited

namespace BranchTest

/-- The name of a test. -/
def name : BranchTest → String
  | .ifTrue => "iftrue"
  | .ifFalse => "iffalse"
  | .ifNull => "ifnull"
  | .ifNotNull => "ifnotnull"

end BranchTest

/-- What an instruction does with its operands and target. -/
inductive Opcode where
  /-- Copy the operand: loads and stores of parameters, locals and static fields. -/
  | assign
  | constant (value : Literal)
  | binary (op : BinaryOp)
  | compare (op : Comparison)
  | not
  /-- Conditional branch. The first successor of the block is taken if the test holds, the
  second if not. -/
  | branch (test : BranchTest)
  | jump
  /-- Call; the operands are the arguments, the receiver first. -/
  | call (method : MethodRef) (virtualDispatch : Bool)
  /-- Allocation and constructor call; the operands are the constructor's arguments. -/
  | newObject (constructor : MethodRef)
  /-- New array; the operand is its length. -/
  | newArray (element : TypeRef)
  | arrayLength
  | loadElement
  | storeElement
  | loadField (field : FieldRef)
  | storeField (field : FieldRef)
  | ret
  | throw
  | convert (type : TypeRef)
  | isInstance (type : TypeRef)
  /-- An instruction without an encoding. -/
  | unsupported (name : String)
deriving DecidableEq, Inhabited

namespace Opcode

/-- The name of an opcode, with its operator or test. -/
def name : Opcode → String
  | .assign => "assign"
  | .constant _ => "constant"
  | .binary op => "binary " ++ op.name
  | .compare op => "compare " ++ op.name
  | .not => "not"
  | .branch test => "branch " ++ test.name
  | .jump => "jump"
  | .call .. => "call"
  | .newObject _ => "newobj"
  | .newArray _ => "newarr"
  | .arrayLength => "ldlen"
  | .loadElement => "ldelem"
  | .storeElement => "stelem"
  | .loadField _ => "ldfld"
  | .storeField _ => "stfld"
  | .ret => "ret"
  | .throw => "throw"
  | .convert _ => "conv"
  | .isInstance _ => "isinst"
  | .unsupported name => name

end Opcode

/-- One instruction of a graph. The offset is its place in the method's code. -/
structure MethodGraph.Instruction where
  offset : Nat
  opcode : Opcode
  target : Option Variable
  operands : List Variable
deriving DecidableEq, Inhabited

/-- A straight run of instructions and the blocks it can lead to. -/
structure MethodGraph.Block where
  index : Nat
  instructions : List MethodGraph.Instruction
  successors : List Nat
deriving DecidableEq, Inhabited

/-- Control-flow graph of one method. -/
structure MethodGraph where
  method : MethodRef
  blocks : List MethodGraph.Block
deriving DecidableEq, Inhabited

namespace MethodGraph

/-- The last instruction. -/
def Block.terminator? (b : Block) : Option Instruction := b.instructions.getLast?

/-! ## Validity -/

/-- Why the blocks of a graph do not fit together. -/
inductive Defect where
  | noEntry
  | misnumbered (position index : Nat)
  | missingSuccessor (position successor : Nat)
deriving DecidableEq

/-- What is wrong, in words. -/
def Defect.reason : Defect → String
  | .noEntry => "no entry block"
  | .misnumbered position index => s!"block at position {position} is numbered {index}"
  | .missingSuccessor position successor =>
    s!"block {position} jumps to missing block {successor}"

/-- What is wrong with the graph of a method. -/
def Defect.message (d : Defect) (method : MethodRef) : String :=
  "malformed graph of " ++ method.text ++ ": " ++ d.reason

/-- The first defect of the block at a position, in a graph of `count` blocks. -/
def Block.defect? (count position : Nat) (b : Block) : Option Defect :=
  if b.index ≠ position then some (.misnumbered position b.index)
  else (b.successors.find? (count ≤ ·)).map (.missingSuccessor position)

/-- The first defect of a graph: blocks are numbered by their position, and successors are
blocks. -/
def defect? (g : MethodGraph) : Option Defect :=
  if g.blocks = [] then some .noEntry
  else g.blocks.zipIdx.findSome? fun (b, position) => b.defect? g.blocks.length position

/-! ## Shape -/

/-- Positions of the blocks with an edge to `index`. -/
def predecessors (g : MethodGraph) (index : Nat) : List Nat :=
  g.blocks.zipIdx.filterMap fun (b, position) =>
    if index ∈ b.successors then some position else none

/-- Positions and edges of the blocks; edges to missing blocks are left out. -/
def digraph (g : MethodGraph) : Digraph :=
  { size := g.blocks.length
    edges := g.blocks.zipIdx.flatMap fun (b, position) =>
      (b.successors.filter (· < g.blocks.length)).map fun s => (position, s) }

/-- The blocks reachable from the entry, in reverse post-order. -/
def order (g : MethodGraph) : List Nat :=
  if g.blocks = [] then [] else g.digraph.reversePostOrder [0]

/-- The strict dominators of every reachable block, nearest first, by ascending block. -/
def dominators (g : MethodGraph) : List (Nat × List Nat) :=
  if g.blocks = [] then []
  else
    let cuts := g.digraph.cuts 0
    ((List.range g.blocks.length).filter (· ∈ g.order)).map fun b =>
      (b, Digraph.climb cuts g.blocks.length b)

end MethodGraph

end Pathwise
