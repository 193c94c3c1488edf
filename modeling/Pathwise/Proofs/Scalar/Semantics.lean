import Pathwise.Coverage.Path
import Pathwise.Form.OfGraph
import Pathwise.Number.Integer
import Pathwise.Proofs.Symbol
import Pathwise.Sexp.Parser

/-!
# Pathwise.Proofs.Scalar.Semantics

What graphs over truth values and integers mean, and what the terms about them
mean.

* `Scalar.eval` reads a term of the constraint language under a valuation of its
  constants; `Scalar.Holds` does so for a text.
* `Scalar.Run` executes a graph. Integers are unbounded, a branch on an integer
  asks whether it is zero, and a run stops at a return, behind a block that leads
  nowhere, or where it would enter a block a second time.
* `MethodGraph.IsScalar` describes the graphs of the fragment: they compute with
  operands and results of the right types, only read their inputs, and write
  every other slot once and before it is read.
-/

namespace Pathwise

/-- A truth value or an integer. -/
inductive Scalar where
  | bool (value : Bool)
  | int (value : Int)
deriving DecidableEq, Inhabited

/-- The values of the constants. -/
abbrev Valuation := String → Scalar

namespace Scalar

/-- The type of a scalar. -/
def type : Scalar → TypeRef
  | .bool _ => .bool
  | .int _ => .int32

/-! ## terms -/

/-- The value of an atom that is no constant of its own. -/
def literal? (text : String) : Option Scalar :=
  if text = "true" then some (.bool true)
  else if text = "false" then some (.bool false)
  else (Number.readNat text.toList).map fun n => .int n

/-- What an operator yields for its arguments. Equality is for values of one type. -/
def operate : String → List Scalar → Option Scalar
  | "=", [a, b] => if a.type = b.type then some (.bool (a = b)) else none
  | "not", [.bool a] => some (.bool !a)
  | "<", [.int a, .int b] => some (.bool (a < b))
  | "<=", [.int a, .int b] => some (.bool (a ≤ b))
  | ">", [.int a, .int b] => some (.bool (b < a))
  | ">=", [.int a, .int b] => some (.bool (b ≤ a))
  | "+", [.int a, .int b] => some (.int (a + b))
  | "-", [.int a, .int b] => some (.int (a - b))
  | "-", [.int a] => some (.int (-a))
  | "*", [.int a, .int b] => some (.int (a * b))
  | _, _ => none

mutual

/-- The value of a term, if it has one. -/
def eval (v : Valuation) : Sexp → Option Scalar
  | .atom t => some ((literal? t).getD (v t))
  | .quoted _ => none
  | .list (.atom op :: args) => (evalAll v args).bind (operate op)
  | .list _ => none

/-- The values of the terms of a list. -/
def evalAll (v : Valuation) : List Sexp → Option (List Scalar)
  | [] => some []
  | e :: es => (eval v e).bind fun a => (evalAll v es).map (a :: ·)

end

/-- A text is an expression with the value true. -/
def Holds (v : Valuation) (text : String) : Prop :=
  (Sexp.parse text).toOption.bind (eval v) = some (.bool true)

/-! ## instructions -/

/-- The values of the slots that have one. -/
abbrev Store := Slot → Option Scalar

/-- The store with one slot changed. -/
def Store.set (σ : Store) (slot : Slot) (a : Scalar) : Store :=
  fun s => if s = slot then some a else σ s

/-- Operators on integers, without overflow. -/
def arithmetic : BinaryOp → Int → Int → Int
  | .add, a, b => a + b
  | .sub, a, b => a - b
  | .mul, a, b => a * b

/-- Comparisons of integers. -/
def ordered : Comparison → Int → Int → Bool
  | .eq, a, b => a = b
  | .ne, a, b => a ≠ b
  | .lt, a, b => a < b
  | .le, a, b => a ≤ b
  | .gt, a, b => b < a
  | .ge, a, b => b ≤ a

/-- What an instruction computes from its operands. -/
def compute : Opcode → List Scalar → Option Scalar
  | .assign, a :: _ => some a
  | .constant (.bool b), _ => some (.bool b)
  | .constant (.int i), _ => some (.int i)
  | .binary op, .int a :: .int b :: _ => some (.int (arithmetic op a b))
  | .compare op, .int a :: .int b :: _ => some (.bool (ordered op a b))
  | .compare .eq, .bool a :: .bool b :: _ => some (.bool (a = b))
  | .compare .ne, .bool a :: .bool b :: _ => some (.bool (a ≠ b))
  | .not, .bool a :: _ => some (.bool !a)
  | _, _ => none

/-- Whether a branch is taken. An integer is tested against zero. -/
def test : BranchTest → Scalar → Option Bool
  | .ifTrue, .bool b => some b
  | .ifTrue, .int i => some (i ≠ 0)
  | .ifFalse, .bool b => some !b
  | .ifFalse, .int i => some (i = 0)
  | _, _ => none

end Scalar

namespace MethodGraph

/-- The variable an instruction writes. -/
def Instruction.result? (i : Instruction) : Option Variable :=
  match i.opcode with
  | .branch _ | .jump | .ret => none
  | _ => i.target

end MethodGraph

namespace Scalar

open MethodGraph (Instruction)

/-- Execute one instruction. Branches, jumps and returns leave the store as it is. -/
def step (σ : Store) (i : Instruction) : Option Store :=
  match i.opcode with
  | .branch _ | .jump | .ret => some σ
  | op => do
    let arguments ← i.operands.mapM fun x => σ x.slot
    let a ← compute op arguments
    let target ← i.target
    return σ.set target.slot a

/-- Execute instructions in order, up to a return. -/
def exec : Store → List Instruction → Option Store
  | σ, [] => some σ
  | σ, i :: is => if i.opcode = .ret then some σ else (step σ i).bind fun τ => exec τ is

/-- Where a block leads behind its instructions: the number of the edge, and the next block unless
the run stops there. -/
def next (σ : Store) (b : MethodGraph.Block) : Option (Nat × Option Nat) :=
  if b.instructions.any (·.opcode = .ret) then some (0, none)
  else
    match b.terminator? with
    | none => some (0, b.successors.head?)
    | some i =>
      match i.opcode with
      | .branch t => do
        let x ← i.operands.head?
        let taken ← test t (← σ x.slot)
        let edge := if taken then 0 else 1
        return (edge, some (← b.successors[edge]?))
      | _ => some (0, b.successors.head?)

/-- A run from a block on, with the blocks entered so far: the edges it follows, how it stops and
the store it ends with. -/
inductive Run (g : MethodGraph) :
    List Nat → Nat → Store → List PathStep → ExitKind → Store → Prop where
  | stop {entered : List Nat} {n k : Nat} {b : MethodGraph.Block} {σ τ : Store}
      (hb : g.blocks[n]? = some b) (hexec : exec σ b.instructions = some τ)
      (hnext : next τ b = some (k, none)) : Run g entered n σ [⟨.node n, k⟩] .returned τ
  | again {entered : List Nat} {n k m : Nat} {b : MethodGraph.Block} {σ τ : Store}
      (hb : g.blocks[n]? = some b) (hexec : exec σ b.instructions = some τ)
      (hnext : next τ b = some (k, some m)) (hm : m ∈ entered) :
      Run g entered n σ [⟨.node n, k⟩] .loopBound τ
  | go {entered : List Nat} {n k m : Nat} {b : MethodGraph.Block} {σ τ υ : Store}
      {steps : List PathStep} {exit : ExitKind}
      (hb : g.blocks[n]? = some b) (hexec : exec σ b.instructions = some τ)
      (hnext : next τ b = some (k, some m)) (hm : m ∉ entered)
      (rest : Run g (m :: entered) m τ steps exit υ) :
      Run g entered n σ (⟨.node n, k⟩ :: steps) exit υ

end Scalar

/-! ## the fragment -/

/-- Parameters and static fields have their values from outside. -/
def Slot.isInput : Slot → Bool
  | .parameter _ | .staticField _ => true
  | _ => false

namespace MethodGraph

/-- An instruction over scalars without conversions: operands of one type, and a target of the type
of the result. -/
def Instruction.IsScalar (i : Instruction) : Prop :=
  (∀ x ∈ i.operands, ∀ y ∈ i.operands, x.type = y.type) ∧
  match i.opcode with
  | .assign => ∀ x ∈ i.operands, ∀ y ∈ i.target, x.type = y.type
  | .binary _ => ∀ y ∈ i.target, y.type = .int32
  | .compare _ | .not => ∀ y ∈ i.target, y.type = .bool
  | .constant _ | .branch _ | .jump | .ret => True
  | _ => False

/-- Instructions in order, behind some that have written the slots `written`: inputs are only
read, and any other slot is written once and read behind that. -/
def Disciplined : (written : List Slot) → List Instruction → Prop
  | _, [] => True
  | written, i :: is =>
    (∀ x ∈ i.operands, x.slot.isInput ∨ x.slot ∈ written) ∧
    (∀ x ∈ i.result?, ¬x.slot.isInput ∧ x.slot ∉ written) ∧
    Disciplined ((i.result?.map (·.slot)).toList ++ written) is

/-- A path of blocks from the entry that enters none twice, the latest first. -/
inductive Path (g : MethodGraph) : List Nat → Prop where
  | start : Path g [0]
  | step {n m : Nat} {ns : List Nat} {b : Block} (h : Path g (n :: ns))
      (hb : g.blocks[n]? = some b) (hm : m ∈ b.successors) (hnew : m ∉ n :: ns) :
      Path g (m :: n :: ns)

/-- The instructions of a block; none if there is no such block. -/
def instructionsAt (g : MethodGraph) (n : Nat) : List Instruction :=
  (g.blocks[n]?.map (·.instructions)).getD []

/-- The instructions along a path, in order. -/
def instructionsOn (g : MethodGraph) (path : List Nat) : List Instruction :=
  path.reverse.flatMap g.instructionsAt

/-- A graph of the scalar fragment. What is said of a path holds for all paths that enter no block
twice; blocks that no path reaches do not matter. -/
structure IsScalar (g : MethodGraph) : Prop where
  scalar : ∀ path, g.Path path → ∀ i ∈ g.instructionsOn path, i.IsScalar
  ret_last : ∀ n path, g.Path (n :: path) →
    ∀ i ∈ (g.instructionsAt n).dropLast, i.opcode ≠ .ret
  disciplined : ∀ path, g.Path path → Disciplined [] (g.instructionsOn path)

end MethodGraph

namespace Scalar

/-- The store in which a run starts: only the inputs have values. -/
def inputs (m : MethodRef) (v : Valuation) : Store :=
  fun slot => if slot.isInput then some (v (m.slotSymbol slot)) else none

/-- A valuation gives the constant of every slot the value that the slot has. -/
def Agrees (m : MethodRef) (v : Valuation) (σ : Store) : Prop :=
  ∀ slot a, σ slot = some a → v (m.slotSymbol slot) = a

/-- A valuation gives the constants of a graph values of their types. Where there is one, the types
are the scalar ones, and each slot has one type. -/
def Fits (g : MethodGraph) (v : Valuation) : Prop :=
  ∀ path, g.Path path → ∀ i ∈ g.instructionsOn path, ∀ x ∈ i.variables,
    (v (g.method.variableSymbol x)).type = x.type

end Scalar

end Pathwise
