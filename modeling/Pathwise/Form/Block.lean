import Pathwise.Form.Statement

/-!
# Pathwise.Form.Block

Blocks of forms. A block of the graph is cut into segments after every
instruction that can fault: the guards of the segment decide whether the next
segment is reached or the method is left by a fault.
-/

namespace Pathwise

/-- Which part of a method a block belongs to. -/
inductive BlockIndex where
  | entry
  /-- A block of the graph. -/
  | node (index : Nat)
  | regularExit
  | exceptionalExit
deriving DecidableEq, Inhabited

/-- The kind of a part, and its number among the parts of this kind. -/
def BlockIndex.rank : BlockIndex → Nat × Nat
  | .entry => (0, 0)
  | .node index => (1, index)
  | .regularExit => (2, 0)
  | .exceptionalExit => (3, 0)

/-- A segment of a part; the part starts with segment 0. Segments are numbered with sixteen bits. -/
structure BlockId where
  index : BlockIndex
  segment : Nat
deriving DecidableEq, Inhabited

namespace BlockId

/-- Where a method starts. -/
def entry : BlockId := ⟨.entry, 0⟩

/-- Where a method returns. -/
def regularExit : BlockId := ⟨.regularExit, 0⟩

/-- Where a method is left by a fault or an exception. -/
def exceptionalExit : BlockId := ⟨.exceptionalExit, 0⟩

/-- Where a block of the graph starts. -/
def node (index : Nat) : BlockId := ⟨.node index, 0⟩

/-- The next segment of the same part. The numbers start again behind the last one. -/
def next (id : BlockId) : BlockId := ⟨id.index, (id.segment + 1) % 65536⟩

/-- Ids are ordered by their parts, and by their segments within a part. -/
instance : Ord BlockId :=
  ⟨compareLex (compareOn (·.index.rank.1)) (compareLex (compareOn (·.index.rank.2))
    (compareOn (·.segment)))⟩

/-- The name of a block, with the segment of a graph block. -/
def text (id : BlockId) : String :=
  match id.index with
  | .entry => "entry"
  | .node n => s!"b{n}.{id.segment}"
  | .regularExit => "exit"
  | .exceptionalExit => "exceptional-exit"

instance : ToString BlockId := ⟨text⟩

end BlockId

/-- Faults that an instruction raises by itself, in the order in which they are checked. -/
inductive FaultKind where
  | nullReference
  | indexBelowRange
  | indexAboveRange
  | missingOverride
deriving DecidableEq, Inhabited

namespace FaultKind

/-- The name of a fault. -/
def text : FaultKind → String
  | .nullReference => "null-reference"
  | .indexBelowRange => "index-below-range"
  | .indexAboveRange => "index-above-range"
  | .missingOverride => "missing-override"

instance : ToString FaultKind := ⟨text⟩

end FaultKind

/-- One outcome of an instruction that can fault. Group 0 is the outcome without a fault. -/
structure FaultGroup where
  ordinal : Nat
  fault : Option FaultKind
  offset : Nat
deriving DecidableEq, Inhabited

/-- When an edge is followed. -/
inductive Condition where
  | always
  | taken
  | notTaken
  | fault (group : FaultGroup)
deriving DecidableEq, Inhabited

/-- An edge out of a block, and when it is taken. -/
structure Edge where
  condition : Condition
  target : BlockId
deriving DecidableEq, Inhabited

/-- A statement in its block. -/
structure Placed where
  block : BlockId
  statement : Statement
deriving DecidableEq, Inhabited

/-- Place a statement. -/
def Statement.link (s : Statement) (block : BlockId) : Placed := { block, statement := s }

/-- A segment with its statements and its edges. -/
structure Block where
  id : BlockId
  predecessors : List BlockId := []
  declarations : List Placed := []
  assertions : List Placed := []
  /-- The taken and the other side of a conditional branch. -/
  branchConditions : List Placed := []
  /-- For each fault group what holds in it. -/
  faultGuards : List Placed := []
  successors : List Edge := []
deriving DecidableEq, Inhabited

namespace Block

/-- What holds when the block is left under a condition. -/
def guards (b : Block) : Condition → List Placed
  | .always => []
  | .taken => b.branchConditions.filter (·.statement.isBranch)
  | .notTaken => b.branchConditions.filter (·.statement.isAssertion)
  | .fault group => b.faultGuards.filter (·.statement.group = group.ordinal)

/-- All statements: declarations, assertions, conditions and guards. -/
def statements (b : Block) : List Placed :=
  b.declarations ++ b.assertions ++ b.branchConditions ++ b.faultGuards

/-- Slots whose constants the block declares. -/
def declaredSlots (b : Block) : List Slot := b.declarations.filterMap (·.statement.slot?)

end Block

end Pathwise
