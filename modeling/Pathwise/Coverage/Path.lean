import Pathwise.Form
import Pathwise.Sentence.Operation

/-!
# Pathwise.Coverage.Path

Paths through a form. A path starts at the entry, follows edges, and ends where it
leaves the method or comes back to a block it has passed through. All paths of a
form are enumerated depth first, in the order of the edges.
-/

namespace Pathwise

/-- Why paths could not be covered. -/
inductive CoverageError where
  | unresolvedMethod (method : MethodRef)
  | pathLimit (method : MethodRef) (limit : Nat)
  | unsupportedOperation (cause : UnsupportedOperation)
  | missingBlock (method : MethodRef) (block : BlockId)
  | missingSuccessor (block : BlockId) (edge : Nat)
  | unresolvedType (type : TypeRef)
deriving DecidableEq

/-- Why a method has no groups. -/
def CoverageError.message : CoverageError → String
  | .unresolvedMethod m => s!"method {m} has not been resolved"
  | .pathLimit m limit => s!"more than {limit} paths through {m}"
  | .unsupportedOperation cause => cause.message
  | .missingBlock m block => s!"invalid argument: {m} has no block {block}"
  | .missingSuccessor block edge => s!"invalid argument: {block} has no successor {edge}"
  | .unresolvedType t => s!"invalid argument: type {t} has not been resolved"

/-- How a path leaves its method. -/
inductive ExitKind where
  | returned
  /-- An exception thrown by an instruction for that purpose. -/
  | thrown
  /-- A fault raised by the instruction at an offset. -/
  | fault (kind : FaultKind) (offset : Nat)
  /-- The path came back to a block it had passed through. -/
  | loopBound
deriving DecidableEq, Inhabited

namespace ExitKind

/-- How a path ends, in words. -/
def text : ExitKind → String
  | .returned => "return"
  | .thrown => "throw"
  | .fault kind offset => s!"{kind} at {offset}"
  | .loopBound => "loop-bound"

instance : ToString ExitKind := ⟨text⟩

/-- Exit along an edge to the exceptional exit. -/
def ofCondition : Condition → ExitKind
  | .fault group =>
    match group.fault with
    | some kind => .fault kind group.offset
    | none => .thrown
  | _ => .thrown

end ExitKind

/-- Leaving a block along one of its edges. -/
structure PathStep where
  block : BlockId
  edge : Nat
deriving DecidableEq, Inhabited

/-- The blocks of one path, before the methods it runs are inlined. -/
structure Skeleton where
  steps : List PathStep
  exit : ExitKind
deriving DecidableEq, Inhabited

namespace Form

/-- Add a complete path, its steps given in reverse; no more than `limit` paths are allowed. -/
def finish (f : Form) (limit : Nat) (paths : Array Skeleton) (steps : List PathStep)
    (exit : ExitKind) : Except CoverageError (Array Skeleton) :=
  if limit ≤ paths.size then .error (.pathLimit f.method limit)
  else .ok (paths.push { steps := steps.reverse, exit })

/-- Add the paths that go on from a block. `steps` leads to it, in reverse, and `onPath` holds the
blocks of the graph entered so far. -/
def walk (f : Form) (limit : Nat) : (fuel : Nat) → (id : BlockId) → (steps : List PathStep) →
    (onPath : List BlockIndex) → Array Skeleton → Except CoverageError (Array Skeleton)
  | 0, _, _, _, paths => .ok paths
  | fuel + 1, id, steps, onPath, paths =>
    match f.block? id with
    | none => .error (.missingBlock f.method id)
    | some b =>
      b.successors.zipIdx.foldlM (fun paths (e, k) =>
        let steps := ⟨id, k⟩ :: steps
        match e.target.index with
        | .regularExit => f.finish limit paths steps .returned
        | .exceptionalExit => f.finish limit paths steps (.ofCondition e.condition)
        | index =>
          if e.target.segment ≠ 0 then walk f limit fuel e.target steps onPath paths
          else if index ∈ onPath then f.finish limit paths steps .loopBound
          else walk f limit fuel e.target steps (index :: onPath) paths) paths

/-- All paths of a form. No path enters a block twice, so it has no more steps than there are
blocks. -/
def paths (f : Form) (limit : Nat) : Except CoverageError (List Skeleton) := do
  return (← f.walk limit (f.blocks.length + 1) .entry [] [] #[]).toList

end Form

end Pathwise
