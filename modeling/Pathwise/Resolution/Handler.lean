import Pathwise.Form.OfGraph
import Pathwise.Options
import Pathwise.Program

/-!
# Pathwise.Resolution.Handler

Handlers: rules of a caller that supply the sentence of a type, or the form of a
method, in place of the usual ones. A handler answers, passes, or fails with a
text of its own.

A handler also names what its answers can refer to, so that the work a request
causes is bounded before it starts.
-/

namespace Pathwise

/-- A type and what stands below its array brackets. -/
def TypeRef.chain : TypeRef → List TypeRef
  | .array e => .array e :: e.chain
  | t => [t]

namespace Program

/-- The types that sentences of a program can depend on, with what stands below their brackets. -/
def typeReach (p : Program) : List TypeRef :=
  .object :: p.types.values.flatMap fun d =>
    (d.base.toList ++ d.fields.map (·.type)).flatMap TypeRef.chain

/-- The methods that forms of a program can run. -/
def methodReach (p : Program) : List MethodRef :=
  p.methods.values.flatMap fun g => g.blocks.flatMap fun b => b.instructions.filterMap fun i =>
    match i.opcode with
    | .call callee _ => some callee
    | .newObject constructor => some constructor
    | _ => none

/-- The types that forms of a program can mention, with what stands below their brackets. -/
def mentionReach (p : Program) : List TypeRef :=
  p.methods.values.flatMap fun g => g.mentionedTypes.flatMap TypeRef.chain

/-- Look the sentences of a program's types up by encoding them. -/
def lookup (p : Program) (exceptionBase : Option TypeRef) : SentenceLookup := fun t =>
  (Sentence.encode exceptionBase p t).mapError .sentence

end Program

/-- A rule for types; it is told the exception base of the engine that asks. -/
structure TypeHandler where
  answer : (exceptionBase : Option TypeRef) → TypeRef → Except String (Option Sentence)
  /-- Types that its sentences can depend on. -/
  reach : List TypeRef := []

namespace TypeHandler

/-- Passes always. -/
def pass : TypeHandler where
  answer _ _ := .ok none

/-- Fails on the types whose name begins with `start`. -/
def failing (start message : String) : TypeHandler where
  answer _ t := if Options.beginsWith start t.text then .error message else .ok none

/-- Encodes the types that another program defines. -/
def external (p : Program) : TypeHandler where
  answer exceptionBase t :=
    if (p.typeDef? t).isSome then
      match Sentence.encode exceptionBase p t with
      | .ok s => .ok (some s)
      | .error e => .error e.message
    else .ok none
  reach := p.typeReach

/-- Answers for one type with the sentence that another type has in a program. -/
def substitute (asked given : TypeRef) (p : Program) : TypeHandler where
  answer exceptionBase t :=
    if t = asked then
      match Sentence.encode exceptionBase p given with
      | .ok s => .ok (some s)
      | .error e => .error e.message
    else .ok none
  reach := given.chain ++ p.typeReach

end TypeHandler

/-- A rule for methods. -/
structure MethodHandler where
  answer : MethodRef → Except String (Option Form)
  /-- Methods that its forms can run. -/
  reach : List MethodRef := []
  /-- Types that its forms can mention. -/
  typeReach : List TypeRef := []

namespace MethodHandler

/-- Passes always. -/
def pass : MethodHandler where
  answer _ := .ok none

/-- Fails on the methods whose declaring type's name begins with `start`. -/
def failing (start message : String) : MethodHandler where
  answer m := if Options.beginsWith start m.declaring.text then .error message else .ok none

/-- Encodes the methods that have a graph in another program, without an exception base. -/
def external (p : Program) : MethodHandler where
  answer m :=
    match p.methodGraph? m with
    | none => .ok none
    | some g =>
      match Form.ofGraph (p.lookup none) g with
      | .ok f => .ok (some f)
      | .error e => .error e.message
  reach := p.methodReach
  typeReach := p.mentionReach

/-- Leaves the methods out whose declaring type's name begins with `start`. -/
def leavingOut (start : String) : MethodHandler where
  answer m := .ok (if Options.beginsWith start m.declaring.text then some (.empty m) else none)

/-- Answers for one method with the empty form of another. -/
def substitute (asked given : MethodRef) : MethodHandler where
  answer m := .ok (if m = asked then some (.empty given) else none)

end MethodHandler

end Pathwise
