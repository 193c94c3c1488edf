import Pathwise.Number.Double
import Pathwise.TypeRef

/-!
# Pathwise.Value

Concrete values of the program's types, and how they are rebuilt in an object
model of the caller.
-/

namespace Pathwise

/-- A value of the program. -/
inductive Value where
  | bool (value : Bool)
  | int (value : Int)
  | real (value : Number.Double)
  /-- The text that a `String` object carries. -/
  | text (value : String)
  | null (type : TypeRef)
  /-- An object with its static type, its type at run time, its pointer and its fields. -/
  | record (type runtimeType : TypeRef) (pointer : Int) (fields : List (String × Value))
  | array (type : TypeRef) (pointer : Int) (elements : List Value)
deriving Inhabited

/-- A value in a caller's representation, with objects in `ω` and sequences in `σ`. -/
inductive Reflected (ω σ : Type) where
  | bool (value : Bool)
  | int (value : Int)
  | real (value : Number.Double)
  | text (value : String)
  | null
  | object (value : ω)
  | sequence (value : σ)
deriving Inhabited

/-- How a caller builds objects and sequences. -/
structure ObjectModel (ω σ : Type) where
  /-- An object of a type from its fields. -/
  materialize : TypeRef → List (Reflected ω σ) → ω
  emptySequence : (element : TypeRef) → σ
  unitSequence : (element : TypeRef) → Reflected ω σ → σ
  append : σ → σ → σ

namespace Value

/-- The text of a `String` object. -/
def textOf? : TypeRef → List (String × Value) → Option String
  | .string, (_, .text t) :: _ => some t
  | _, _ => none

mutual

/-- Rebuild a value. A `String` object becomes its text, any other object is materialised with its
type at run time; an array is appended from its elements one by one. -/
def reflect {ω σ : Type} (model : ObjectModel ω σ) : Value → Reflected ω σ
  | .bool b => .bool b
  | .int i => .int i
  | .real r => .real r
  | .text t => .text t
  | .null _ => .null
  | .record type runtimeType _ fields =>
    match textOf? type fields with
    | some t => .text t
    | none => .object (model.materialize runtimeType (reflectFields model fields))
  | .array type _ elements =>
    let element := type.element?.getD .object
    .sequence (reflectElements model element (model.emptySequence element) elements)

/-- The fields of a record, reflected in order. -/
def reflectFields {ω σ : Type} (model : ObjectModel ω σ) :
    List (String × Value) → List (Reflected ω σ)
  | [] => []
  | (_, v) :: rest => v.reflect model :: reflectFields model rest

/-- Append the elements to a sequence. -/
def reflectElements {ω σ : Type} (model : ObjectModel ω σ) (element : TypeRef) :
    σ → List Value → σ
  | sequence, [] => sequence
  | sequence, v :: rest =>
    reflectElements model element
      (model.append sequence (model.unitSequence element (v.reflect model))) rest

end

end Value

end Pathwise
