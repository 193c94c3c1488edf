import Pathwise.Text.Symbol
import Pathwise.TypeRef

/-!
# Pathwise.Method

References to fields and methods of the analysed program.
-/

namespace Pathwise

/-- A field of a type, by name. -/
structure FieldRef where
  owner : TypeRef
  name : String
deriving DecidableEq, Inhabited

namespace FieldRef

/-- Written `Owner::name`. -/
def text (f : FieldRef) : String := f.owner.text ++ "::" ++ f.name

instance : ToString FieldRef := ⟨text⟩

/-- By owner, then by name. -/
def cmp (f g : FieldRef) : Ordering := (compare f.owner g.owner).then (compare f.name g.name)

instance : Ord FieldRef := ⟨cmp⟩

end FieldRef

/-- A method, identified by its declaring type, its name, its signature and its kind. The
receiver of an instance method is not among `parameters`. -/
structure MethodRef where
  declaring : TypeRef
  name : String
  parameters : List TypeRef
  returnType : TypeRef
  isStatic : Bool
  isVirtual : Bool
  isAbstract : Bool
deriving DecidableEq, Inhabited

namespace MethodRef

/-- A method that is bound to no object. -/
def static (declaring : TypeRef) (name : String) (parameters : List TypeRef)
    (returnType : TypeRef) : MethodRef :=
  { declaring, name, parameters, returnType
    isStatic := true, isVirtual := false, isAbstract := false }

/-- A method with a receiver of the declaring type. -/
def member (declaring : TypeRef) (name : String) (parameters : List TypeRef)
    (returnType : TypeRef) : MethodRef :=
  { static declaring name parameters returnType with isStatic := false }

/-- The same method, but virtual. -/
def asVirtual (m : MethodRef) : MethodRef := { m with isVirtual := true }

/-- An abstract method is virtual too. -/
def asAbstract (m : MethodRef) : MethodRef := { m with isVirtual := true, isAbstract := true }

/-- Types of all parameter slots, the receiver first. -/
def parameterSlots (m : MethodRef) : List TypeRef :=
  if m.isStatic then m.parameters else m.declaring :: m.parameters

/-- Whether there is a value to return. -/
def returnsValue (m : MethodRef) : Bool := !m.returnType.isVoid

/-- Symbol of the method; overloads are told apart by their parameter types. -/
def symbol (m : MethodRef) : String :=
  Text.symbol <| m.declaring.text ++ "." ++ m.name ++
    String.join (m.parameters.map fun p => "_" ++ p.text)

/-- Written `Type::name(parameters) -> type`. -/
def text (m : MethodRef) : String :=
  m.declaring.text ++ "::" ++ m.name ++ "(" ++
    String.intercalate ", " (m.parameters.map TypeRef.text) ++ ") -> " ++ m.returnType.text

instance : ToString MethodRef := ⟨text⟩

/-- Order by declaring type, name, parameters, return type and the three flags. -/
def cmp (m n : MethodRef) : Ordering :=
  (compare m.declaring n.declaring).then <| (compare m.name n.name).then <|
  (TypeRef.cmpList m.parameters n.parameters).then <|
  (compare m.returnType n.returnType).then <| (compare m.isStatic n.isStatic).then <|
  (compare m.isVirtual n.isVirtual).then (compare m.isAbstract n.isAbstract)

instance : Ord MethodRef := ⟨cmp⟩

end MethodRef

end Pathwise
