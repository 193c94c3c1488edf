import Pathwise.MethodGraph
import Pathwise.Table

/-!
# Pathwise.Program

The analysed program: definitions of its types and control-flow graphs of its
methods, both looked up by reference.
-/

namespace Pathwise

/-- A field as its type declares it. -/
structure FieldDef where
  name : String
  type : TypeRef
  isStatic : Bool
deriving DecidableEq, Inhabited

/-- Definition of a named type. -/
structure TypeDef where
  type : TypeRef
  base : Option TypeRef
  fields : List FieldDef
  isValueType : Bool
deriving DecidableEq, Inhabited

namespace TypeDef

/-- The fields every value of the type has, in the order of their declaration. -/
def instanceFields (d : TypeDef) : List FieldDef := d.fields.filter (!·.isStatic)

/-- The first field with a name, static or not. -/
def field? (d : TypeDef) (name : String) : Option FieldDef := d.fields.find? (·.name = name)

end TypeDef

/-- A program. Of several definitions of one type, and of several graphs of one method, the last
one added counts. -/
structure Program where
  types : Table TypeRef TypeDef
  methods : Table MethodRef MethodGraph
deriving Inhabited

namespace Program

/-- A program without types and methods. -/
def empty : Program := { types := ∅, methods := ∅ }

/-- Add a type, or replace it. -/
def addType (p : Program) (d : TypeDef) : Program := { p with types := p.types.set d.type d }

/-- Add a method, or replace it. -/
def addMethod (p : Program) (g : MethodGraph) : Program :=
  { p with methods := p.methods.set g.method g }

/-- The definition of a type. -/
def typeDef? (p : Program) (t : TypeRef) : Option TypeDef := p.types.find? t

/-- The graph of a method. -/
def methodGraph? (p : Program) (m : MethodRef) : Option MethodGraph := p.methods.find? m

/-- All defined types in their order. -/
def typeList (p : Program) : List TypeRef :=
  p.types.keys.mergeSort fun a b => (compare a b).isLE

/-- All methods with a graph in their order. -/
def methodList (p : Program) : List MethodRef :=
  p.methods.keys.mergeSort fun a b => (compare a b).isLE

end Program

end Pathwise
