import Pathwise.Program
import Pathwise.Sexp

/-!
# Pathwise.Sentence

Sentences: how the values of one type are encoded in the constraint language. A
reference type becomes a datatype with a null constructor and one constructor
that carries a pointer, the runtime type and the fields; all arrays share one
parametric datatype over sequences; the scalar types are sorts of the language.

Runtime types are constants of an uninterpreted sort, the tags, ordered by the
relation `subtype`.
-/

namespace Pathwise

/-! ## Names -/

/-- Name of a type's sentence; arrays are named after their element. -/
def TypeRef.symbol : TypeRef → String
  | .bool => "Bool"
  | .int32 => "Int"
  | .float64 => "Real"
  | .string => "Str"
  | .object => "Object"
  | .void => "Void"
  | .array e => e.symbol ++ "_Array"
  | .named s n as => Text.symbol (TypeRef.named s n as).text

/-- Name of the constant that stands for a type at run time. -/
def TypeRef.tag (t : TypeRef) : String := t.symbol ++ "_tag"

namespace SeqArray

def ctor : String := "SeqArray_ctor"
def null : String := "SeqArray_null"
def pointer : String := "SeqArray_ptr"
def type : String := "SeqArray_type"
def contents : String := "SeqArray_value"

/-- Sort of the arrays whose elements have a given sort. -/
def sort (element : Sexp) : Sexp := .app "SeqArray" [element]

end SeqArray

/-- Sort of a type's values, array names expanded. -/
def TypeRef.sort : TypeRef → Sexp
  | .array e => SeqArray.sort e.sort
  | t => .atom t.symbol

/-- Sort of the runtime types. -/
def typeSort : Sexp := .atom "Type"

/-! ## Datatypes -/

/-- A field of a constructor. -/
structure Accessor where
  name : String
  sort : Sexp
deriving DecidableEq, Inhabited

namespace Accessor

/-- Accessor for a field of a type, from the symbol of the type and the name of the field. -/
def ofField (owner field : String) (sort : Sexp) : Accessor :=
  { name := owner ++ "_" ++ Text.symbol field, sort }

/-- Written `(name sort)`. -/
def sexp (a : Accessor) : Sexp := .list [.atom a.name, a.sort]

end Accessor

/-- A constructor with its accessors. -/
structure Constructor where
  name : String
  accessors : List Accessor
deriving DecidableEq, Inhabited

namespace Constructor

/-- A constructor without fields is written as a bare name. -/
def sexp (c : Constructor) : Sexp :=
  if c.accessors = [] then .atom c.name else .app c.name (c.accessors.map Accessor.sexp)

/-- The constructor of null references. -/
def null (owner : String) : Constructor := { name := owner ++ "_null", accessors := [] }

/-- The constructor of objects: a pointer, the runtime type, then the fields. -/
def object (owner : String) (fields : List Accessor) : Constructor :=
  { name := owner ++ "_ctor"
    accessors :=
      .ofField owner "ptr" (.atom "Int") :: .ofField owner "type" typeSort :: fields }

end Constructor

/-! ## Sentences -/

/-- A field of a composite type with its accessor. -/
structure FieldAccessor where
  field : String
  type : TypeRef
  accessor : Accessor
deriving DecidableEq, Inhabited

/-- What the values of a sentence look like. -/
inductive Shape where
  | bool
  | int
  | real
  /-- Reference to an immutable text. -/
  | str
  /-- Reference without fields. -/
  | object
  /-- Array over the shared datatype. -/
  | array (element : TypeRef)
  /-- A type of the program, with one accessor per instance field. -/
  | composite (fields : List FieldAccessor) (isValueType : Bool)
  /-- The base of all exceptions: identity only. -/
  | exceptionBase
deriving DecidableEq, Inhabited

/-- Encoding of one type. -/
structure Sentence where
  type : TypeRef
  shape : Shape
  base : Option TypeRef
  /-- Types whose sentences this one needs. -/
  dependencies : List TypeRef
deriving DecidableEq, Inhabited

namespace Sentence

/-- Name of the sentence, which is also the name of its sort. -/
def name (s : Sentence) : String := s.type.symbol

/-- Sort of the values, array names expanded. -/
def sort (s : Sentence) : Sexp := s.type.sort

/-- Constant for the type at run time. -/
def tag (s : Sentence) : String := s.type.tag

/-- Whether the values are references. -/
def isReference (s : Sentence) : Bool :=
  match s.shape with
  | .bool | .int | .real => false
  | _ => true

/-- Whether the values are arrays. -/
def isArray (s : Sentence) : Bool :=
  match s.shape with
  | .array _ => true
  | _ => false

/-- The instance fields of a composite type. -/
def fields (s : Sentence) : List FieldAccessor :=
  match s.shape with
  | .composite fields _ => fields
  | _ => []

/-- The first field with a name. -/
def field? (s : Sentence) (name : String) : Option FieldAccessor :=
  s.fields.find? (·.field = name)

/-- Whether the type has its own datatype. Scalars are sorts of the language and arrays share
theirs. -/
def hasDatatype (s : Sentence) : Bool := s.isReference && !s.isArray

/-- The constructor of the null of the datatype. -/
def nullConstructor? (s : Sentence) : Option Constructor :=
  if s.hasDatatype then some (.null s.name) else none

/-- Accessors of the constructor behind pointer and type. -/
def fieldAccessors (s : Sentence) : List Accessor :=
  match s.shape with
  | .str => [.ofField s.name "value" (.atom "String")]
  | .composite fields _ => fields.map (·.accessor)
  | _ => []

/-- The constructor of the objects of the datatype. -/
def constructor? (s : Sentence) : Option Constructor :=
  if s.hasDatatype then some (.object s.name s.fieldAccessors) else none

/-- The null reference as a term. -/
def null? (s : Sentence) : Option Sexp :=
  match s.shape with
  | .array element => some (.app "as" [.atom SeqArray.null, SeqArray.sort element.sort])
  | _ => s.nullConstructor?.map fun c => .atom c.name

/-- The function that reads the pointer of an object. -/
def pointerAccessor (s : Sentence) : String :=
  if s.isArray then SeqArray.pointer else s.name ++ "_ptr"

/-- The function that reads the type of an object. -/
def typeAccessor (s : Sentence) : String :=
  if s.isArray then SeqArray.type else s.name ++ "_type"

/-- Types named in the declaration itself: the elements of arrays, and the sorts of the fields
below their array brackets. -/
def references (s : Sentence) : List TypeRef :=
  match s.shape with
  | .array element => [element]
  | .composite fields _ => ((fields.map (·.type.innermost)).filter (· ≠ s.type)).eraseDups
  | _ => []

/-! ## Encoding a type -/

/-- Why a type has no sentence. -/
inductive Error where
  | unknownType (type : TypeRef)
  | notEncodable (type : TypeRef)
deriving DecidableEq

/-- Why a type has no sentence. -/
def Error.message : Error → String
  | .unknownType t => "no definition available for type " ++ t.text
  | .notEncodable t => "type " ++ t.text ++ " has no constraint-language encoding"

/-- The sentence of a type without references. -/
def scalar (type : TypeRef) (shape : Shape) : Sentence :=
  { type, shape, base := none, dependencies := [] }

/-- A reference sentence depends on the types it mentions, itself apart, and on its base. -/
def reference (type : TypeRef) (shape : Shape) (base : Option TypeRef)
    (mentioned : List TypeRef) : Sentence :=
  let others := (mentioned.filter (· ≠ type)).eraseDups
  let dependencies :=
    match base with
    | some b => if b ∈ others then others else others ++ [b]
    | none => others
  { type, shape, base, dependencies }

/-- The accessor of an instance field; a field of type `Void` has no encoding. -/
def fieldAccessor (owner : TypeRef) (f : FieldDef) : Except Error FieldAccessor :=
  if f.type.isVoid then .error (.notEncodable f.type)
  else .ok { field := f.name, type := f.type, accessor := .ofField owner.symbol f.name f.type.sort }

/-- Base of a type: the declared one; else `Object`, which value types do not derive from. -/
def baseOf (d : TypeDef) : Option TypeRef :=
  match d.base with
  | some b => some b
  | none => if d.isValueType then none else some .object

/-- Sentence of a named type from its definition. -/
def ofDef (exceptionBase : Option TypeRef) (type : TypeRef) (d : TypeDef) :
    Except Error Sentence :=
  if exceptionBase = some type then
    .ok (reference type .exceptionBase (some (d.base.getD .object)) [])
  else do
    let fields ← d.instanceFields.mapM (fieldAccessor type)
    return reference type (.composite fields d.isValueType) (baseOf d) (fields.map (·.type))

/-- Sentence of a type. Only the names of other types are used, so types that refer to each other
can be encoded in any order. -/
def encode (exceptionBase : Option TypeRef) (p : Program) : TypeRef → Except Error Sentence
  | .bool => .ok (scalar .bool .bool)
  | .int32 => .ok (scalar .int32 .int)
  | .float64 => .ok (scalar .float64 .real)
  | .string => .ok (reference .string .str (some .object) [])
  | .object => .ok (reference .object .object none [])
  | .void => .error (.notEncodable .void)
  | .array e =>
    if e.isVoid then .error (.notEncodable (.array e))
    else .ok (reference (.array e) (.array e) (some .object) [e])
  | .named s n as =>
    match p.typeDef? (.named s n as) with
    | none => .error (.unknownType (.named s n as))
    | some d => ofDef exceptionBase (.named s n as) d

end Sentence

end Pathwise
