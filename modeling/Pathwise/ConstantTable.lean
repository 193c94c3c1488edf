import Pathwise.Sentence
import Pathwise.Sexp.Parser
import Pathwise.Value

/-!
# Pathwise.ConstantTable

Values of declared constants, read back from the model of a solver. A model gives
a constant as a term built from the constructors of its type's sentence; reading
undoes that encoding and checks that the term has the shape of the type.
-/

namespace Pathwise

/-- Sentences of the types that occur, with their tags, and the declared constants with the values
they have so far. Of several types with one tag the last one registered counts. -/
structure ConstantTable where
  sentences : Table TypeRef Sentence
  tags : Table String TypeRef
  declared : Table String TypeRef
  values : Table String Value
deriving Inhabited

namespace ConstantTable

/-- Why a constant has no value. -/
inductive Error where
  | malformed (cause : Sexp.ParseError)
  | undeclared (name : String)
  | unbound (name : String)
  | unregistered (type : TypeRef)
  | mismatch (type : TypeRef) (term : Sexp)
deriving DecidableEq

/-- Why a constant has no value. -/
def Error.message : Error → String
  | .malformed cause => "malformed model text: " ++ cause.message
  | .undeclared name => "constant '" ++ name ++ "' was never declared"
  | .unbound name => "constant '" ++ name ++ "' has no bound value"
  | .unregistered type => "no sentence registered for type " ++ type.text
  | .mismatch type term => "value '" ++ term.render ++ "' does not fit type " ++ type.text

/-- A table that knows nothing. -/
def empty : ConstantTable := { sentences := ∅, tags := ∅, declared := ∅, values := ∅ }

/-- Enter a sentence, under its type and its tag. -/
def register (t : ConstantTable) (s : Sentence) : ConstantTable :=
  { t with tags := t.tags.set s.tag s.type, sentences := t.sentences.set s.type s }

/-- Enter a constant with its type. -/
def declare (t : ConstantTable) (name : String) (type : TypeRef) : ConstantTable :=
  { t with declared := t.declared.set name type }

/-- The value that a constant is bound to. -/
def value? (t : ConstantTable) (name : String) : Option Value := t.values.find? name

/-! ## Numbers -/

/-- An integer that fits 64 bits, or a mismatch at `e`. -/
def int64 (type : TypeRef) (e : Sexp) : Option Int → Except Error Int
  | some i => if Number.IsInt64 i then .ok i else .error (.mismatch type e)
  | none => .error (.mismatch type e)

/-- Read an integer. A number below a minus sign is read in 128 bits: it may be one greater than
the greatest 64-bit integer. -/
def readInt (type : TypeRef) : Sexp → Except Error Int
  | .atom a => int64 type (.atom a) (Number.readInt a.toList)
  | .list [.atom op, .atom a] =>
    let e := Sexp.list [.atom op, .atom a]
    if op = "-" then int64 type e ((Number.readWord 128 a.toList).map fun w => (-w).toInt)
    else .error (.mismatch type e)
  | .list [.atom op, inner] =>
    let e := Sexp.list [.atom op, inner]
    if op = "-" then do int64 type e (some (- (← readInt type inner)))
    else .error (.mismatch type e)
  | e => .error (.mismatch type e)

/-- Read a real: a decimal, a negation or a quotient. -/
def readReal (type : TypeRef) : Sexp → Except Error Number.Double
  | .atom a =>
    match Number.Double.read a.toList with
    | some x => .ok x
    | none => .error (.mismatch type (.atom a))
  | .list [.atom op, x] =>
    if op = "-" then do return (← readReal type x).neg
    else .error (.mismatch type (.list [.atom op, x]))
  | .list [.atom op, x, y] =>
    if op = "/" then do
      let x ← readReal type x
      let y ← readReal type y
      return x.div y
    else .error (.mismatch type (.list [.atom op, x, y]))
  | e => .error (.mismatch type e)

/-! ## Terms -/

/-- Type named by a tag, or else the static type. -/
def runtimeType (t : ConstantTable) (type : TypeRef) (tag : Sexp) : TypeRef :=
  ((tag.atom?).bind t.tags.find?).getD type

/-- Read a value from a term that is no list: a truth value, a number, or the null of an object
type. -/
def readLeaf (t : ConstantTable) (type : TypeRef) (e : Sexp) : Except Error Value :=
  match type with
  | .bool =>
    if e = .atom "true" then .ok (.bool true)
    else if e = .atom "false" then .ok (.bool false)
    else .error (.mismatch type e)
  | .int32 => do return .int (← readInt type e)
  | .float64 => do return .real (← readReal type e)
  | .array _ | .void => .error (.mismatch type e)
  | _ =>
    match t.sentences.find? type with
    | none => .error (.unregistered type)
    | some s => if s.null? = some e then .ok (.null type) else .error (.mismatch type e)

mutual

/-- Read a value of a type. -/
def readValue (t : ConstantTable) (type : TypeRef) : Sexp → Except Error Value
  | .list items =>
    match type with
    | .array element => readArray t element items
    | .builtin .string | .builtin .object | .named .. =>
      match t.sentences.find? type with
      | none => .error (.unregistered type)
      | some s => readRecord t type s items
    | _ => readLeaf t type (.list items)
  | e => readLeaf t type e

/-- Read an array: null, or the shared constructor applied to pointer, tag and contents. -/
def readArray (t : ConstantTable) (element : TypeRef) : List Sexp → Except Error Value
  | .atom head :: first :: rest =>
    if head = "as" ∧ first = .atom SeqArray.null then .ok (.null (.array element))
    else
      match rest with
      | [tag, contents] =>
        if head = SeqArray.ctor then do
          let pointer ← readInt (.array element) first
          let elements ← readSequence t element contents
          return .array (.array element) pointer elements
        else .error (.mismatch (.array element) (.list [.atom head, first, tag, contents]))
      | rest => .error (.mismatch (.array element) (.list (.atom head :: first :: rest)))
  | items => .error (.mismatch (.array element) (.list items))

/-- Read the elements of a sequence: empty, one element, or a concatenation. -/
def readSequence (t : ConstantTable) (element : TypeRef) : Sexp → Except Error (List Value)
  | .list (.atom head :: rest) =>
    let e := Sexp.list (.atom head :: rest)
    if head = "seq.++" then readParts t element rest
    else if head = "as" then
      if rest.head? = some (.atom "seq.empty") then .ok [] else .error (.mismatch element e)
    else if head = "seq.unit" then
      match rest with
      | [x] => do return [← readValue t element x]
      | _ => .error (.mismatch element e)
    else .error (.mismatch element e)
  | e => .error (.mismatch element e)

/-- Read sequences and append them. -/
def readParts (t : ConstantTable) (element : TypeRef) : List Sexp → Except Error (List Value)
  | [] => .ok []
  | part :: parts => do
    let first ← readSequence t element part
    let rest ← readParts t element parts
    return first ++ rest

/-- Read an object: the constructor of its sentence applied to pointer, tag and fields. -/
def readRecord (t : ConstantTable) (type : TypeRef) (s : Sentence) :
    List Sexp → Except Error Value
  | .atom head :: pointer :: tag :: fields =>
    let e := Sexp.list (.atom head :: pointer :: tag :: fields)
    match s.constructor? with
    | none => .error (.mismatch type e)
    | some c =>
      if head = c.name ∧ fields.length + 2 = c.accessors.length then do
        let pointer ← readInt type pointer
        let fields ← readFields t type s.shape fields
        return .record type (t.runtimeType type tag) pointer fields
      else .error (.mismatch type e)
  | items => .error (.mismatch type (.list items))

/-- Read the fields of an object of a shape. -/
def readFields (t : ConstantTable) (type : TypeRef) (shape : Shape) :
    List Sexp → Except Error (List (String × Value))
  | [] => .ok []
  | e :: es =>
    match shape with
    | .str =>
      match e with
      | .quoted text => .ok [("value", .text text)]
      | e => .error (.mismatch type e)
    | .composite (f :: fs) isValueType => do
      let value ← readValue t f.type e
      let rest ← readFields t type (.composite fs isValueType) es
      return (f.field, value) :: rest
    | _ => .ok []

end

/-- Read the text that a model gives for a declared constant and keep its value. -/
def bind (t : ConstantTable) (name text : String) : Except Error (Value × ConstantTable) :=
  match t.declared.find? name with
  | none => .error (.undeclared name)
  | some type =>
    match Sexp.parse text with
    | .error cause => .error (.malformed cause)
    | .ok e => do
      let value ← t.readValue type e
      return (value, { t with values := t.values.set name value })

/-- Rebuild the value of a constant in an object model. -/
def reflect {ω σ : Type} (t : ConstantTable) (model : ObjectModel ω σ) (name : String) :
    Except Error (Reflected ω σ) :=
  match t.value? name with
  | some value => .ok (value.reflect model)
  | none => .error (.unbound name)

end ConstantTable

end Pathwise
