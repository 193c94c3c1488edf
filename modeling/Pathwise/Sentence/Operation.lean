import Pathwise.Number.Shortest
import Pathwise.Sentence

/-!
# Pathwise.Sentence.Operation

Operations on encoded values. `Sentence.apply` writes an operation as a term; which
operations a sentence has depends on its shape.

| shape            | operations                                                       |
|------------------|------------------------------------------------------------------|
| `bool`           | equality, truth, negation, literals, conversion to numbers       |
| `int`, `real`    | equality, order, arithmetic, truth, literals, conversion         |
| references       | equality, null tests, runtime type, allocation, to `Object`      |
| `str`            | also length and text literals                                    |
| `array`          | also length, elements and index tests                            |
| `composite`      | also reading and replacing fields                                |
-/

namespace Pathwise

/-- An operation on terms. -/
inductive Operation where
  | equal (a b : Sexp)
  | notEqual (a b : Sexp)
  | isNull (a : Sexp)
  | isNotNull (a : Sexp)
  /-- The test of a branch: true, not zero, or not null. -/
  | isTrue (a : Sexp)
  | isFalse (a : Sexp)
  | not (a : Sexp)
  | compare (op : Comparison) (a b : Sexp)
  | arithmetic (op : BinaryOp) (a b : Sexp)
  | length (a : Sexp)
  | elementAt (array index : Sexp)
  /-- The array with one element replaced. -/
  | storeElement (array index value : Sexp)
  | belowLowerBound (array index : Sexp)
  | aboveUpperBound (array index : Sexp)
  | inRange (array index : Sexp)
  | loadField (object : Sexp) (field : String)
  /-- The object with one field replaced. -/
  | storeField (object : Sexp) (field : String) (value : Sexp)
  | typeOf (a : Sexp)
  | instanceOf (value tag : Sexp)
  | hasExactType (value tag : Sexp)
  | convert (value : Sexp) (target : TypeRef)
  | holdsLiteral (value : Sexp) (literal : Literal)
  /-- Not null, and of exactly the sentence's type. -/
  | allocated (a : Sexp)
  | hasPointer (value : Sexp) (pointer : Nat)
deriving DecidableEq

namespace Operation

/-- The name of an operation. -/
def name : Operation → String
  | .equal .. => "equal"
  | .notEqual .. => "not-equal"
  | .isNull _ => "is-null"
  | .isNotNull _ => "is-not-null"
  | .isTrue _ => "is-true"
  | .isFalse _ => "is-false"
  | .not _ => "not"
  | .compare .. => "compare"
  | .arithmetic .. => "arithmetic"
  | .length _ => "length"
  | .elementAt .. => "element-at"
  | .storeElement .. => "store-element"
  | .belowLowerBound .. => "below-lower-bound"
  | .aboveUpperBound .. => "above-upper-bound"
  | .inRange .. => "in-range"
  | .loadField .. => "load-field"
  | .storeField .. => "store-field"
  | .typeOf _ => "type-of"
  | .instanceOf .. => "instance-of"
  | .hasExactType .. => "has-exact-type"
  | .convert .. => "convert"
  | .holdsLiteral .. => "holds-literal"
  | .allocated _ => "allocated"
  | .hasPointer .. => "has-pointer"

end Operation

/-- A sentence does not have an operation. -/
structure UnsupportedOperation where
  operation : String
  sentence : String
deriving DecidableEq

/-- Which operation a sentence lacks. -/
def UnsupportedOperation.message (e : UnsupportedOperation) : String :=
  "operation '" ++ e.operation ++ "' is not implemented for sentence '" ++ e.sentence ++ "'"

namespace Sexp

/-- A finite double; the sign stands outside, and zero has none. -/
def real (negative : Bool) (significand : Nat) (exponent : Int) : Sexp :=
  let text := Sexp.atom (Number.Double.magnitudeText significand exponent)
  if negative ∧ significand ≠ 0 then app "-" [text] else text

/-- The term for a comparison. -/
def comparison (op : Comparison) (a b : Sexp) : Sexp :=
  match op with
  | .eq => eq a b
  | .ne => (eq a b).not
  | .lt => app "<" [a, b]
  | .le => app "<=" [a, b]
  | .gt => app ">" [a, b]
  | .ge => app ">=" [a, b]

/-- The term for an operator. -/
def arithmetic (op : BinaryOp) (a b : Sexp) : Sexp :=
  match op with
  | .add => app "+" [a, b]
  | .sub => app "-" [a, b]
  | .mul => app "*" [a, b]

/-- The sequence of an array's elements. -/
def contents (elementSort array : Sexp) : Sexp :=
  .list [app "as" [.atom SeqArray.contents, app "Seq" [elementSort]], array]

end Sexp

namespace Sentence

open Sexp (app eq nat)

/-- The error for an operation that a sentence lacks. -/
def unsupported (s : Sentence) (op : Operation) : Except UnsupportedOperation Sexp :=
  .error { operation := op.name, sentence := s.name }

/-- The operations of truth values. -/
def applyBool (s : Sentence) (op : Operation) : Except UnsupportedOperation Sexp :=
  match op with
  | .equal a b | .compare .eq a b => .ok (eq a b)
  | .notEqual a b | .compare .ne a b => .ok (eq a b).not
  | .isTrue a => .ok a
  | .isFalse a | .not a => .ok a.not
  | .holdsLiteral value (.bool b) => .ok (eq value (.atom (if b then "true" else "false")))
  | .convert value .bool => .ok value
  | .convert value .int32 => .ok (.ite value (nat 1) (nat 0))
  | .convert value .float64 => .ok (.ite value (.atom "1.0") (.atom "0.0"))
  | op => s.unsupported op

/-- What integers and reals have in common, with the `zero` of the sort. -/
def applyNumeric (s : Sentence) (zero : Sexp) (op : Operation) :
    Except UnsupportedOperation Sexp :=
  match op with
  | .equal a b => .ok (eq a b)
  | .notEqual a b => .ok (eq a b).not
  | .compare c a b => .ok (.comparison c a b)
  | .arithmetic o a b => .ok (.arithmetic o a b)
  | .isTrue a => .ok (eq a zero).not
  | .isFalse a => .ok (eq a zero)
  | .convert value .bool => .ok (.ite (eq value zero) (.atom "false") (.atom "true"))
  | op => s.unsupported op

/-- The operations of integers. -/
def applyInt (s : Sentence) (op : Operation) : Except UnsupportedOperation Sexp :=
  match op with
  | .holdsLiteral value (.int i) => .ok (eq value (.int i))
  | .convert value .int32 => .ok value
  | .convert value .float64 => .ok (app "to_real" [value])
  | op => s.applyNumeric (nat 0) op

/-- The infinities and not-a-number have no literal. -/
def applyReal (s : Sentence) (op : Operation) : Except UnsupportedOperation Sexp :=
  match op with
  | .holdsLiteral value (.int i) => .ok (eq value (.real (i < 0) i.natAbs 0))
  | .holdsLiteral value (.float (.finite negative m e)) => .ok (eq value (.real negative m e))
  | .convert value .float64 => .ok value
  | .convert value .int32 => .ok (app "to_int" [value])
  | op => s.applyNumeric (.atom "0.0") op

/-- A value type has no null. -/
def isNullable (s : Sentence) : Bool :=
  match s.shape with
  | .composite _ isValueType => !isValueType
  | _ => true

/-- The operations of all references; `null` is the null reference. -/
def applyReference (s : Sentence) (null : Sexp) (op : Operation) :
    Except UnsupportedOperation Sexp :=
  let pointerOf (a : Sexp) : Sexp := app s.pointerAccessor [a]
  let typeOf (a : Sexp) : Sexp := app s.typeAccessor [a]
  match op with
  | .equal a b | .compare .eq a b => .ok (eq a b)
  | .notEqual a b | .compare .ne a b => .ok (eq a b).not
  | .isNull a | .isFalse a | .holdsLiteral a .null =>
    if s.isNullable then .ok (eq a null) else s.unsupported op
  | .isNotNull a | .isTrue a => if s.isNullable then .ok (eq a null).not else s.unsupported op
  | .typeOf a => .ok (typeOf a)
  | .instanceOf value tag =>
    .ok (.and (eq value null).not (app "subtype" [typeOf value, tag]))
  | .hasExactType value tag => .ok (eq (typeOf value) tag)
  | .allocated a => .ok (.and (eq a null).not (eq (typeOf a) (.atom s.tag)))
  | .hasPointer value pointer => .ok (eq (pointerOf value) (nat pointer))
  | .convert value target =>
    if target = .object then
      .ok (.ite (eq value null) (.atom "Object_null")
        (app "Object_ctor" [pointerOf value, typeOf value]))
    else if target = s.type then .ok value
    else s.unsupported op
  | op => s.unsupported op

/-- References other than arrays: their null is a constructor of their own. -/
def applyObject (s : Sentence) (op : Operation) : Except UnsupportedOperation Sexp :=
  s.applyReference (.atom (s.name ++ "_null")) op

/-- The operations of strings. -/
def applyStr (s : Sentence) (op : Operation) : Except UnsupportedOperation Sexp :=
  match op with
  | .length a => .ok (app "str.len" [app (s.name ++ "_value") [a]])
  | .holdsLiteral value (.str text) =>
    .ok (.and (eq value (.atom (s.name ++ "_null"))).not
      (eq (app (s.name ++ "_value") [value]) (.quoted text)))
  | op => s.applyObject op

/-- The operations of arrays, with the sort of their elements. -/
def applyArray (s : Sentence) (elementSort : Sexp) (op : Operation) :
    Except UnsupportedOperation Sexp :=
  let contents := Sexp.contents elementSort
  let length (a : Sexp) : Sexp := app "seq.len" [contents a]
  match op with
  | .length a => .ok (length a)
  | .elementAt array index => .ok (app "seq.nth" [contents array, index])
  | .storeElement array index value =>
    .ok (app SeqArray.ctor [app SeqArray.pointer [array], app SeqArray.type [array],
      app "seq.update" [contents array, index, app "seq.unit" [value]]])
  | .belowLowerBound _ index => .ok (app "<" [index, nat 0])
  | .aboveUpperBound array index => .ok (app ">=" [index, length array])
  | .inRange array index =>
    .ok (.and (app "<=" [nat 0, index]) (app "<" [index, length array]))
  | op => s.applyReference (app "as" [.atom SeqArray.null, SeqArray.sort elementSort]) op

/-- The operations of types with fields. -/
def applyComposite (s : Sentence) (fields : List FieldAccessor) (op : Operation) :
    Except UnsupportedOperation Sexp :=
  match op with
  | .loadField object field =>
    match fields.find? (·.field = field) with
    | some f => .ok (app f.accessor.name [object])
    | none => .error { operation := "load-field " ++ field, sentence := s.name }
  | .storeField object field value =>
    if fields.any (·.field = field) then
      .ok (app (s.name ++ "_ctor") (app s.pointerAccessor [object] :: app s.typeAccessor [object] ::
        fields.map fun f => if f.field = field then value else app f.accessor.name [object]))
    else .error { operation := "store-field " ++ field, sentence := s.name }
  | op => s.applyObject op

/-- Write an operation on values of this sentence. -/
def apply (s : Sentence) (op : Operation) : Except UnsupportedOperation Sexp :=
  match s.shape with
  | .bool => s.applyBool op
  | .int => s.applyInt op
  | .real => s.applyReal op
  | .str => s.applyStr op
  | .object | .exceptionBase => s.applyObject op
  | .array element => s.applyArray element.sort op
  | .composite fields _ => s.applyComposite fields op

end Sentence

end Pathwise
