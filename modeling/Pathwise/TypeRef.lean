/-!
# Pathwise.TypeRef

References to the types of the analysed program: the builtin types, arrays, and
named types with generic arguments. A reference is only a name; what the name
stands for is in `Pathwise.Program`.

`TypeRef.text` writes a reference the way the program spells it, for instance
`Shapes.Node<Int32,Shapes.Leaf[]>[]`, and `Pathwise.TypeRef.Parser` reads it.
-/

namespace Pathwise

/-- The types every program has. -/
inductive Builtin where
  | bool
  | int32
  | float64
  | string
  | object
  | void
deriving DecidableEq, Ord, Inhabited

namespace Builtin

/-- The name of a builtin type. -/
def name : Builtin → String
  | .bool => "Bool"
  | .int32 => "Int32"
  | .float64 => "Float64"
  | .string => "String"
  | .object => "Object"
  | .void => "Void"

/-- All builtin types. -/
def all : List Builtin := [.bool, .int32, .float64, .string, .object, .void]

/-- The builtin type spelled `text`. -/
def ofName? (text : String) : Option Builtin := all.find? (·.name = text)

theorem ofName?_name (b : Builtin) : ofName? b.name = some b := by
  cases b <;> decide

end Builtin

/-- A type as the program refers to it. -/
inductive TypeRef where
  | builtin (kind : Builtin)
  /-- One-dimensional array. -/
  | array (element : TypeRef)
  /-- A type the program defines, with its generic arguments. -/
  | named (space : String) (name : String) (arguments : List TypeRef)
deriving Inhabited

namespace TypeRef

@[match_pattern] abbrev bool : TypeRef := .builtin .bool
@[match_pattern] abbrev int32 : TypeRef := .builtin .int32
@[match_pattern] abbrev float64 : TypeRef := .builtin .float64
@[match_pattern] abbrev string : TypeRef := .builtin .string
@[match_pattern] abbrev object : TypeRef := .builtin .object
@[match_pattern] abbrev void : TypeRef := .builtin .void

/-! ## Equality -/

mutual

/-- Equality of types is decided by recursion. -/
def decEq : (a b : TypeRef) → Decidable (a = b)
  | .builtin a, .builtin b =>
    if h : a = b then isTrue (congrArg _ h) else isFalse fun e => h (by injection e)
  | .array a, .array b =>
    match decEq a b with
    | isTrue h => isTrue (congrArg _ h)
    | isFalse h => isFalse fun e => h (by injection e)
  | .named s n as, .named t m bs =>
    if hs : s = t then
      if hn : n = m then
        match decEqList as bs with
        | isTrue h => isTrue (by rw [hs, hn, h])
        | isFalse h => isFalse fun e => h (by injection e)
      else isFalse fun e => hn (by injection e)
    else isFalse fun e => hs (by injection e)
  | .builtin _, .array _ => isFalse nofun
  | .builtin _, .named .. => isFalse nofun
  | .array _, .builtin _ => isFalse nofun
  | .array _, .named .. => isFalse nofun
  | .named .., .builtin _ => isFalse nofun
  | .named .., .array _ => isFalse nofun

/-- Equality of lists of types. -/
def decEqList : (as bs : List TypeRef) → Decidable (as = bs)
  | [], [] => isTrue rfl
  | a :: as, b :: bs =>
    match decEq a b with
    | isTrue h =>
      match decEqList as bs with
      | isTrue h' => isTrue (by rw [h, h'])
      | isFalse h' => isFalse fun e => h' (by injection e)
    | isFalse h => isFalse fun e => h (by injection e)
  | [], _ :: _ => isFalse nofun
  | _ :: _, [] => isFalse nofun

end

instance : DecidableEq TypeRef := decEq

/-! ## Order

Builtin types first, then arrays by their elements, then named types by
namespace, name and arguments; lists of arguments are compared lexicographically. -/

mutual

/-- Builtin types come first, then arrays, then named types. -/
def cmp : TypeRef → TypeRef → Ordering
  | .builtin a, .builtin b => compare a b
  | .builtin _, _ => .lt
  | .array _, .builtin _ => .gt
  | .array a, .array b => cmp a b
  | .array _, .named .. => .lt
  | .named s n as, .named t m bs => (compare s t).then ((compare n m).then (cmpList as bs))
  | .named .., _ => .gt

/-- Lists of types are compared item by item. -/
def cmpList : List TypeRef → List TypeRef → Ordering
  | [], [] => .eq
  | [], _ :: _ => .lt
  | _ :: _, [] => .gt
  | a :: as, b :: bs => (cmp a b).then (cmpList as bs)

end

instance : Ord TypeRef := ⟨cmp⟩

/-! ## Spelling -/

/-- A name behind its namespace; a name without one stands alone. -/
def path (space name : String) : String :=
  if space = "" then name else space ++ "." ++ name

mutual

/-- The full name of a type. -/
def text : TypeRef → String
  | .builtin b => b.name
  | .array e => e.text ++ "[]"
  | .named s n [] => path s n
  | .named s n (a :: as) => path s n ++ "<" ++ a.text ++ textMore as ++ ">"

/-- The arguments after the first, each behind a comma. -/
def textMore : List TypeRef → String
  | [] => ""
  | a :: as => "," ++ a.text ++ textMore as

end
instance : ToString TypeRef := ⟨text⟩

/-! ## Parts -/

/-- The type of the elements of an array. -/
def element? : TypeRef → Option TypeRef
  | .array e => some e
  | _ => none

/-- Whether there are no values. -/
def isVoid (t : TypeRef) : Bool := t = .void

/-- The type below all array brackets. -/
def innermost : TypeRef → TypeRef
  | .array e => e.innermost
  | t => t

end TypeRef

end Pathwise
