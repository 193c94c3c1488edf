/-!
# Pathwise.Sexp

S-expressions, the terms and commands of the constraint language. Everything the
library writes for a solver is built as a tree and rendered by `Sexp.render`;
`Pathwise.Sexp.Parser` reads such texts back.
-/

namespace Pathwise

/-- An atom, a string literal (without its quotes), or a list. -/
inductive Sexp where
  | atom (text : String)
  | quoted (text : String)
  | list (items : List Sexp)
deriving Inhabited

namespace Sexp

mutual

/-- Equality of terms is decided by recursion. -/
def decEq : (a b : Sexp) → Decidable (a = b)
  | .atom s, .atom t =>
    if h : s = t then isTrue (congrArg _ h) else isFalse fun e => h (by injection e)
  | .quoted s, .quoted t =>
    if h : s = t then isTrue (congrArg _ h) else isFalse fun e => h (by injection e)
  | .list as, .list bs =>
    match decEqList as bs with
    | isTrue h => isTrue (congrArg _ h)
    | isFalse h => isFalse fun e => h (by injection e)
  | .atom _, .quoted _ => isFalse nofun
  | .atom _, .list _ => isFalse nofun
  | .quoted _, .atom _ => isFalse nofun
  | .quoted _, .list _ => isFalse nofun
  | .list _, .atom _ => isFalse nofun
  | .list _, .quoted _ => isFalse nofun

/-- Equality of lists of terms. -/
def decEqList : (as bs : List Sexp) → Decidable (as = bs)
  | [], [] => isTrue rfl
  | a :: as, b :: bs =>
    match decEq a b with
    | isTrue h =>
      match decEqList as bs with
      | isTrue h' => isTrue (by rw [h, h'])
      | isFalse h' => isFalse fun e => h' (by injection e)
    | isFalse h => isFalse fun e => h (by injection e)
  | [], _ :: _ => isFalse nofun
  | _ :: _, [] => isFalse nofun

end

instance : DecidableEq Sexp := decEq

/-! ## Parts -/

/-- The text of an atom. -/
def atom? : Sexp → Option String
  | .atom t => some t
  | _ => none

/-- The items of a list. -/
def items? : Sexp → Option (List Sexp)
  | .list items => some items
  | _ => none

/-- The atom at the head of a list, for instance `seq.unit` in `(seq.unit 1)`. -/
def head? : Sexp → Option String
  | .list (.atom t :: _) => some t
  | _ => none

/-! ## Writing -/

/-- The characters of a string literal: a quote is written twice. -/
def quoteChars : List Char → List Char
  | [] => []
  | c :: cs => if c = '"' then '"' :: '"' :: quoteChars cs else c :: quoteChars cs

/-- A text as a string literal. -/
def quote (text : String) : String := "\"" ++ String.ofList (quoteChars text.toList) ++ "\""

mutual

/-- Text of an expression; one space divides the items of a list. -/
def render : Sexp → String
  | .atom t => t
  | .quoted t => quote t
  | .list [] => "()"
  | .list (e :: es) => "(" ++ e.render ++ renderMore es ++ ")"

/-- The items after the first, each behind a space. -/
def renderMore : List Sexp → String
  | [] => ""
  | e :: es => " " ++ e.render ++ renderMore es

end

instance : ToString Sexp := ⟨render⟩

/-! ## Building -/

/-- A function symbol applied to its arguments. -/
def app (f : String) (args : List Sexp) : Sexp := .list (.atom f :: args)

/-- `(= a b)` -/
def eq (a b : Sexp) : Sexp := app "=" [a, b]

/-- `(not a)` -/
def not (a : Sexp) : Sexp := app "not" [a]

/-- `(and a b)` -/
def and (a b : Sexp) : Sexp := app "and" [a, b]

/-- `(ite c a b)` -/
def ite (c a b : Sexp) : Sexp := app "ite" [c, a, b]

/-- A natural number. -/
def nat (n : Nat) : Sexp := .atom (toString n)

/-- An integer; a negative one is the negation of its magnitude. -/
def int (i : Int) : Sexp := if i < 0 then app "-" [nat i.natAbs] else nat i.toNat

/-! ## Renaming -/

mutual

/-- Replace every atom; string literals stay as they are. -/
def mapAtoms (f : String → String) : Sexp → Sexp
  | .atom t => .atom (f t)
  | .quoted t => .quoted t
  | .list items => .list (mapAtomsList f items)

/-- Rename the atoms of all terms of a list. -/
def mapAtomsList (f : String → String) : List Sexp → List Sexp
  | [] => []
  | e :: es => e.mapAtoms f :: mapAtomsList f es

end

end Sexp

end Pathwise
