import Pathwise.Form
import Pathwise.Sexp.Parser

/-!
# Pathwise.Coverage.Site

Invocation sites, and the renaming that keeps the constants of different
invocations apart: every local constant of a method gets the suffix of the site
it belongs to.
-/

namespace Pathwise

/-- One invocation of a method in a run: the number of the run, and the number of the call of this
method within it. -/
structure Site where
  method : MethodRef
  sequence : Nat
  callOrder : Nat
deriving DecidableEq, Inhabited

namespace Site

/-- What renamed constants end with. -/
def suffix (s : Site) : String := s!"{s.sequence}_{s.callOrder}"

/-- Written `method#suffix`. -/
def text (s : Site) : String := s.method.symbol ++ "#" ++ s.suffix

instance : ToString Site := ⟨text⟩

end Site

/-- The local constants of a method and the suffix they get. -/
structure Renaming where
  symbols : List String
  suffix : String

namespace Renaming

/-- The renaming of a form's constants for one invocation. -/
def of (f : Form) (s : Site) : Renaming := { symbols := f.locals, suffix := s.suffix }

/-- A constant of the form gets the suffix of the site; other names stay. -/
def symbol (r : Renaming) (name : String) : String :=
  if name ∈ r.symbols then name ++ "!" ++ r.suffix else name

/-- A term with its constants renamed. -/
def term (r : Renaming) (e : Sexp) : Sexp := e.mapAtoms r.symbol

/-- A line with its constants renamed. -/
def line (r : Renaming) (l : Line) : Line := l.rename r.symbol

/-! ## Renaming in texts -/

/-- A complete token, given in reverse. -/
def flush (r : Renaming) (token : List Char) : List Char :=
  if token = [] then [] else (r.symbol (String.ofList token.reverse)).toList

mutual

/-- Rename the tokens of a text; `token` is the one being read, in reverse. -/
def scan (r : Renaming) (token : List Char) : List Char → List Char
  | [] => r.flush token
  | c :: cs =>
    if c = '"' then r.flush token ++ '"' :: r.scanQuoted cs
    else if Sexp.isAtomChar c then r.scan (c :: token) cs
    else r.flush token ++ c :: r.scan [] cs

/-- Copy a string literal behind its opening quote. Two quotes do not end it. -/
def scanQuoted (r : Renaming) : List Char → List Char
  | [] => []
  | '"' :: '"' :: cs => '"' :: '"' :: r.scanQuoted cs
  | c :: cs => if c = '"' then '"' :: r.scan [] cs else c :: r.scanQuoted cs

end

/-- Rename every whole token of a text. String literals are copied. -/
def text (r : Renaming) (text : String) : String := String.ofList (r.scan [] text.toList)

end Renaming

end Pathwise
