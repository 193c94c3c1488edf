import Pathwise.Sentence.Declaration

/-!
# Pathwise.Form.Line

The lines that a path contributes to a problem: it declares constants and asserts
terms about them.
-/

namespace Pathwise

/-- One command of a path. -/
inductive Line where
  | declare (symbol : String) (sort : Sexp)
  | assert (term : Sexp)
deriving DecidableEq, Inhabited

namespace Line

/-- A line as a term. -/
def sexp : Line → Sexp
  | .declare symbol sort => .declareConst symbol sort
  | .assert term => .assert term

/-- The text of a line. -/
def render (l : Line) : String := l.sexp.render

/-- Whether a line declares a constant. -/
def isDeclaration : Line → Bool
  | .declare .. => true
  | .assert _ => false

/-- Whether a line asserts a term. -/
def isAssertion (l : Line) : Bool := !l.isDeclaration

/-- Rename the constants of a line. The sort of a declaration is no constant. -/
def rename (f : String → String) : Line → Line
  | .declare symbol sort => .declare (f symbol) sort
  | .assert term => .assert (term.mapAtoms f)

end Line

end Pathwise
