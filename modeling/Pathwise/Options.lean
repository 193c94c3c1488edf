import Pathwise.Method

/-!
# Pathwise.Options

Settings of the resolution and of the path engine.
-/

namespace Pathwise

/-- Settings, with their defaults. -/
structure Options where
  /-- A type that is encoded by identity only. -/
  exceptionBase : Option TypeRef := none
  /-- Beginnings of method symbols, or of names of declaring types, whose methods are left out. -/
  ignorableMethods : List String := []
  /-- Whether the methods of `exceptionBase` are left out. -/
  ignoreExceptionBaseMethods : Bool := true
  /-- How many invocations of one method may be open at once. -/
  maxRecursionDepth : Nat := 2
  /-- How many paths a method may have. -/
  maxPaths : Nat := 4096
deriving DecidableEq, Inhabited

namespace Options

/-- Whether the text begins with `start`. -/
def beginsWith (start text : String) : Bool := start.toList.isPrefixOf text.toList

/-- Whether a method is left out, so that an empty form stands for it. -/
def isIgnorable (o : Options) (m : MethodRef) : Bool :=
  (o.ignoreExceptionBaseMethods && o.exceptionBase = some m.declaring) ||
    o.ignorableMethods.any fun start =>
      beginsWith start m.symbol || beginsWith start m.declaring.text

end Options

end Pathwise
