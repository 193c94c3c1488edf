import Pathwise.Form.Block

/-!
# Pathwise.Form

Forms: the encoded control-flow graph of one method. Paths from the entry to one
of the two exits are what `Pathwise.Coverage` enumerates.
-/

namespace Pathwise

/-- A parameter of a form: its constant and the name of its sort. -/
structure Form.Parameter where
  symbol : String
  sort : Sexp
deriving DecidableEq, Inhabited

/-- An encoded method. -/
structure Form where
  method : MethodRef
  blocks : List Block
  parameters : List Form.Parameter
  /-- All declarations that were encoded, also those of segments that others have replaced. -/
  declared : List Placed
  /-- Set if the form stands for a method that is not encoded. -/
  isStandIn : Bool
deriving DecidableEq, Inhabited

namespace Form

/-- The form of a method that is left out: its only path returns at once. -/
def empty (method : MethodRef) : Form :=
  { method
    blocks := [
      { id := .entry, successors := [⟨.always, .regularExit⟩] },
      { id := .regularExit, predecessors := [.entry] } ]
    parameters := []
    declared := []
    isStandIn := true }

/-- The block with an id. -/
def block? (f : Form) (id : BlockId) : Option Block := f.blocks.find? (·.id = id)

/-- All statements, block by block. -/
def statements (f : Form) : List Placed := f.blocks.flatMap Block.statements

/-- Types the statements need, in the order of their first mention. -/
def referencedTypes (f : Form) : List TypeRef :=
  (f.statements.flatMap (·.statement.types)).eraseDups

/-- Methods the assertions run, in the order of their first mention. -/
def referencedMethods (f : Form) : List MethodRef :=
  ((f.statements.filter (!·.statement.isDeclaration)).flatMap (·.statement.methods)).eraseDups

/-- A static field has one constant for all methods; any other constant belongs to one invocation
of its method. -/
def localSymbol? (s : Statement) : Option String :=
  match s.body with
  | .declaration (.staticField _) .. => none
  | .declaration _ symbol _ => some symbol
  | _ => none

/-- The constants that belong to an invocation. -/
def locals (f : Form) : List String := f.declared.filterMap (localSymbol? ·.statement)

/-- The same without repeats, in ascending order. -/
def localSymbols (f : Form) : List String :=
  f.locals.eraseDups.mergeSort fun a b => (compare a b).isLE

/-- Whether two forms are equal. The order of their blocks and of their local symbols does not
matter. -/
def same (f g : Form) : Bool :=
  f.method = g.method && f.parameters = g.parameters && f.isStandIn = g.isStandIn &&
    f.locals.all (· ∈ g.locals) && g.locals.all (· ∈ f.locals) &&
    f.blocks.length = g.blocks.length &&
    f.blocks.all (fun b => g.block? b.id = some b) && g.blocks.all fun b => f.block? b.id = some b

end Form

end Pathwise
