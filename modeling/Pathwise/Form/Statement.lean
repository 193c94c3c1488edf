import Pathwise.Form.Line
import Pathwise.MethodGraph

/-!
# Pathwise.Form.Statement

What the instructions of a method become: declarations of constants, and
assertions about them. An assertion can have an effect that cannot be written as
a term, such as a call, which the path engine acts on.
-/

namespace Pathwise

/-- Effect of an assertion beyond its terms. Symbols are those of the method itself. -/
inductive Effect where
  | none
  /-- `target` takes the value of `source`. -/
  | assign (source : Sexp) (target : String)
  | call (callee : MethodRef) (arguments : List Sexp) (target : Option String)
  /-- A new reference that no constructor initialises. -/
  | allocate (type : TypeRef) (target : String)
  /-- A new object initialised by `constructor`, whose first argument is the object. -/
  | construct (type : TypeRef) (target : String) (constructor : MethodRef) (arguments : List Sexp)
  | ret (value : Option Sexp)
  | throw (value : Sexp)
deriving DecidableEq, Inhabited

/-- The method that an effect runs. -/
def Effect.callee? : Effect → Option MethodRef
  | .call callee .. => some callee
  | .construct _ _ constructor _ => some constructor
  | _ => Option.none

/-- Content of a statement. -/
inductive Statement.Body where
  /-- The constant of a slot. -/
  | declaration (slot : Slot) (symbol : String) (sort : Sexp)
  | assertion (terms : List Sexp) (effect : Effect)
  /-- The taken side of a conditional branch. -/
  | branch (terms : List Sexp) (effect : Effect)
deriving DecidableEq, Inhabited

/-- A statement that stands in no block yet. -/
structure Statement where
  /-- Offset of the instruction it comes from. -/
  offset : Nat
  body : Statement.Body
  /-- Fault group it belongs to; 0 unless it is a guard. -/
  group : Nat
  /-- Types whose sentences it needs. -/
  types : List TypeRef
  /-- Methods it runs. -/
  methods : List MethodRef
deriving DecidableEq, Inhabited

namespace Statement

/-- The declaration of a slot. -/
def declaration (offset : Nat) (slot : Slot) (type : TypeRef) (symbol : String) (sort : Sexp) :
    Statement :=
  { offset, body := .declaration slot symbol sort, group := 0, types := [type], methods := [] }

/-- An assertion without an effect. -/
def assertion (offset : Nat) (terms : List Sexp) : Statement :=
  { offset, body := .assertion terms .none, group := 0, types := [], methods := [] }

/-- The condition under which a branch is taken. -/
def branch (offset : Nat) (condition : Sexp) : Statement :=
  { offset, body := .branch [condition] .none, group := 0, types := [], methods := [] }

/-- Give an assertion an effect. A declaration has none. -/
def withEffect (s : Statement) (effect : Effect) : Statement :=
  match s.body with
  | .declaration .. => s
  | .assertion terms _ =>
    { s with body := .assertion terms effect, methods := s.methods ++ effect.callee?.toList }
  | .branch terms _ =>
    { s with body := .branch terms effect, methods := s.methods ++ effect.callee?.toList }

/-- The same statement in a fault group. -/
def inGroup (s : Statement) (group : Nat) : Statement := { s with group }

/-- Note that a type is needed. -/
def mentioning (s : Statement) (type : TypeRef) : Statement :=
  if type ∈ s.types then s else { s with types := s.types ++ [type] }

/-- The slot that a declaration introduces. -/
def slot? (s : Statement) : Option Slot :=
  match s.body with
  | .declaration slot .. => some slot
  | _ => none

/-- The constant that a declaration introduces. -/
def symbol? (s : Statement) : Option String :=
  match s.body with
  | .declaration _ symbol _ => some symbol
  | _ => none

/-- Whether a slot is declared. -/
def isDeclaration (s : Statement) : Bool := s.slot?.isSome

/-- Whether it is the condition of a branch. -/
def isBranch (s : Statement) : Bool :=
  match s.body with
  | .branch .. => true
  | _ => false

/-- Whether terms are asserted. -/
def isAssertion (s : Statement) : Bool :=
  match s.body with
  | .assertion .. => true
  | _ => false

/-- What a path does beyond asserting; nothing for declarations. -/
def effect (s : Statement) : Effect :=
  match s.body with
  | .declaration .. => .none
  | .assertion _ effect | .branch _ effect => effect

/-- The lines of a statement: one for a declaration, one for each asserted term. -/
def lines (s : Statement) : List Line :=
  match s.body with
  | .declaration _ symbol sort => [.declare symbol sort]
  | .assertion terms _ | .branch terms _ => terms.map .assert

end Statement

end Pathwise
