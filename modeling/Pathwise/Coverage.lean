import Pathwise.Coverage.Render

/-!
# Pathwise.Coverage

Path coverage: for a resolved method, one group of declarations and assertions for
each distinct path through it. A group whose assertions only begin those of
another group with the same exit is left out.
-/

namespace Pathwise

/-- What holds along one path of a method. -/
structure PathGroup where
  method : MethodRef
  site : Site
  lines : List Line
  exit : ExitKind
  returnValue : Option Sexp
  /-- The earliest constant or term the returned value comes from. -/
  returnOrigin : Option String
deriving DecidableEq, Inhabited

namespace PathGroup

/-- The group of a finished path. -/
def ofState (m : MethodRef) (site : Site) (s : PathState) : PathGroup :=
  { method := m
    site
    lines := s.lines.toList
    exit := s.exit.getD .returned
    returnValue := s.returnValue
    returnOrigin := s.returnValue.map fun v => s.flows.origin v.render }

/-- The lines that assert something. -/
def assertions (g : PathGroup) : List Line := g.lines.filter (·.isAssertion)

/-- The lines that declare a constant. -/
def declarations (g : PathGroup) : List Line := g.lines.filter (·.isDeclaration)

/-- All lines as one text. -/
def text (g : PathGroup) : String := String.intercalate "\n" (g.lines.map Line.render)

/-- Same exit, and the assertions of one begin those of the other. -/
def overlaps (exit : ExitKind) (assertions : List Line) (other : PathGroup × List Line) : Bool :=
  other.1.exit = exit && (assertions.isPrefixOf other.2 || other.2.isPrefixOf assertions)

/-- Go through groups with their assertions and keep, newest first, those that overlap with none
kept before. -/
def accept (kept : List ((PathGroup × List Line) × Nat)) :
    List ((PathGroup × List Line) × Nat) → List ((PathGroup × List Line) × Nat)
  | [] => kept
  | g :: rest =>
    if kept.any fun k => overlaps g.1.1.exit g.1.2 k.1 then accept kept rest
    else accept (g :: kept) rest

/-- Drop the groups that overlap with a kept one. Groups with more assertions are considered first,
equals in their order; what is kept stays in its order. -/
def prune (groups : List PathGroup) : List PathGroup :=
  let indexed := (groups.map fun g => (g, g.assertions)).zipIdx
  let longestFirst := indexed.mergeSort fun a b => b.1.2.length ≤ a.1.2.length
  let kept := (accept [] longestFirst).map (·.2)
  (groups.zipIdx.filter fun g => g.2 ∈ kept).map (·.1)

end PathGroup

/-- The groups of all paths of a resolved method, before any is left out, and the context after
the run. The flows of the run are forgotten whichever way it ends. -/
def Engine.renderGroups (e : Engine) (m : MethodRef) (c : Context) :
    Except CoverageError (List PathGroup) × Context :=
  match e.form? m with
  | none => (.error (.unresolvedMethod m), c)
  | some form =>
    let (root, c) := c.rootSite m
    let (rendered, c) := Id.run ((Run.render e e.inliningDepth form root [root]).run.run c)
    (rendered.map (·.map (PathGroup.ofState m root)), c.release root)

/-- The groups that cover every path of a resolved method, and the context after the run. -/
def Engine.cover (e : Engine) (m : MethodRef) (c : Context) :
    Except CoverageError (List PathGroup) × Context :=
  let (groups, c) := e.renderGroups m c
  (groups.map PathGroup.prune, c)

end Pathwise
