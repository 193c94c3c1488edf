import Pathwise.Coverage.Context
import Pathwise.Resolution.Engine

/-!
# Pathwise.Coverage.Render

The lines of all paths of a form, with the methods it calls inlined. A call of a
resolved method multiplies a path by the paths of that method: the parameters are
declared and bound to the arguments, the callee's lines follow, and if it
returned, its value is bound to the target. A path whose callee did not return
ends there.

A call stays unconstrained if the form of the callee is a stand-in, or if as many
invocations of it are open as the options allow.
-/

namespace Pathwise

/-- A path under construction. -/
structure PathState where
  lines : Array Line := #[]
  /-- Set once the path has left its method, possibly inside a callee. -/
  exit : Option ExitKind := none
  returnValue : Option Sexp := none
  flows : Flows := .empty
deriving DecidableEq, Inhabited

namespace PathState

/-- Add a line; a declaration that is there already is not repeated. -/
def push (s : PathState) (l : Line) : PathState :=
  if l.isDeclaration && s.lines.contains l then s else { s with lines := s.lines.push l }

/-- Add several lines in order. -/
def pushAll (s : PathState) (ls : List Line) : PathState := ls.foldl push s

/-- Add the lines and the flows of a callee's path. -/
def append (s : PathState) (path : PathState) : PathState :=
  let s := s.pushAll path.lines.toList
  { s with flows := s.flows.merge path.flows }

end PathState

/-- The paths of a callee at its call site. -/
structure Inlined where
  form : Form
  site : Site
  paths : List PathState

/-- A computation of a run: it can fail, and what it did to the context stays also then. -/
abbrev Run := ExceptT CoverageError (StateM Context)

namespace Run

/-- Run an operation of the context. -/
def withContext {α : Type} (f : Context → α × Context) : Run α := modifyGet f

/-- A result that does not depend on the context. -/
def ofExcept {α : Type} : Except CoverageError α → Run α
  | .ok a => pure a
  | .error err => throw err

/-- Fail if there are more paths than the options allow. -/
def checkLimit (e : Engine) (m : MethodRef) (count : Nat) : Run Unit :=
  if e.options.maxPaths < count then throw (.pathLimit m e.options.maxPaths) else pure ()

/-- Record a flow on a path. -/
def record (site : Site) (stack : List Site) (offset : Nat) (source : Sexp) (target : String)
    (s : PathState) : Run PathState := do
  let f ← withContext (·.flow { offset, source := source.render, target, site, stack })
  return { s with flows := s.flows.record f }

/-- That a new object has the pointer the context gives it. -/
def pointerTerm (e : Engine) (site : Site) (offset : Nat) (type : TypeRef) (target : String) :
    Run Sexp := do
  match e.types.find? type with
  | none => throw (.unresolvedType type)
  | some s =>
    let pointer ← withContext (·.pointer site offset type)
    match s.apply (.hasPointer (.atom target) pointer) with
    | .ok term => pure term
    | .error cause => throw (.unsupportedOperation cause)

/-- Bind the parameters of a callee to the arguments. -/
def bindParameters (r : Renaming) (site : Site) (stack : List Site) (offset : Nat) :
    List (Form.Parameter × Sexp) → PathState → Run PathState
  | [], s => pure s
  | (p, argument) :: rest, s => do
    let parameter := r.symbol p.symbol
    let s := s.push (.assert (.eq (.atom parameter) argument))
    let s ← record site stack offset argument parameter s
    bindParameters r site stack offset rest s

/-- Bind the value of a callee's path to the target of the call. -/
def bindResult (site : Site) (stack : List Site) (offset : Nat) :
    (target : Option String) → (value : Option Sexp) → PathState → Run PathState
  | some target, some value, s =>
    record site stack offset value target (s.push (.assert (.eq (.atom target) value)))
  | _, _, s => pure s

/-- Continue a path with one path of a callee. -/
def splice (site : Site) (stack : List Site) (offset : Nat) (inlined : Inlined)
    (arguments : List Sexp) (target : Option String) (s : PathState) (path : PathState) :
    Run PathState := do
  let r := Renaming.of inlined.form inlined.site
  let parameters := inlined.form.parameters
  let s := s.pushAll (parameters.map fun p => .declare (r.symbol p.symbol) p.sort)
  let s ← bindParameters r site stack offset (parameters.zip arguments) s
  let s := s.append path
  match path.exit with
  | none | some .returned => bindResult site stack offset target path.returnValue s
  | some exit => pure { s with exit := some exit }

/-- What the effect of a statement asks for besides its lines. -/
structure Demand where
  /-- Type and constant of a new object. -/
  allocated : Option (TypeRef × String) := none
  /-- Method to run, its arguments and the constant for its result. -/
  call : Option (MethodRef × List Sexp × Option String) := none

/-- The demand of an effect, renamed. -/
def demand (r : Renaming) : Effect → Demand
  | .allocate type target => { allocated := some (type, r.symbol target) }
  | .construct type target constructor arguments =>
    { allocated := some (type, r.symbol target)
      call := some (constructor, arguments.map r.term, none) }
  | .call callee arguments target =>
    { call := some (callee, arguments.map r.term, target.map r.symbol) }
  | _ => {}

/-- What an effect does to a path that reaches it. -/
def perform (r : Renaming) (site : Site) (stack : List Site) (offset : Nat) (s : PathState) :
    Effect → Run PathState
  | .assign source target => record site stack offset (r.term source) (r.symbol target) s
  | .ret value => pure { s with returnValue := value.map r.term }
  | _ => pure s

/-- Continue each path that has not left its method; the number of paths is limited. -/
def advance (e : Engine) (m : MethodRef) (next : PathState → Run (List PathState)) :
    (count : Nat) → List PathState → Run (List PathState)
  | _, [] => pure []
  | count, s :: rest => do
    if s.exit.isSome then
      return s :: (← advance e m next (count + 1) rest)
    else
      let continued ← next s
      let count := count + continued.length
      checkLimit e m count
      return continued ++ (← advance e m next count rest)

/-- How a callee is inlined: its paths at a call site, or nothing if the call stays
unconstrained. -/
abbrev Inliner := (offset : Nat) → (callee : MethodRef) → Run (Option Inlined)

/-- Continue paths with one statement. -/
def applyStatement (e : Engine) (form : Form) (site : Site) (stack : List Site)
    (inline : Inliner) (r : Renaming) (p : Placed) (states : List PathState) :
    Run (List PathState) := do
  let lines := p.statement.lines.map r.line
  let offset := p.statement.offset
  let effect := p.statement.effect
  let d := demand r effect
  let extra ← match d.allocated with
    | some (type, target) => pure [Line.assert (← pointerTerm e site offset type target)]
    | none => pure []
  let inlined ← match d.call with
    | some (callee, _, _) => inline offset callee
    | none => pure none
  advance e form.method (fun s => do
    let s ← perform r site stack offset ((s.pushAll lines).pushAll extra) effect
    match d.call, inlined with
    | some (_, arguments, target), some inlined =>
      inlined.paths.mapM (splice site stack offset inlined arguments target s)
    | _, _ => pure [s]) 0 states

/-- Continue paths with several statements. -/
def applyStatements (e : Engine) (form : Form) (site : Site) (stack : List Site)
    (inline : Inliner) (r : Renaming) : List Placed → List PathState → Run (List PathState)
  | [], states => pure states
  | p :: rest, states => do
    let states ← applyStatement e form site stack inline r p states
    applyStatements e form site stack inline r rest states

/-- What holds on leaving a block along an edge. -/
def stepStatements (form : Form) (step : PathStep) : Except CoverageError (List Placed) :=
  match form.block? step.block with
  | none => .error (.missingBlock form.method step.block)
  | some b =>
    match b.successors[step.edge]? with
    | none => .error (.missingSuccessor step.block step.edge)
    | some edge => .ok (b.declarations ++ b.assertions ++ b.guards edge.condition)

/-- Continue paths along the steps of a skeleton. -/
def applySteps (e : Engine) (form : Form) (site : Site) (stack : List Site) (inline : Inliner)
    (r : Renaming) : List PathStep → List PathState → Run (List PathState)
  | [], states => pure states
  | step :: rest, states => do
    let statements ← ofExcept (stepStatements form step)
    let states ← applyStatements e form site stack inline r statements states
    applySteps e form site stack inline r rest states

/-- The paths that follow one skeleton. -/
def renderPath (e : Engine) (form : Form) (site : Site) (stack : List Site) (inline : Inliner)
    (skeleton : Skeleton) : Run (List PathState) := do
  let states ← applySteps e form site stack inline (.of form site) skeleton.steps [{}]
  return states.map fun s => { s with exit := some (s.exit.getD skeleton.exit) }

/-- The paths that follow any of several skeletons; the number of paths is limited. -/
def renderAll (e : Engine) (form : Form) (site : Site) (stack : List Site) (inline : Inliner) :
    (count : Nat) → List Skeleton → Run (List PathState)
  | _, [] => pure []
  | count, skeleton :: rest => do
    let states ← renderPath e form site stack inline skeleton
    let count := count + states.length
    checkLimit e form.method count
    return states ++ (← renderAll e form site stack inline count rest)

/-- Every path of a form at a site. -/
def renderForm (e : Engine) (form : Form) (site : Site) (stack : List Site)
    (inline : Inliner) : Run (List PathState) := do
  let skeletons ← ofExcept (← withContext (·.paths form e.options.maxPaths))
  renderAll e form site stack inline 0 skeletons

/-- Inline a callee with `render`, unless its form is a stand-in or too many of its invocations are
open. -/
def inlineWith (e : Engine) (render : Form → Site → List Site → Run (List PathState))
    (site : Site) (stack : List Site) : Inliner := fun offset callee => do
  match e.form? callee with
  | none => throw (.unresolvedMethod callee)
  | some form =>
    if form.isStandIn then pure none
    else if e.options.maxRecursionDepth ≤ stack.countP (·.method = callee) then pure none
    else
      let calleeSite ← withContext (·.callSite site offset callee)
      let paths ← render form calleeSite (stack ++ [calleeSite])
      return some { form, site := calleeSite, paths }

/-- Every path of a form at a site, with callees inlined to a depth. A callee needs a form at any
depth; at the last one all callees have their invocations open and stay unconstrained. -/
def render (e : Engine) : (depth : Nat) → (form : Form) → (site : Site) → (stack : List Site) →
    Run (List PathState)
  | 0, form, site, stack =>
    renderForm e form site stack (inlineWith e (fun _ _ _ => pure []) site stack)
  | depth + 1, form, site, stack =>
    renderForm e form site stack (inlineWith e (render e depth) site stack)

end Run

/-- No more invocations than this can be open at once: of each resolved method as many as the
options allow. -/
def Engine.inliningDepth (e : Engine) : Nat := e.forms.size * e.options.maxRecursionDepth

end Pathwise
