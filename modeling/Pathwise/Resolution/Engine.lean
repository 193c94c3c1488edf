import Pathwise.Resolution.Handler
import Pathwise.Resolution.Registry
import Pathwise.Resolution.Repository

/-!
# Pathwise.Resolution.Engine

Resolution: completing the references of methods. To resolve a method is to encode
it, which mentions types and runs methods, to resolve those, and so on. A
work-list of pending references with a set of those already seen ends on any
recursion among types and methods.

What a request builds is staged, and goes into the repositories only when the
whole request has succeeded.
-/

namespace Pathwise

/-- Why a reference could not be resolved. -/
inductive ResolutionError where
  | unresolvedType (type : TypeRef)
  | unresolvedMethod (method : MethodRef)
  | lowering (cause : LoweringError)
  /-- A handler failed on a reference, with a text of its own. -/
  | handler (reference : String) (text : String)
deriving DecidableEq

/-- Why a request failed. -/
def ResolutionError.message : ResolutionError → String
  | .unresolvedType t => "no encoding found for type " ++ t.text
  | .unresolvedMethod m => "no form found for method " ++ m.text
  | .lowering cause => cause.message
  | .handler reference _ => "handler failed to resolve " ++ reference

/-- How a request was satisfied. -/
inductive Resolution (α : Type) where
  /-- It was in the repository before. -/
  | cached (value : α)
  /-- Built by the usual rules. -/
  | constructed (value : α)
  /-- Supplied by a handler. -/
  | handled (value : α)
deriving DecidableEq

namespace Resolution

variable {α : Type}

/-- The result, whichever way it was found. -/
def get : Resolution α → α
  | .cached a | .constructed a | .handled a => a

/-- Whether the result was stored before. -/
def isCached : Resolution α → Bool
  | .cached _ => true
  | _ => false

end Resolution

/-- Something a request still has to resolve. -/
inductive PendingRef where
  | type (type : TypeRef)
  | method (method : MethodRef)
deriving DecidableEq

/-- A program under analysis with everything resolved so far. -/
structure Engine where
  program : Program
  options : Options
  types : TypeRepository
  forms : FormRepository
  handlers : Registry
deriving Inhabited

/-- What one request has built, each with whether a handler supplied it. -/
structure Staging where
  sentences : Table TypeRef (Sentence × Bool)
  forms : Table MethodRef (Form × Bool)

/-- The handlers of one request. -/
abbrev EngineScope := Scope TypeHandler MethodHandler

namespace Engine

/-- An engine that has resolved nothing. -/
def new (program : Program) (options : Options) : Engine :=
  { program, options, types := .empty, forms := .empty, handlers := .empty }

/-- The stored form of a method. -/
def form? (e : Engine) (m : MethodRef) : Option Form := e.forms.find? m

/-- The declarations of every resolved type. -/
def declarations (e : Engine) : List Sexp := e.types.declarations

/-- Types a form refers to that have no sentence yet. -/
def unknownTypes (e : Engine) (f : Form) : List TypeRef :=
  f.referencedTypes.filter (!e.types.contains ·)

/-- Methods a form runs that have no form yet. -/
def unknownMethods (e : Engine) (f : Form) : List MethodRef :=
  f.referencedMethods.filter (!e.forms.contains ·)

end Engine

namespace Staging

/-- Nothing has been staged. -/
def empty : Staging := { sentences := ∅, forms := ∅ }

/-- Whether a type has a sentence, staged or stored. -/
def hasType (s : Staging) (e : Engine) (t : TypeRef) : Bool :=
  s.sentences.contains t || e.types.contains t

/-- Look a sentence up, the staged ones first. -/
def lookup (s : Staging) (e : Engine) : SentenceLookup := fun t =>
  match s.sentences.find? t with
  | some (sentence, _) => .ok sentence
  | none => e.types.lookup t

/-- Stage a sentence for a type. -/
def addSentence (s : Staging) (t : TypeRef) (sentence : Sentence) (handled : Bool) : Staging :=
  { s with sentences := s.sentences.set t (sentence, handled) }

/-- Stage a form for a method. -/
def addForm (s : Staging) (m : MethodRef) (form : Form) (handled : Bool) : Staging :=
  { s with forms := s.forms.set m (form, handled) }

/-- Move everything staged to the repositories, in the order in which it was built. -/
def commit (s : Staging) (e : Engine) : Engine :=
  { e with
    types := s.sentences.entries.foldr (fun (_, sentence, _) types => types.insert sentence) e.types
    forms := s.forms.entries.foldr (fun (m, form, _) forms => forms.insert m form) e.forms }

end Staging

namespace Engine

/-- Ask handlers in turn; the first that does not pass decides. -/
def ask {η α : Type} (answer : η → Except String (Option α)) (reference : String) :
    List η → Except ResolutionError (Option α)
  | [] => .ok none
  | h :: hs =>
    match answer h with
    | .ok (some a) => .ok (some a)
    | .ok none => ask answer reference hs
    | .error text => .error (.handler reference text)

/-! ## Types -/

/-- The sentence of a type, and whether a handler supplied it. -/
def constructSentence (e : Engine) (handlers : List TypeHandler) (t : TypeRef) :
    Except ResolutionError (Sentence × Bool) := do
  match ← ask (·.answer e.options.exceptionBase t) t.text handlers with
  | some s => return (s, true)
  | none =>
    match Sentence.encode e.options.exceptionBase e.program t with
    | .ok s => return (s, false)
    | .error (.unknownType missing) => throw (.unresolvedType missing)
    | .error cause => throw (.lowering (.sentence cause))

/-- Stage the queued types and, behind them, what their sentences depend on. Each sentence that is
built costs one unit of fuel. -/
def stageTypes (e : Engine) (handlers : List TypeHandler) :
    (fuel : Nat) → (queue : List TypeRef) → Staging → Except ResolutionError Staging
  | fuel, queue, s =>
    match queue.dropWhile (s.hasType e) with
    | [] => .ok s
    | t :: rest =>
      match fuel with
      | 0 => .error (.unresolvedType t)
      | fuel + 1 => do
        let (sentence, handled) ← e.constructSentence handlers t
        stageTypes e handlers fuel (rest ++ sentence.dependencies)
          (s.addSentence t sentence handled)

/-- No more sentences than this can be missing for a type: all of them are of types that the
program, a handler or the type itself names. -/
def typeBudget (e : Engine) (handlers : List TypeHandler) (t : TypeRef) : Nat :=
  t.chain.length + e.program.typeReach.length + (handlers.flatMap (·.reach)).length

/-- Stage a type and everything its sentence depends on. -/
def stageType (e : Engine) (handlers : List TypeHandler) (s : Staging) (t : TypeRef) :
    Except ResolutionError Staging :=
  e.stageTypes handlers (e.typeBudget handlers t) [t] s

/-- Resolve one type. -/
def resolveType (e : Engine) (t : TypeRef) :
    Except ResolutionError (Resolution Sentence) × Engine :=
  match e.types.find? t with
  | some s => (.ok (.cached s), e)
  | none =>
    let (scope, handlers) := e.handlers.enter ([] : List TypeHandler) ([] : List MethodHandler)
    let staged := e.stageType scope.typeHandlers .empty t
    let e := { e with handlers := handlers.leave scope }
    match staged with
    | .error err => (.error err, e)
    | .ok s =>
      let e := s.commit e
      match e.types.find? t, s.sentences.find? t with
      | none, _ => (.error (.unresolvedType t), e)
      | some sentence, some (_, true) => (.ok (.handled sentence), e)
      | some sentence, _ => (.ok (.constructed sentence), e)

/-! ## Methods -/

/-- The form of a method, whether a handler supplied it, and the staging with the sentences it
needed. Abstract and ignorable methods are left out. -/
def constructForm (e : Engine) (scope : EngineScope) (s : Staging) (m : MethodRef) :
    Except ResolutionError (Form × Bool × Staging) := do
  match ← ask (·.answer m) m.text scope.methodHandlers with
  | some f => return (f, true, s)
  | none =>
    if m.isAbstract || e.options.isIgnorable m then
      return (.empty m, false, s)
    match e.program.methodGraph? m with
    | none => throw (.unresolvedMethod m)
    | some g =>
      let s ← g.mentionedTypes.foldlM (e.stageType scope.typeHandlers) s
      let form ← (Form.ofGraph (s.lookup e) g).mapError .lowering
      return (form, false, s)

/-- What a new form leaves to resolve. -/
def pendingOf (e : Engine) (s : Staging) (f : Form) : List PendingRef :=
  (f.referencedTypes.filter (!s.hasType e ·)).map .type ++ (e.unknownMethods f).map .method

/-- Resolve one pending reference inside a scope: what is staged after it, and what it adds to the
work-list. A method is encoded in a scope of its own, which is left in any case. -/
def step (e : Engine) (scope : EngineScope) (s : Staging) (r : Registry) :
    PendingRef → Except ResolutionError (Staging × List PendingRef) × Registry
  | .type t => (do return (← e.stageType scope.typeHandlers s t, []), r)
  | .method m =>
    if e.forms.contains m then (.ok (s, []), r)
    else
      let (inner, r) := r.nest scope [] []
      let result := do
        let (form, handled, s) ← e.constructForm inner s m
        return (s.addForm m form handled, e.pendingOf s form)
      (result, r.leave inner)

/-- Work off the pending references, the oldest first. Each reference that was not seen before
costs one unit of fuel. -/
def drain (e : Engine) (scope : EngineScope) :
    (fuel : Nat) → (queue seen : List PendingRef) → Staging → Registry →
      Except ResolutionError Staging × Registry
  | fuel, queue, seen, s, r =>
    match queue.dropWhile (· ∈ seen) with
    | [] => (.ok s, r)
    | next :: rest =>
      match fuel with
      | 0 =>
        match next with
        | .type t => (.error (.unresolvedType t), r)
        | .method m => (.error (.unresolvedMethod m), r)
      | fuel + 1 =>
        match e.step scope s r next with
        | (.error err, r) => (.error err, r)
        | (.ok (s, more), r) => drain e scope fuel (rest ++ more) (next :: seen) s r

/-- No more references than this can come up in a request: all of them are named by the program or
by a handler. -/
def methodBudget (e : Engine) (types : List TypeHandler) (methods : List MethodHandler) : Nat :=
  1 + e.program.methodReach.length + (methods.flatMap (·.reach)).length +
    e.program.mentionReach.length + e.program.typeReach.length +
    (methods.flatMap (·.typeReach)).length + (types.flatMap (·.reach)).length

/-- Resolve a method and everything it needs. -/
def resolveMethod (e : Engine) (m : MethodRef) (types : List TypeHandler)
    (methods : List MethodHandler) : Except ResolutionError (Resolution Form) × Engine :=
  match e.forms.find? m with
  | some f => (.ok (.cached f), e)
  | none =>
    let (scope, r) := e.handlers.enter types methods
    let (staged, r) := e.drain scope (e.methodBudget types methods) [.method m] [] .empty r
    let e := { e with handlers := r.leave scope }
    match staged with
    | .error err => (.error err, e)
    | .ok s =>
      let e := s.commit e
      match e.forms.find? m, s.forms.find? m with
      | none, _ => (.error (.unresolvedMethod m), e)
      | some f, some (_, true) => (.ok (.handled f), e)
      | some f, some (_, false) => (.ok (.constructed f), e)
      | some f, none => (.ok (.cached f), e)

end Engine

end Pathwise
