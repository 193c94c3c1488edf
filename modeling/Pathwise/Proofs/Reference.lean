import Pathwise.Proofs.History
import Pathwise.Proofs.Skeleton

/-!
# Pathwise.Proofs.Reference

What a run renders, as plain functions of one path. All numbers are read from a
context that has them already: the site of a call, the pointer of a new object
and the record of a flow. Nothing is numbered on the way, no limit is checked and
no failure is passed on, so a statement maps a path to the list of paths that
continue it.

`Run.Agrees` joins the two: a computation that succeeds returns what the plain
function gives in the context it ends with, and in any later one
(`agrees_render`). Everything about the rendered paths can then be shown for the
plain functions.
-/

namespace Pathwise

open Relation (ReflTransGen)

variable {c : Context}

/-! ## reference rendering -/

namespace Reference

/-- Record a flow on a path. -/
def record (c : Context) (site : Site) (stack : List Site) (offset : Nat) (source : Sexp)
    (target : String) (s : PathState) : PathState :=
  let key : FlowKey := { offset, source := source.render, target, site, stack }
  { s with flows := s.flows.record ((c.flows.find? key).getD default) }

/-- That a new object has its pointer. -/
def pointerLines (e : Engine) (c : Context) (site : Site) (offset : Nat) (type : TypeRef)
    (target : String) : List Line :=
  match e.types.find? type with
  | none => []
  | some s =>
    let pointer := (c.allocations.find? (site, offset)).getD default
    match s.apply (.hasPointer (.atom target) pointer) with
    | .ok term => [.assert term]
    | .error _ => []

/-- Bind the parameters of a callee to the arguments. -/
def bindParameters (c : Context) (r : Renaming) (site : Site) (stack : List Site) (offset : Nat) :
    List (Form.Parameter × Sexp) → PathState → PathState
  | [], s => s
  | (p, argument) :: rest, s =>
    let parameter := r.symbol p.symbol
    let s := s.push (.assert (.eq (.atom parameter) argument))
    bindParameters c r site stack offset rest
      (record c site stack offset argument parameter s)

/-- Bind the value of a callee's path to the target of the call. -/
def bindResult (c : Context) (site : Site) (stack : List Site) (offset : Nat) :
    (target : Option String) → (value : Option Sexp) → PathState → PathState
  | some target, some value, s =>
    record c site stack offset value target (s.push (.assert (.eq (.atom target) value)))
  | _, _, s => s

/-- Declare and bind the parameters of a callee. -/
def enter (c : Context) (site : Site) (stack : List Site) (offset : Nat) (inlined : Inlined)
    (arguments : List Sexp) (s : PathState) : PathState :=
  let r := Renaming.of inlined.form inlined.site
  let parameters := inlined.form.parameters
  bindParameters c r site stack offset (parameters.zip arguments)
    (s.pushAll (parameters.map fun p => .declare (r.symbol p.symbol) p.sort))

/-- Come back from a callee along one of its paths, or leave with it. -/
def comeBack (c : Context) (site : Site) (stack : List Site) (offset : Nat)
    (target : Option String) (path : PathState) (s : PathState) : PathState :=
  match path.exit with
  | none | some .returned => bindResult c site stack offset target path.returnValue s
  | some exit => { s with exit := some exit }

/-- Continue a path with one path of a callee. -/
def splice (c : Context) (site : Site) (stack : List Site) (offset : Nat) (inlined : Inlined)
    (arguments : List Sexp) (target : Option String) (s : PathState) (path : PathState) :
    PathState :=
  comeBack c site stack offset target path
    ((enter c site stack offset inlined arguments s).append path)

/-- What an effect does to a path that reaches it. -/
def perform (c : Context) (r : Renaming) (site : Site) (stack : List Site) (offset : Nat)
    (s : PathState) : Effect → PathState
  | .assign source target => record c site stack offset (r.term source) (r.symbol target) s
  | .ret value => { s with returnValue := value.map r.term }
  | _ => s

/-- The lines that an effect adds to those of its statement. -/
def extraLines (e : Engine) (c : Context) (r : Renaming) (site : Site) (p : Placed) : List Line :=
  match (Run.demand r p.statement.effect).allocated with
  | some (type, target) => pointerLines e c site p.statement.offset type target
  | none => []

/-- A path that has reached a statement, before the method that the statement runs. -/
def reach (e : Engine) (c : Context) (site : Site) (stack : List Site) (r : Renaming)
    (p : Placed) (s : PathState) : PathState :=
  perform c r site stack p.statement.offset
    ((s.pushAll (p.statement.lines.map r.line)).pushAll (extraLines e c r site p))
    p.statement.effect

/-- The paths that continue a path with a call. -/
def afterCall (c : Context) (site : Site) (stack : List Site) (offset : Nat) (s : PathState)
    (call : Option (MethodRef × List Sexp × Option String)) (inlined : Option Inlined) :
    List PathState :=
  match call, inlined with
  | some (_, arguments, target), some inlined =>
    inlined.paths.map (splice c site stack offset inlined arguments target s)
  | _, _ => [s]

/-- How a callee is inlined. -/
abbrev Inliner := (offset : Nat) → (callee : MethodRef) → Option Inlined

/-- The paths that continue a path with one statement. A path that has left its method stays. -/
def statement (e : Engine) (c : Context) (site : Site) (stack : List Site) (inline : Inliner)
    (r : Renaming) (p : Placed) (s : PathState) : List PathState :=
  if s.exit.isSome then [s]
  else
    let call := (Run.demand r p.statement.effect).call
    afterCall c site stack p.statement.offset (reach e c site stack r p s) call
      (call.bind fun (callee, _, _) => inline p.statement.offset callee)

/-- The paths that continue a path with several statements. -/
def statements (e : Engine) (c : Context) (site : Site) (stack : List Site) (inline : Inliner)
    (r : Renaming) : List Placed → PathState → List PathState
  | [], s => [s]
  | p :: rest, s =>
    (statement e c site stack inline r p s).flatMap (statements e c site stack inline r rest)

/-- What holds on leaving a block along an edge; nothing if there is no such edge. -/
def stepStatements (form : Form) (step : PathStep) : List Placed :=
  match form.block? step.block with
  | none => []
  | some b =>
    match b.successors[step.edge]? with
    | none => []
    | some edge => b.declarations ++ b.assertions ++ b.guards edge.condition

/-- The paths that continue a path along steps. -/
def steps (e : Engine) (c : Context) (form : Form) (site : Site) (stack : List Site)
    (inline : Inliner) : List PathStep → PathState → List PathState
  | [], s => [s]
  | step :: rest, s =>
    (statements e c site stack inline (.of form site) (stepStatements form step) s).flatMap
      (steps e c form site stack inline rest)

/-- A path that is complete: it leaves where its skeleton ends, unless it has left before. -/
def complete (exit : ExitKind) (s : PathState) : PathState :=
  { s with exit := some (s.exit.getD exit) }

/-- The paths that follow one skeleton. -/
def path (e : Engine) (c : Context) (form : Form) (site : Site) (stack : List Site)
    (inline : Inliner) (skeleton : Skeleton) : List PathState :=
  (steps e c form site stack inline skeleton.steps {}).map (complete skeleton.exit)

/-- Every path of a form at a site. -/
def allPaths (e : Engine) (c : Context) (form : Form) (site : Site) (stack : List Site)
    (inline : Inliner) : List PathState :=
  (form.explore (form.blocks.length + 1) .entry []).flatMap (path e c form site stack inline)

/-- Inline a callee with `render`, unless its form is a stand-in or too many of its invocations are
open. -/
def inlineWith (e : Engine) (c : Context) (render : Form → Site → List Site → List PathState)
    (site : Site) (stack : List Site) : Inliner := fun offset callee =>
  match e.form? callee with
  | none => none
  | some form =>
    if form.isStandIn then none
    else if e.options.maxRecursionDepth ≤ stack.countP (·.method = callee) then none
    else
      (c.sites.find? ⟨site, offset, callee⟩).map fun calleeSite =>
        { form, site := calleeSite, paths := render form calleeSite (stack ++ [calleeSite]) }

/-- Every path of a form at a site, with callees inlined to a depth. -/
def render (e : Engine) (c : Context) : (depth : Nat) → Form → Site → List Site → List PathState
  | 0, form, site, stack =>
    allPaths e c form site stack (inlineWith e c (fun _ _ _ => []) site stack)
  | depth + 1, form, site, stack =>
    allPaths e c form site stack (inlineWith e c (render e c depth) site stack)

end Reference

/-! ## computations and what they return -/

namespace Run

variable {α β : Type} {x : Run α}

/-- The result of a computation and the context after it. -/
def exec (x : Run α) (c : Context) : Except CoverageError α × Context := x.run.run c

theorem exec_bind_of_ok {c c' : Context} {a : α} (h : x.exec c = (.ok a, c')) (f : α → Run β) :
    (x >>= f).exec c = (f a).exec c' := by
  simp only [exec] at h ⊢
  simp only [ExceptT.run_bind, StateT.run_bind, h]
  rfl

theorem exec_bind_of_error {c c' : Context} {err : CoverageError} (h : x.exec c = (.error err, c'))
    (f : α → Run β) : (x >>= f).exec c = (.error err, c') := by
  simp only [exec] at h ⊢
  simp only [ExceptT.run_bind, StateT.run_bind, h]
  rfl

/-- A computation only operates on its context, renumbers nothing, and if it returns a value, that
is what `v` gives in any later context. Done again in a later context it ends the same way and
stores nothing but paths. -/
structure Agrees (x : Run α) (v : Context → α) : Prop where
  steps : ∀ c : Context, ReflTransGen Context.Step c (x.exec c).2
  le : ∀ c : Context, c.Le (x.exec c).2
  value : ∀ (c : Context) (a : α), c.Sound → (x.exec c).1 = .ok a →
    ∀ d, (x.exec c).2.Le d → v d = a
  again : ∀ c d : Context, c.Sound → d.Sound → (x.exec c).2.Le d →
    ∃ skeletons, x.exec d = ((x.exec c).1, { d with skeletons })

/-- Equal values are agreed on. -/
theorem Agrees.congr {v w : Context → α} (h : Agrees x v) (hvw : ∀ c, v c = w c) :
    Agrees x w where
  steps := h.steps
  le := h.le
  value c a hc ha d hd := by rw [← hvw d]; exact h.value c a hc ha d hd
  again := h.again

theorem Agrees.pure (a : α) : Agrees (Pure.pure a : Run α) fun _ => a where
  steps _ := .refl
  le := Context.Le.refl
  value _ _ _ h _ _ := Except.ok.inj h
  again _ d _ _ _ := ⟨d.skeletons, rfl⟩

theorem Agrees.throw (err : CoverageError) (v : Context → α) :
    Agrees (MonadExcept.throw err : Run α) v where
  steps _ := .refl
  le := Context.Le.refl
  value _ _ _ h _ _ := by contradiction
  again _ d _ _ _ := ⟨d.skeletons, rfl⟩

/-- Agreement in sequence. -/
theorem Agrees.bind {v : Context → α} {f : α → Run β} {w : α → Context → β} (hx : Agrees x v)
    (hf : ∀ a, Agrees (f a) (w a)) : Agrees (x >>= f) fun c => w (v c) c where
  steps c := by
    have h := hx.steps c
    rcases hxc : x.exec c with ⟨err | a, c'⟩
    · rw [exec_bind_of_error hxc]
      rwa [hxc] at h
    · rw [exec_bind_of_ok hxc]
      rw [hxc] at h
      exact h.trans ((hf a).steps c')
  le c := by
    have h := hx.le c
    rcases hxc : x.exec c with ⟨err | a, c'⟩
    · rw [exec_bind_of_error hxc]
      rwa [hxc] at h
    · rw [exec_bind_of_ok hxc]
      rw [hxc] at h
      exact h.trans ((hf a).le c')
  value c b hc hb d hd := by
    rcases hxc : x.exec c with ⟨err | a, c'⟩
    · rw [exec_bind_of_error hxc] at hb
      contradiction
    · rw [exec_bind_of_ok hxc] at hb hd
      have hsteps := hx.steps c
      have hvalue := hx.value c a hc
      rw [hxc] at hsteps hvalue
      have hva : v d = a := hvalue rfl d (((hf a).le c').trans hd)
      rw [hva]
      exact (hf a).value c' b (hc.steps hsteps) hb d hd
  again c d hc hd hle := by
    rcases hxc : x.exec c with ⟨err | a, c'⟩
    · rw [exec_bind_of_error hxc] at hle ⊢
      obtain ⟨skeletons, hxd⟩ := hx.again c d hc hd (by rwa [hxc])
      rw [hxc] at hxd
      exact ⟨skeletons, exec_bind_of_error hxd f⟩
    · rw [exec_bind_of_ok hxc] at hle ⊢
      have hsteps := hx.steps c
      obtain ⟨skeletons, hxd⟩ := hx.again c d hc hd (by rw [hxc]; exact ((hf a).le c').trans hle)
      rw [hxc] at hsteps hxd
      have hsound := hd.steps (hx.steps d)
      rw [hxd] at hsound
      -- the two contexts differ in stored paths only, so the second part finds all its numbers
      rw [exec_bind_of_ok hxd]
      exact (hf a).again c' _ (hc.steps hsteps) hsound ⟨hle.site, hle.pointer, hle.flow⟩

/-- An operation whose answer is stored agrees with looking it up. -/
theorem Agrees.withContext {f : Context → α × Context} {v : Context → α}
    (hstep : ∀ c, Context.Step c (f c).2) (hle : ∀ c : Context, c.Le (f c).2)
    (hvalue : ∀ c d, c.Sound → (f c).2.Le d → v d = (f c).1)
    (hagain : ∀ c d : Context, c.Sound → d.Sound → (f c).2.Le d →
      ∃ skeletons, f d = ((f c).1, { d with skeletons })) :
    Agrees (Run.withContext f) v where
  steps c := .single (hstep c)
  le := hle
  value c a hc h d hd := by
    obtain rfl := Except.ok.inj h
    exact hvalue c d hc hd
  again c d hc hd hle := by
    obtain ⟨skeletons, heq⟩ := hagain c d hc hd hle
    exact ⟨skeletons, congrArg (fun r => (Except.ok r.1, r.2)) heq⟩

/-- Agreement of loops. -/
theorem Agrees.mapM {f : α → Run β} {w : α → Context → β} (hf : ∀ a, Agrees (f a) (w a))
    (l : List α) : Agrees (l.mapM f) fun c => l.map (w · c) := by
  induction l with
  | nil =>
      rw [List.mapM_nil]
      exact .pure []
  | cons a l ih =>
      rw [List.mapM_cons]
      exact (hf a).bind fun b => ih.bind fun bs => .pure (b :: bs)

theorem agrees_callSite (site : Site) (offset : Nat) (callee : MethodRef) :
    Agrees (Run.withContext fun c =>
        (some (c.callSite site offset callee).1, (c.callSite site offset callee).2))
      fun c => c.sites.find? ⟨site, offset, callee⟩ :=
  .withContext (fun c => .callSite c site offset callee)
    (fun c => c.le_callSite site offset callee)
    (fun c _ _ hd => hd.site _ _ (c.find?_callSite site offset callee))
    fun _ d _ _ hle => ⟨d.skeletons, by rw [Context.callSite_again hle]⟩

theorem agrees_pointer (site : Site) (offset : Nat) (type : TypeRef) :
    Agrees (Run.withContext (·.pointer site offset type))
      fun c => (c.allocations.find? (site, offset)).getD default := by
  refine .withContext (fun c => .pointer c site offset type)
    (fun c => c.le_pointer site offset type) (fun c d _ hd => ?_)
    fun _ d _ _ hle => ⟨d.skeletons, Context.pointer_again hle⟩
  rw [hd.pointer _ _ (c.find?_pointer site offset type)]
  rfl

theorem agrees_flow (key : FlowKey) :
    Agrees (Run.withContext (·.flow key)) fun c => (c.flows.find? key).getD default := by
  refine .withContext (fun c => .flow c key) (fun c => c.le_flow key) (fun c d _ hd => ?_)
    fun _ d _ _ hle => ⟨d.skeletons, Context.flow_again hle⟩
  rw [hd.flow _ _ (c.find?_flow key)]
  rfl

/-! ## rendering agrees with the reference -/

theorem agrees_checkLimit (e : Engine) (m : MethodRef) (count : Nat) :
    Agrees (checkLimit e m count) fun _ => () := by
  unfold checkLimit
  split
  · exact .throw _ _
  · exact .pure ()

theorem agrees_record (site : Site) (stack : List Site) (offset : Nat) (source : Sexp)
    (target : String) (s : PathState) :
    Agrees (record site stack offset source target s)
      fun c => Reference.record c site stack offset source target s :=
  (agrees_flow _).bind fun _ => .pure _

theorem agrees_pointerTerm (e : Engine) (site : Site) (offset : Nat) (type : TypeRef)
    (target : String) :
    Agrees (do return [Line.assert (← pointerTerm e site offset type target)])
      fun c => Reference.pointerLines e c site offset type target := by
  unfold pointerTerm Reference.pointerLines
  cases e.types.find? type with
  | none => exact .throw _ _
  | some s =>
      simp only [bind_assoc]
      refine (agrees_pointer site offset type).bind (w := fun pointer _ =>
        match s.apply (.hasPointer (.atom target) pointer) with
        | .ok term => [Line.assert term]
        | .error _ => []) fun pointer => ?_
      cases s.apply (.hasPointer (.atom target) pointer) with
      | error cause => exact .throw _ _
      | ok term => exact .pure _

theorem agrees_bindParameters (r : Renaming) (site : Site) (stack : List Site) (offset : Nat)
    (bound : List (Form.Parameter × Sexp)) (s : PathState) :
    Agrees (bindParameters r site stack offset bound s)
      fun c => Reference.bindParameters c r site stack offset bound s := by
  induction bound generalizing s with
  | nil => exact .pure s
  | cons b bound ih =>
      obtain ⟨p, argument⟩ := b
      exact (agrees_record site stack offset argument (r.symbol p.symbol) _).bind
        (w := fun t c => Reference.bindParameters c r site stack offset bound t) ih

theorem agrees_bindResult (site : Site) (stack : List Site) (offset : Nat)
    (target : Option String) (value : Option Sexp) (s : PathState) :
    Agrees (bindResult site stack offset target value s)
      fun c => Reference.bindResult c site stack offset target value s := by
  cases target with
  | none => exact .pure s
  | some target =>
      cases value with
      | none => exact .pure s
      | some value => exact agrees_record site stack offset value target _

/-- Callees are spliced in. -/
theorem agrees_splice (site : Site) (stack : List Site) (offset : Nat) (inlined : Inlined)
    (arguments : List Sexp) (target : Option String) (s path : PathState) :
    Agrees (splice site stack offset inlined arguments target s path)
      fun c => Reference.splice c site stack offset inlined arguments target s path := by
  refine (agrees_bindParameters _ site stack offset _ _).bind (w := fun t c =>
    Reference.comeBack c site stack offset target path (t.append path)) fun t => ?_
  have hreturn := agrees_bindResult site stack offset target path.returnValue (t.append path)
  unfold Reference.comeBack
  cases path.exit with
  | none => exact hreturn
  | some exit =>
      cases exit with
      | returned => exact hreturn
      | _ => exact .pure _

/-- Effects agree. -/
theorem agrees_perform (r : Renaming) (site : Site) (stack : List Site) (offset : Nat)
    (s : PathState) (effect : Effect) :
    Agrees (perform r site stack offset s effect)
      fun c => Reference.perform c r site stack offset s effect := by
  cases effect with
  | assign source target => exact agrees_record site stack offset _ _ s
  | _ => exact .pure _

/-- Paths that have left stay, all others are continued. -/
theorem agrees_advance (e : Engine) (m : MethodRef) {next : PathState → Run (List PathState)}
    {v : PathState → Context → List PathState} (hnext : ∀ s, Agrees (next s) (v s)) (count : Nat)
    (states : List PathState) :
    Agrees (advance e m next count states)
      fun c => states.flatMap fun s => if s.exit.isSome then [s] else v s c := by
  induction states generalizing count with
  | nil => exact .pure []
  | cons s states ih =>
      unfold advance
      simp only [List.flatMap_cons]
      split
      · exact (ih (count + 1)).bind fun _ => .pure _
      · refine (hnext s).bind (w := fun continued c => continued ++ states.flatMap fun s =>
          if s.exit.isSome then [s] else v s c) fun continued => ?_
        refine (agrees_checkLimit e m _).bind (w := fun _ c => continued ++ states.flatMap fun s =>
          if s.exit.isSome then [s] else v s c) fun _ => ?_
        exact (ih _).bind fun _ => .pure _

/-- An inliner and its reference return the same paths. -/
def InlinersAgree (inline : Inliner) (reference : Context → Reference.Inliner) : Prop :=
  ∀ offset callee, Agrees (inline offset callee) fun c => reference c offset callee

/-- The lines that an effect adds to those of its statement. -/
def extraLines (e : Engine) (r : Renaming) (site : Site) (p : Placed) : Run (List Line) :=
  match (demand r p.statement.effect).allocated with
  | some (type, target) => do
    return [Line.assert (← pointerTerm e site p.statement.offset type target)]
  | none => Pure.pure []

/-- The paths of the method that an effect runs. -/
def inlineCallee (inline : Inliner) (r : Renaming) (p : Placed) : Run (Option Inlined) :=
  match (demand r p.statement.effect).call with
  | some (callee, _, _) => inline p.statement.offset callee
  | none => Pure.pure none

/-- Continue one path with a statement. -/
def continueWith (site : Site) (stack : List Site) (r : Renaming) (p : Placed)
    (extra : List Line) (inlined : Option Inlined) : PathState → Run (List PathState) := fun s => do
  let s ← perform r site stack p.statement.offset
    ((s.pushAll (p.statement.lines.map r.line)).pushAll extra) p.statement.effect
  match (demand r p.statement.effect).call, inlined with
  | some (_, arguments, target), some inlined =>
    inlined.paths.mapM (splice site stack p.statement.offset inlined arguments target s)
  | _, _ => return [s]

/-- A statement in one go. -/
theorem applyStatement_eq (e : Engine) (form : Form) (site : Site) (stack : List Site)
    (inline : Inliner) (r : Renaming) (p : Placed) (states : List PathState) :
    applyStatement e form site stack inline r p states = (do
      let extra ← extraLines e r site p
      let inlined ← inlineCallee inline r p
      advance e form.method (continueWith site stack r p extra inlined) 0 states) := by
  unfold applyStatement extraLines inlineCallee continueWith
  dsimp only
  generalize demand r p.statement.effect = d
  obtain ⟨_ | ⟨type, target⟩, _ | ⟨callee, arguments, result⟩⟩ := d
  · rfl
  · rfl
  · exact (bind_assoc _ _ _).symm
  · exact (bind_assoc _ _ _).symm

theorem agrees_extraLines (e : Engine) (r : Renaming) (site : Site) (p : Placed) :
    Agrees (extraLines e r site p) fun c => Reference.extraLines e c r site p := by
  unfold extraLines Reference.extraLines
  rcases (demand r p.statement.effect).allocated with _ | ⟨type, target⟩
  · exact .pure []
  · exact agrees_pointerTerm e site p.statement.offset type target

theorem agrees_continueWith (site : Site) (stack : List Site) (r : Renaming) (p : Placed)
    (extra : List Line) (inlined : Option Inlined) (s : PathState) :
    Agrees (continueWith site stack r p extra inlined s) fun c =>
      Reference.afterCall c site stack p.statement.offset
        (Reference.perform c r site stack p.statement.offset
          ((s.pushAll (p.statement.lines.map r.line)).pushAll extra) p.statement.effect)
        (demand r p.statement.effect).call inlined := by
  refine (agrees_perform r site stack p.statement.offset _ p.statement.effect).bind
    (w := fun t c => Reference.afterCall c site stack p.statement.offset t
      (demand r p.statement.effect).call inlined) fun t => ?_
  rcases (demand r p.statement.effect).call with _ | ⟨callee, arguments, target⟩
  · exact .pure [t]
  · cases inlined with
    | none => exact .pure [t]
    | some inlined =>
        exact .mapM (fun path => agrees_splice site stack _ inlined arguments target t path) _

theorem agrees_stepStatements (form : Form) (step : PathStep) :
    Agrees (ofExcept (stepStatements form step))
      fun _ => Reference.stepStatements form step := by
  unfold stepStatements Reference.stepStatements
  cases form.block? step.block with
  | none => exact .throw _ _
  | some b =>
      simp only
      cases b.successors[step.edge]? with
      | none => exact .throw _ _
      | some edge => exact .pure _

theorem agrees_skeletons (form : Form) (limit : Nat) :
    Agrees (withContext (·.paths form limit) >>= ofExcept)
      fun _ => form.explore (form.blocks.length + 1) .entry [] := by
  have hpaths : Agrees (withContext (·.paths form limit)) fun _ => form.paths limit :=
    .withContext (fun c => .paths c form limit) (fun c => c.le_paths form limit)
      (fun c _ hc _ => (hc.paths_fst form limit).symm)
      fun _ _ hc hd _ => hc.paths_again hd form limit
  have hvalue : ∀ r : Except CoverageError (List Skeleton),
      Agrees (ofExcept r) fun _ => r.toOption.getD (form.explore (form.blocks.length + 1) .entry [])
    | .ok skeletons => .pure skeletons
    | .error err => .throw err _
  refine (hpaths.bind hvalue).congr fun c => ?_
  cases h : form.paths limit with
  | ok skeletons => exact Form.paths_eq_explore h
  | error err => rfl

section Statements

variable (e : Engine) (form : Form) (site : Site) (stack : List Site) {inline : Inliner}
  {reference : Context → Reference.Inliner} (hinline : InlinersAgree inline reference)

include hinline

theorem agrees_inlineCallee (r : Renaming) (p : Placed) :
    Agrees (inlineCallee inline r p) fun c =>
      (demand r p.statement.effect).call.bind fun (callee, _, _) =>
        reference c p.statement.offset callee := by
  unfold inlineCallee
  rcases (demand r p.statement.effect).call with _ | ⟨callee, arguments, target⟩
  · exact .pure none
  · exact hinline p.statement.offset callee

/-- Statements agree. -/
theorem agrees_applyStatement (r : Renaming) (p : Placed) (states : List PathState) :
    Agrees (applyStatement e form site stack inline r p states)
      fun c => states.flatMap (Reference.statement e c site stack (reference c) r p) := by
  rw [applyStatement_eq]
  have hstates := fun extra inlined => agrees_advance e form.method
    (agrees_continueWith site stack r p extra inlined) 0 states
  exact ((agrees_extraLines e r site p).bind fun extra =>
    (agrees_inlineCallee hinline r p).bind fun inlined => hstates extra inlined).congr fun c => rfl

theorem agrees_applyStatements (r : Renaming) (ps : List Placed) (states : List PathState) :
    Agrees (applyStatements e form site stack inline r ps states)
      fun c => states.flatMap (Reference.statements e c site stack (reference c) r ps) := by
  induction ps generalizing states with
  | nil => exact (Agrees.pure states).congr fun c => (List.flatMap_singleton' states).symm
  | cons p ps ih =>
      exact ((agrees_applyStatement e form site stack hinline r p states).bind ih).congr fun c =>
        List.flatMap_assoc

/-- Steps agree. -/
theorem agrees_applySteps (steps : List PathStep) (states : List PathState) :
    Agrees (applySteps e form site stack inline (.of form site) steps states)
      fun c => states.flatMap (Reference.steps e c form site stack (reference c) steps) := by
  induction steps generalizing states with
  | nil => exact (Agrees.pure states).congr fun c => (List.flatMap_singleton' states).symm
  | cons step steps ih =>
      have hstatements := fun statements =>
        agrees_applyStatements e form site stack hinline (.of form site) statements states
      exact ((agrees_stepStatements form step).bind fun statements =>
        (hstatements statements).bind ih).congr
        fun c => List.flatMap_assoc

/-- Paths agree. -/
theorem agrees_renderPath (skeleton : Skeleton) :
    Agrees (renderPath e form site stack inline skeleton)
      fun c => Reference.path e c form site stack (reference c) skeleton :=
  ((agrees_applySteps e form site stack hinline skeleton.steps [{}]).bind
    fun states => .pure (states.map (Reference.complete skeleton.exit))).congr fun c => by
      simp [Reference.path]

theorem agrees_renderAll (count : Nat) (skeletons : List Skeleton) :
    Agrees (renderAll e form site stack inline count skeletons)
      fun c => skeletons.flatMap (Reference.path e c form site stack (reference c)) := by
  induction skeletons generalizing count with
  | nil => exact .pure []
  | cons skeleton rest ih =>
      have hlimit := fun count => agrees_checkLimit e form.method count
      exact ((agrees_renderPath e form site stack hinline skeleton).bind fun states =>
        (hlimit (count + states.length)).bind fun _ =>
          (ih (count + states.length)).bind fun others => .pure (states ++ others)).congr
            fun c => List.flatMap_cons.symm

/-- Forms agree. -/
theorem agrees_renderForm :
    Agrees (renderForm e form site stack inline)
      fun c => Reference.allPaths e c form site stack (reference c) := by
  rw [renderForm, ← bind_assoc]
  exact (agrees_skeletons form e.options.maxPaths).bind
    (agrees_renderAll e form site stack hinline 0)

end Statements

/-- Inlined calls agree. -/
theorem agrees_inlineWith (e : Engine) {render : Form → Site → List Site → Run (List PathState)}
    {reference : Context → Form → Site → List Site → List PathState}
    (hrender : ∀ form site stack, Agrees (render form site stack)
      fun c => reference c form site stack) (site : Site) (stack : List Site) :
    InlinersAgree (inlineWith e render site stack)
      fun c => Reference.inlineWith e c (reference c) site stack := by
  intro offset callee
  unfold inlineWith Reference.inlineWith
  cases hform : e.form? callee with
  | none => simpa only [hform] using .throw _ _
  | some form =>
      simp only [hform]
      split
      · exact .pure none
      · split
        · exact .pure none
        · have hpaths : ∀ found : Option Site, Agrees
              (found.elim (Pure.pure none) fun site => do
                return some ⟨form, site, ← render form site (stack ++ [site])⟩)
              fun c => found.map fun site =>
                (⟨form, site, reference c form site (stack ++ [site])⟩ : Inlined) := by
            intro found
            cases found with
            | none => exact .pure none
            | some site =>
                exact (hrender form site (stack ++ [site])).bind fun paths =>
                  .pure (some (Inlined.mk form site paths))
          exact (agrees_callSite site offset callee).bind hpaths

/-- **Rendering agrees with its reference.** -/
theorem agrees_render (e : Engine) (depth : Nat) (form : Form) (site : Site) (stack : List Site) :
    Agrees (render e depth form site stack)
      fun c => Reference.render e c depth form site stack := by
  induction depth generalizing form site stack with
  | zero =>
      exact agrees_renderForm e form site stack
        (agrees_inlineWith e (fun _ _ _ => .pure []) site stack)
  | succ depth ih => exact agrees_renderForm e form site stack (agrees_inlineWith e ih site stack)

end Run

/-! ## the groups of a run -/

/-- **What a run renders**: a run that succeeds in a used context gives the groups of the reference
paths, read in the context it ends with. -/
theorem Engine.renderGroups_eq_reference {e : Engine} {m : MethodRef} {groups : List PathGroup}
    (hc : c.Used) (h : (e.renderGroups m c).1 = .ok groups) :
    ∃ form root d, e.form? m = some form ∧ root = (c.rootSite m).1 ∧ Context.Used d ∧
      (e.renderGroups m c).2 = d.release root ∧
      groups = (Reference.render e d e.inliningDepth form root [root]).map
        (PathGroup.ofState m root) := by
  unfold renderGroups at h ⊢
  cases hform : e.form? m with
  | none => simp [hform] at h
  | some form =>
      simp only [hform] at h ⊢
      have hagrees := Run.agrees_render e e.inliningDepth form (c.rootSite m).1 [(c.rootSite m).1]
      have hroot : (c.rootSite m).2.Used := hc.steps (.single (.rootSite c m))
      change ((Run.render e e.inliningDepth form _ _).exec _).1.map _ = _ at h
      refine ⟨form, _, _, rfl, rfl, hroot.steps (hagrees.steps _), rfl, ?_⟩
      cases hstates : ((Run.render e e.inliningDepth form (c.rootSite m).1
          [(c.rootSite m).1]).exec (c.rootSite m).2).1 with
      | error err =>
          rw [hstates] at h
          contradiction
      | ok states =>
          rw [hstates] at h
          rw [hagrees.value _ states hroot.sound hstates _ (Context.Le.refl _)]
          exact (Except.ok.inj h).symm

/-- A run leads to a used context again. -/
theorem Engine.used_renderGroups (e : Engine) (m : MethodRef) (hc : c.Used) :
    (e.renderGroups m c).2.Used := by
  unfold renderGroups
  cases e.form? m with
  | none => exact hc
  | some form =>
      have hagrees := Run.agrees_render e e.inliningDepth form (c.rootSite m).1 [(c.rootSite m).1]
      have hroot : (c.rootSite m).2.Used := hc.steps (.single (.rootSite c m))
      exact (hroot.steps (hagrees.steps _)).steps (.single (.release _ _))

theorem Engine.used_cover (e : Engine) (m : MethodRef) (hc : c.Used) :
    (e.cover m c).2.Used := e.used_renderGroups m hc

end Pathwise
