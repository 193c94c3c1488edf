import Pathwise.Proofs.Unfolding

/-!
# Pathwise.Proofs.Inlining.Machine

A run as a machine with a call stack. The stack is part of the state: opening a
callee pushes its site, and it is popped whichever way the callee ends. Every stack
there has been is noted.

How deep callees are opened is for the stack to decide. The clock of
`StackRun.renderForm` only makes the recursion a definition: it cuts nothing off, but
leaves the machine without an answer if callees are opened deeper than it allows. So
it changes no answer that there is (`StackRun.extends_renderForm`).

`StackRun.Follows` joins the machine and the runs, where a stack is an argument
and the depth is bounded: from a context in use the machine ends, with the result
of the run and the stack that it began with (`StackRun.follows_render`). The only
thing it depends on is how many invocations can still be opened.
-/

namespace Pathwise

/-- A run with its call stack. -/
structure Machine where
  context : Context
  /-- The open invocations, the root first. -/
  stack : List Site
  /-- Every stack there has been, the latest first. -/
  history : List (List Site)

/-- Change the stack. -/
def Machine.restack (f : List Site → List Site) (s : Machine) : Machine :=
  { s with stack := f s.stack, history := f s.stack :: s.history }

/-- A computation of the machine. It can fail, and it need not give an answer. -/
abbrev StackRun := ExceptT CoverageError (StateT Machine Option)

namespace StackRun

variable {α β : Type} {x : StackRun α}

/-- Do what a run does with the stack as it is. -/
def lift (x : List Site → Run α) : StackRun α := fun s =>
  some (((x s.stack).exec s.context).1, { s with context := ((x s.stack).exec s.context).2 })

/-- How a form inlines the callee of a call. -/
abbrev Inliner := Nat → MethodRef → StackRun (Option Inlined)

/-- Continue paths with one statement. -/
def applyStatement (e : Engine) (form : Form) (site : Site) (inline : Inliner) (p : Placed)
    (states : List PathState) : StackRun (List PathState) := do
  let r := Renaming.of form site
  let extra ← lift fun _ => Run.extraLines e r site p
  let inlined ← match (Run.demand r p.statement.effect).call with
    | some call => inline p.statement.offset call.1
    | none => pure none
  lift fun stack =>
    Run.advance e form.method (Run.continueWith site stack r p extra inlined) 0 states

/-- Continue paths with several statements. -/
def applyStatements (e : Engine) (form : Form) (site : Site) (inline : Inliner) :
    List Placed → List PathState → StackRun (List PathState)
  | [], states => pure states
  | p :: rest, states => do
    let states ← applyStatement e form site inline p states
    applyStatements e form site inline rest states

/-- Continue paths along steps. -/
def applySteps (e : Engine) (form : Form) (site : Site) (inline : Inliner) :
    List PathStep → List PathState → StackRun (List PathState)
  | [], states => pure states
  | step :: rest, states => do
    let statements ← lift fun _ => Run.ofExcept (Run.stepStatements form step)
    let states ← applyStatements e form site inline statements states
    applySteps e form site inline rest states

/-- The paths that follow one skeleton. -/
def renderPath (e : Engine) (form : Form) (site : Site) (inline : Inliner) (skeleton : Skeleton) :
    StackRun (List PathState) := do
  let states ← applySteps e form site inline skeleton.steps [{}]
  return states.map (Reference.complete skeleton.exit)

/-- The paths that follow any of several skeletons. -/
def renderAll (e : Engine) (form : Form) (site : Site) (inline : Inliner) :
    Nat → List Skeleton → StackRun (List PathState)
  | _, [] => pure []
  | count, skeleton :: rest => do
    let states ← renderPath e form site inline skeleton
    let count := count + states.length
    lift fun _ => Run.checkLimit e form.method count
    return states ++ (← renderAll e form site inline count rest)

/-- Every path of a form at a site, with its callees inlined in a given way. -/
def renderWith (e : Engine) (form : Form) (site : Site) (inline : Inliner) :
    StackRun (List PathState) := do
  let skeletons ←
    lift fun _ => do Run.ofExcept (← Run.withContext (·.paths form e.options.maxPaths))
  renderAll e form site inline 0 skeletons

/-- Render a callee with its site on the stack. The site is popped also if that fails. -/
def openCallee (render : Form → Site → StackRun (List PathState)) (form : Form) (site : Site) :
    StackRun (List PathState) := ExceptT.mk do
  modify (Machine.restack (· ++ [site]))
  let paths ← (render form site).run
  modify (Machine.restack List.dropLast)
  return paths

/-- The paths of a callee, or nothing if its form is a stand-in or as many of its invocations are on
the stack as the options allow. -/
def calleePaths (e : Engine) (render : Form → Site → StackRun (List PathState)) (site : Site) :
    Inliner := fun offset callee =>
  match e.form? callee with
  | none => throw (.unresolvedMethod callee)
  | some form =>
    if form.isStandIn then pure none
    else do
      let active ← lift fun stack => pure (stack.countP (·.method = callee))
      if e.options.maxRecursionDepth ≤ active then pure none
      else
        let calleeSite ← lift fun _ => Run.withContext (·.callSite site offset callee)
        let paths ← openCallee render form calleeSite
        return some { form, site := calleeSite, paths }

/-- Every path of a form at a site. There is no answer if the clock runs out. -/
def renderForm (e : Engine) : (clock : Nat) → Form → Site → StackRun (List PathState)
  | 0, _, _ => fun _ => none
  | clock + 1, form, site => renderWith e form site (calleePaths e (renderForm e clock) site)

/-! ## computations and how they end -/

/-- How a computation ends and the machine after it, if it ends. -/
def exec (x : StackRun α) (s : Machine) : Option (Except CoverageError α × Machine) := x.run.run s

theorem exec_bind_of_ok {s s' : Machine} {a : α} (h : x.exec s = some (.ok a, s'))
    (f : α → StackRun β) : (x >>= f).exec s = (f a).exec s' := by
  simp only [exec] at h ⊢
  simp only [ExceptT.run_bind, StateT.run_bind, h]
  rfl

theorem exec_bind_of_error {s s' : Machine} {err : CoverageError}
    (h : x.exec s = some (.error err, s')) (f : α → StackRun β) :
    (x >>= f).exec s = some (.error err, s') := by
  simp only [exec] at h ⊢
  simp only [ExceptT.run_bind, StateT.run_bind, h]
  rfl

theorem exec_bind_of_none {s : Machine} (h : x.exec s = none) (f : α → StackRun β) :
    (x >>= f).exec s = none := by
  simp only [exec] at h ⊢
  simp only [ExceptT.run_bind, StateT.run_bind, h]
  rfl

/-- A callee runs on top of the stack. -/
theorem exec_openCallee (render : Form → Site → StackRun (List PathState)) (form : Form)
    (site : Site) (s : Machine) :
    (openCallee render form site).exec s =
      ((render form site).exec (s.restack (· ++ [site]))).map
        (Prod.map id (Machine.restack List.dropLast)) := by
  change ((render form site).exec (s.restack (· ++ [site]))).bind _ = _
  cases (render form site).exec (s.restack (· ++ [site])) <;> rfl

/-! ## the clock -/

/-- One computation gives every answer that another one gives. -/
def Extends (y x : StackRun α) : Prop := ∀ s r, x.exec s = some r → y.exec s = some r

namespace Extends

theorem refl (x : StackRun α) : Extends x x := fun _ _ => id

/-- More time in sequence. -/
theorem bind {x y : StackRun α} {f g : α → StackRun β} (hxy : Extends y x)
    (hfg : ∀ a, Extends (g a) (f a)) : Extends (y >>= g) (x >>= f) := by
  intro s r h
  rcases hx : x.exec s with - | ⟨err | a, s'⟩
  · rw [exec_bind_of_none hx] at h
    contradiction
  · rw [exec_bind_of_error hx] at h
    rwa [exec_bind_of_error (hxy s _ hx)]
  · rw [exec_bind_of_ok hx] at h
    rw [exec_bind_of_ok (hxy s _ hx)]
    exact hfg a s' r h

end Extends

section Extension

variable {e : Engine} {form : Form} {site : Site} {inline inline' : Inliner}
  (hinline : ∀ offset callee, Extends (inline' offset callee) (inline offset callee))

include hinline

theorem extends_applyStatement (p : Placed) (states : List PathState) :
    Extends (applyStatement e form site inline' p states)
      (applyStatement e form site inline p states) := by
  refine (Extends.refl _).bind fun extra => ?_
  cases (Run.demand (Renaming.of form site) p.statement.effect).call with
  | none => exact .refl _
  | some call => exact (hinline p.statement.offset call.1).bind fun _ => .refl _

theorem extends_applyStatements (statements : List Placed) (states : List PathState) :
    Extends (applyStatements e form site inline' statements states)
      (applyStatements e form site inline statements states) := by
  induction statements generalizing states with
  | nil => exact .refl _
  | cons p rest ih => exact (extends_applyStatement hinline p states).bind ih

theorem extends_applySteps (steps : List PathStep) (states : List PathState) :
    Extends (applySteps e form site inline' steps states)
      (applySteps e form site inline steps states) := by
  induction steps generalizing states with
  | nil => exact .refl _
  | cons step rest ih =>
      exact (Extends.refl _).bind fun statements =>
        (extends_applyStatements hinline statements states).bind ih

theorem extends_renderAll (count : Nat) (skeletons : List Skeleton) :
    Extends (renderAll e form site inline' count skeletons)
      (renderAll e form site inline count skeletons) := by
  induction skeletons generalizing count with
  | nil => exact .refl _
  | cons skeleton rest ih =>
      have hpath : Extends (renderPath e form site inline' skeleton)
          (renderPath e form site inline skeleton) :=
        (extends_applySteps hinline skeleton.steps [{}]).bind fun _ => .refl _
      exact hpath.bind fun _ => (Extends.refl _).bind fun _ => (ih _).bind fun _ => .refl _

/-- More time gives the same paths. -/
theorem extends_renderWith :
    Extends (renderWith e form site inline') (renderWith e form site inline) :=
  (Extends.refl _).bind (extends_renderAll hinline 0)

end Extension

theorem extends_calleePaths {render render' : Form → Site → StackRun (List PathState)}
    (h : ∀ form site, Extends (render' form site) (render form site)) (e : Engine) (site : Site)
    (offset : Nat) (callee : MethodRef) :
    Extends (calleePaths e render' site offset callee)
      (calleePaths e render site offset callee) := by
  have hopen : ∀ form s, Extends (openCallee render' form s) (openCallee render form s) := by
    intro form s machine r hr
    rw [exec_openCallee, Option.map_eq_some_iff] at hr ⊢
    obtain ⟨before, hbefore, rfl⟩ := hr
    exact ⟨before, h form s _ _ hbefore, rfl⟩
  unfold calleePaths
  cases e.form? callee with
  | none => exact .refl _
  | some form =>
      simp only
      split
      · exact .refl _
      · refine (Extends.refl _).bind fun active => ?_
        split
        · exact .refl _
        · exact (Extends.refl _).bind fun s => (hopen form s).bind fun _ => .refl _

/-- **The clock changes no answer**: a later one gives all that an earlier one gives. -/
theorem extends_renderForm (e : Engine) {clock later : Nat} (h : clock ≤ later) (form : Form)
    (site : Site) : Extends (renderForm e later form site) (renderForm e clock form site) := by
  induction clock generalizing later form site with
  | zero => exact fun _ _ => nofun
  | succ clock ih =>
      obtain ⟨later, rfl⟩ := Nat.exists_eq_add_of_lt h
      exact extends_renderWith
        (extends_calleePaths (fun form site => ih (by omega) form site) e site)

/-! ## machines and runs -/

/-- From a stack and a sound context, a computation ends as that of a run does, with the stack as it
was, and all stacks on the way have a property. -/
def Follows (P : List Site → Prop) (stack : List Site) (x : StackRun α) (y : Run α) : Prop :=
  ∀ (c : Context) (history : List (List Site)), c.Sound →
    (y.exec c).2.Sound ∧ ∃ passed : List (List Site), (∀ s ∈ passed, P s) ∧
      x.exec ⟨c, stack, history⟩ =
        some ((y.exec c).1, ⟨(y.exec c).2, stack, passed ++ history⟩)

namespace Follows

variable {P : List Site → Prop} {stack : List Site} {y : Run α}

theorem pure (a : α) : Follows P stack (Pure.pure a) (Pure.pure a) :=
  fun _ _ hc => ⟨hc, [], nofun, rfl⟩

theorem throw (err : CoverageError) :
    Follows P stack (MonadExcept.throw err : StackRun α) (MonadExcept.throw err) :=
  fun _ _ hc => ⟨hc, [], nofun, rfl⟩

theorem lift {x : List Site → Run α} {v : Context → α} (h : Run.Agrees (x stack) v) :
    Follows P stack (StackRun.lift x) (x stack) :=
  fun c _ hc => ⟨hc.steps (h.steps c), [], nofun, rfl⟩

/-- To ask for the stack is to know it. -/
theorem read {f : List Site → β} {k : β → StackRun α} (h : Follows P stack (k (f stack)) y) :
    Follows P stack (StackRun.lift (fun stack => Pure.pure (f stack)) >>= k) y := by
  intro c history hc
  have hread : (StackRun.lift fun stack => Pure.pure (f stack)).exec ⟨c, stack, history⟩ =
      some (.ok (f stack), ⟨c, stack, history⟩) := rfl
  rw [exec_bind_of_ok hread]
  exact h c history hc

/-- Of a continuation only those values matter that the first part can return. -/
theorem bind_within {x : StackRun α} {f : α → StackRun β} {g : α → Run β}
    (hxy : Follows P stack x y)
    (hfg : ∀ c a, c.Sound → (y.exec c).1 = .ok a → Follows P stack (f a) (g a)) :
    Follows P stack (x >>= f) (y >>= g) := by
  intro c history hc
  obtain ⟨hsound, passed, hpassed, hx⟩ := hxy c history hc
  have hvalue := fun a => hfg c a hc
  rcases hy : y.exec c with ⟨err | a, c'⟩
  · rw [hy] at hsound hx
    rw [Run.exec_bind_of_error hy, exec_bind_of_error hx]
    exact ⟨hsound, passed, hpassed, rfl⟩
  · rw [hy] at hsound hx hvalue
    obtain ⟨hsound', passed', hpassed', hf⟩ := hvalue a rfl c' (passed ++ history) hsound
    rw [Run.exec_bind_of_ok hy, exec_bind_of_ok hx, hf]
    refine ⟨hsound', passed' ++ passed, List.forall_mem_append.2 ⟨hpassed', hpassed⟩, ?_⟩
    rw [List.append_assoc]

/-- Machines follow in sequence. -/
theorem bind {x : StackRun α} {f : α → StackRun β} {g : α → Run β} (hxy : Follows P stack x y)
    (hfg : ∀ a, Follows P stack (f a) (g a)) :
    Follows P stack (x >>= f) (y >>= g) := hxy.bind_within fun _ a _ _ => hfg a

/-- **A callee leaves the stack as it was**, if rendering it leaves the stack with its site. -/
theorem openCallee {render : Form → Site → StackRun (List PathState)} {form : Form} {site : Site}
    {y : Run (List PathState)} (hstack : P stack) (hopen : P (stack ++ [site]))
    (h : Follows P (stack ++ [site]) (render form site) y) :
    Follows P stack (StackRun.openCallee render form site) y := by
  intro c history hc
  obtain ⟨hsound, passed, hpassed, hrender⟩ := h c ((stack ++ [site]) :: history) hc
  refine ⟨hsound, stack :: passed ++ [stack ++ [site]], ?_, ?_⟩
  · exact List.forall_mem_append.2
      ⟨List.forall_mem_cons.2 ⟨hstack, hpassed⟩, List.forall_mem_singleton.2 hopen⟩
  · have hrun : (render form site).exec (Machine.restack (· ++ [site]) ⟨c, stack, history⟩) = _ :=
      hrender
    rw [exec_openCallee, hrun]
    simp [Machine.restack]

end Follows

/-! ## rendering follows the runs -/

section Forms

variable {P : List Site → Prop} (e : Engine) (form : Form) (site : Site) {stack : List Site}
  {inline : Inliner} {runInline : Run.Inliner}
  (hinline : ∀ offset callee, Follows P stack (inline offset callee) (runInline offset callee))

include hinline

theorem follows_applyStatement (p : Placed) (states : List PathState) :
    Follows P stack (applyStatement e form site inline p states)
      (Run.applyStatement e form site stack runInline (.of form site) p states) := by
  rw [Run.applyStatement_eq]
  refine (Follows.lift (Run.agrees_extraLines e _ site p)).bind fun extra => ?_
  have hadvance : ∀ inlined, Follows P stack (lift fun stack => Run.advance e form.method
      (Run.continueWith site stack (.of form site) p extra inlined) 0 states) _ := fun inlined =>
    .lift (Run.agrees_advance e form.method
      (Run.agrees_continueWith site stack (.of form site) p extra inlined) 0 states)
  unfold Run.inlineCallee
  cases (Run.demand (Renaming.of form site) p.statement.effect).call with
  | none => exact (Follows.pure none).bind hadvance
  | some call => exact (hinline p.statement.offset call.1).bind hadvance

theorem follows_applyStatements (statements : List Placed) (states : List PathState) :
    Follows P stack (applyStatements e form site inline statements states)
      (Run.applyStatements e form site stack runInline (.of form site) statements states) := by
  induction statements generalizing states with
  | nil => exact .pure states
  | cons p rest ih => exact (follows_applyStatement e form site hinline p states).bind ih

theorem follows_applySteps (steps : List PathStep) (states : List PathState) :
    Follows P stack (applySteps e form site inline steps states)
      (Run.applySteps e form site stack runInline (.of form site) steps states) := by
  induction steps generalizing states with
  | nil => exact .pure states
  | cons step rest ih =>
      exact (Follows.lift (Run.agrees_stepStatements form step)).bind fun statements =>
        (follows_applyStatements e form site hinline statements states).bind ih

theorem follows_renderAll (count : Nat) (skeletons : List Skeleton) :
    Follows P stack (renderAll e form site inline count skeletons)
      (Run.renderAll e form site stack runInline count skeletons) := by
  induction skeletons generalizing count with
  | nil => exact .pure []
  | cons skeleton rest ih =>
      have hpath : Follows P stack (renderPath e form site inline skeleton)
          (Run.renderPath e form site stack runInline skeleton) :=
        (follows_applySteps e form site hinline skeleton.steps [{}]).bind fun states => .pure _
      exact hpath.bind fun states => (Follows.lift (Run.agrees_checkLimit e form.method _)).bind
        fun _ => (ih _).bind fun others => .pure (states ++ others)

/-- The machine follows the run. -/
theorem follows_renderWith :
    Follows P stack (renderWith e form site inline)
      (Run.renderForm e form site stack runInline) := by
  rw [Run.renderForm, ← bind_assoc]
  exact (Follows.lift (Run.agrees_skeletons form e.options.maxPaths)).bind
    (follows_renderAll e form site hinline 0)

end Forms

variable {P : List Site → Prop} {e : Engine}

/-- Callees follow those of a run, if that is how the forms of all that can be opened are
rendered. -/
theorem follows_calleePaths {render : Form → Site → StackRun (List PathState)}
    {runRender : Form → Site → List Site → Run (List PathState)} {stack : List Site}
    (hstack : P stack)
    (hopen : ∀ callee form s, e.unfolds? stack callee = some form → s.method = callee →
      P (stack ++ [s]) ∧
        Follows P (stack ++ [s]) (render form s) (runRender form s (stack ++ [s])))
    (site : Site) (offset : Nat) (callee : MethodRef) :
    Follows P stack (calleePaths e render site offset callee)
      (Run.inlineWith e runRender site stack offset callee) := by
  unfold calleePaths Run.inlineWith
  cases hform : e.form? callee with
  | none => exact .throw _
  | some form =>
      simp only
      by_cases hstandIn : form.isStandIn = true
      · rw [if_pos hstandIn, if_pos hstandIn]
        exact .pure none
      · rw [if_neg hstandIn, if_neg hstandIn]
        refine Follows.read ?_
        by_cases hactive : e.options.maxRecursionDepth ≤ stack.countP (·.method = callee)
        · rw [if_pos hactive, if_pos hactive]
          exact .pure none
        · have hunfolds : e.unfolds? stack callee = some form :=
            Engine.unfolds?_eq_some.2 ⟨hform, by simpa using hstandIn, Nat.not_le.1 hactive⟩
          rw [if_neg hactive, if_neg hactive]
          refine (Follows.lift (Run.agrees_calleeSite site offset callee)).bind_within
            fun c s hc hs => ?_
          have hmethod : s.method = callee := by
            obtain rfl : (c.callSite site offset callee).1 = s := Except.ok.inj hs
            exact ((hc.of_callSite site offset callee).sites _ _
              (c.find?_callSite site offset callee)).1
          obtain ⟨hnext, hrender⟩ := hopen callee form s hunfolds hmethod
          exact (Follows.openCallee hstack hnext hrender).bind fun paths => .pure _

/-- **The machine follows the runs** that go at least as deep as invocations can be opened, if its
clock lasts longer than that and opening an invocation keeps the property of stacks. -/
theorem follows_render (hopen : ∀ stack callee form s, P stack →
      e.unfolds? stack callee = some form → s.method = callee → P (stack ++ [s]))
    {clock depth : Nat} (form : Form) (site : Site) {stack : List Site} (hstack : P stack)
    (hclock : e.remaining stack < clock) (hdepth : e.remaining stack ≤ depth) :
    Follows P stack (renderForm e clock form site) (Run.render e depth form site stack) := by
  induction clock generalizing depth form site stack with
  | zero => contradiction
  | succ clock ih =>
      cases depth with
      | zero =>
          refine follows_renderWith e form site
            (follows_calleePaths hstack (fun callee form s hform hs => ?_) site)
          have hlt := Engine.remaining_lt hform hs
          omega
      | succ depth =>
          refine follows_renderWith e form site
            (follows_calleePaths hstack (fun callee form s hform hs => ?_) site)
          have hlt := Engine.remaining_lt hform hs
          have hnext := hopen stack callee form s hstack hform hs
          exact ⟨hnext, ih form s hnext (by omega) (by omega)⟩

end StackRun

end Pathwise
