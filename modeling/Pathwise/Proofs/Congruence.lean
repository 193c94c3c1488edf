import Pathwise.Proofs.Layout
import Pathwise.Proofs.Reference

/-!
# Pathwise.Proofs.Congruence

Relations between computations that hold of whole renderings because they hold of
the parts. `Run.Congruence` is a relation that is kept when computations are put
together, and `Run.Relates` lists the parts of two renderings of a form at a site:
operations on the context, checks of the limit, and what the statements ask for. By
one walk through the functions of a run such a relation holds between the paths that
both find (`Run.Relates.renderAll`).

A property of computations is a relation that leaves the second one out of account.
-/

namespace Pathwise

/-- What holds along a step is among the statements of the form. -/
theorem Form.stepStatements_subset (f : Form) (step : PathStep) :
    Reference.stepStatements f step ⊆ f.statements := by
  unfold Reference.stepStatements
  cases hb : f.block? step.block with
  | none => simp
  | some b =>
      cases he : b.successors[step.edge]? with
      | none => simp [he]
      | some edge =>
          simp only [he]
          refine List.Subset.trans (leaving_subset b edge.condition) fun p hp => ?_
          exact List.mem_flatMap.2 ⟨b, (of_block?_eq_some hb).1, hp⟩

namespace Run

theorem mem_statements_of_stepStatements {form : Form} {step : PathStep} {ps : List Placed}
    (h : stepStatements form step = .ok ps) {p : Placed} (hp : p ∈ ps) : p ∈ form.statements := by
  refine form.stepStatements_subset step ?_
  unfold stepStatements at h
  unfold Reference.stepStatements
  cases hb : form.block? step.block with
  | none => simp [hb] at h
  | some b =>
      cases hedge : b.successors[step.edge]? with
      | none => simp [hb, hedge] at h
      | some edge =>
          simp only [hb, hedge, Except.ok.injEq] at h ⊢
          rwa [h]

/-! ## relations -/

/-- A relation that is kept when computations are put together. -/
structure Congruence (R : (α : Type) → Run α → Run α → Prop) : Prop where
  pure : ∀ {α : Type} (a : α), R α (Pure.pure a) (Pure.pure a)
  bind : ∀ {α β : Type} {x y : Run α} {f g : α → Run β}, R α x y → (∀ a, R β (f a) (g a)) →
    R β (x >>= f) (y >>= g)

/-- A relation between the parts of two renderings of a form at a site, along the steps of `Q`. -/
structure Relates (R : (α : Type) → Run α → Run α → Prop) (e e' : Engine) (form : Form)
    (site : Site) (stack : List Site) (inline inline' : Inliner) (Q : PathStep → Prop) : Prop
    extends Congruence R where
  record : ∀ offset source target s, R PathState (record site stack offset source target s)
    (record site stack offset source target s)
  limit : ∀ count, R Unit (checkLimit e form.method count) (checkLimit e' form.method count)
  missing : ∀ step err, Q step → stepStatements form step = .error err →
    R (List PathState) (throw err) (throw err)
  pointer : ∀ p ∈ form.statements, ∀ r type target,
    (demand r p.statement.effect).allocated = some (type, target) →
    R Sexp (pointerTerm e site p.statement.offset type target)
      (pointerTerm e' site p.statement.offset type target)
  callee : ∀ p ∈ form.statements, ∀ r callee rest,
    (demand r p.statement.effect).call = some (callee, rest) →
    R (Option Inlined) (inline p.statement.offset callee) (inline' p.statement.offset callee)

variable {R : (α : Type) → Run α → Run α → Prop}

theorem Congruence.mapM (hR : Congruence R) {α β : Type} {f g : α → Run β}
    (h : ∀ a, R β (f a) (g a)) (l : List α) : R (List β) (l.mapM f) (l.mapM g) := by
  induction l with
  | nil =>
      rw [List.mapM_nil, List.mapM_nil]
      exact hR.pure []
  | cons a l ih =>
      rw [List.mapM_cons, List.mapM_cons]
      exact hR.bind (h a) fun b => hR.bind ih fun bs => hR.pure (b :: bs)

namespace Relates

variable {e e' : Engine} {form : Form} {site : Site} {stack : List Site} {inline inline' : Inliner}
  {Q : PathStep → Prop} (h : Relates R e e' form site stack inline inline' Q) {p : Placed}

include h

/-! ## callees -/

theorem bindParameters (r : Renaming) (offset : Nat) (bound : List (Form.Parameter × Sexp))
    (s : PathState) : R PathState (Run.bindParameters r site stack offset bound s)
      (Run.bindParameters r site stack offset bound s) := by
  induction bound generalizing s with
  | nil => exact h.pure s
  | cons b bound ih => exact h.bind (h.record offset b.2 _ _) ih

theorem bindResult (offset : Nat) (target : Option String) (value : Option Sexp) (s : PathState) :
    R PathState (Run.bindResult site stack offset target value s)
      (Run.bindResult site stack offset target value s) := by
  cases target with
  | none => exact h.pure s
  | some target =>
      cases value with
      | none => exact h.pure s
      | some value => exact h.record offset value target _

theorem splice (offset : Nat) (inlined : Inlined) (arguments : List Sexp)
    (target : Option String) (s path : PathState) :
    R PathState (Run.splice site stack offset inlined arguments target s path)
      (Run.splice site stack offset inlined arguments target s path) := by
  refine h.bind (h.bindParameters _ offset _ _) fun t => ?_
  have hreturn := h.bindResult offset target path.returnValue (t.append path)
  cases path.exit with
  | none => exact hreturn
  | some exit =>
      cases exit with
      | returned => exact hreturn
      | _ => exact h.pure _

theorem inlineCallee (hp : p ∈ form.statements) (r : Renaming) :
    R (Option Inlined) (Run.inlineCallee inline r p) (Run.inlineCallee inline' r p) := by
  unfold Run.inlineCallee
  rcases hdemand : (demand r p.statement.effect).call with _ | ⟨callee, rest⟩
  · exact h.pure none
  · exact h.callee p hp r callee rest hdemand

/-! ## statements -/

theorem perform (r : Renaming) (offset : Nat) (s : PathState) (effect : Effect) :
    R PathState (Run.perform r site stack offset s effect)
      (Run.perform r site stack offset s effect) := by
  cases effect with
  | assign source target => exact h.record offset _ _ s
  | _ => exact h.pure _

theorem extraLines (hp : p ∈ form.statements) (r : Renaming) :
    R (List Line) (Run.extraLines e r site p) (Run.extraLines e' r site p) := by
  unfold Run.extraLines
  rcases hdemand : (demand r p.statement.effect).allocated with _ | ⟨type, target⟩
  · exact h.pure []
  · exact h.bind (h.pointer p hp r type target hdemand) fun term => h.pure _

theorem continueWith (r : Renaming) (p : Placed) (extra : List Line) (inlined : Option Inlined)
    (s : PathState) : R (List PathState) (Run.continueWith site stack r p extra inlined s)
      (Run.continueWith site stack r p extra inlined s) := by
  refine h.bind (h.perform r p.statement.offset _ p.statement.effect) fun t => ?_
  rcases (demand r p.statement.effect).call with _ | ⟨callee, arguments, target⟩
  · exact h.pure [t]
  · cases inlined with
    | none => exact h.pure [t]
    | some inlined =>
        exact h.mapM (fun path => h.splice p.statement.offset inlined arguments target t path) _

theorem advance {next next' : PathState → Run (List PathState)}
    (hnext : ∀ s, R (List PathState) (next s) (next' s)) (count : Nat) (states : List PathState) :
    R (List PathState) (Run.advance e form.method next count states)
      (Run.advance e' form.method next' count states) := by
  induction states generalizing count with
  | nil => exact h.pure []
  | cons s states ih =>
      unfold Run.advance
      split
      · exact h.bind (ih _) fun _ => h.pure _
      · exact h.bind (hnext s) fun continued => h.bind (h.limit _) fun _ =>
          h.bind (ih _) fun _ => h.pure _

theorem applyStatement (hp : p ∈ form.statements) (r : Renaming) (states : List PathState) :
    R (List PathState) (Run.applyStatement e form site stack inline r p states)
      (Run.applyStatement e' form site stack inline' r p states) := by
  rw [applyStatement_eq, applyStatement_eq]
  exact h.bind (h.extraLines hp r) fun extra => h.bind (h.inlineCallee hp r) fun inlined =>
    h.advance (h.continueWith r p extra inlined) 0 states

theorem applyStatements {ps : List Placed} (hps : ∀ p ∈ ps, p ∈ form.statements) (r : Renaming)
    (states : List PathState) :
    R (List PathState) (Run.applyStatements e form site stack inline r ps states)
      (Run.applyStatements e' form site stack inline' r ps states) := by
  induction ps generalizing states with
  | nil => exact h.pure states
  | cons p ps ih =>
      rw [List.forall_mem_cons] at hps
      exact h.bind (h.applyStatement hps.1 r states) (ih hps.2)

/-! ## paths -/

theorem applySteps {steps : List PathStep} (hsteps : ∀ step ∈ steps, Q step) (r : Renaming)
    (states : List PathState) :
    R (List PathState) (Run.applySteps e form site stack inline r steps states)
      (Run.applySteps e' form site stack inline' r steps states) := by
  induction steps generalizing states with
  | nil => exact h.pure states
  | cons step steps ih =>
      rw [List.forall_mem_cons] at hsteps
      unfold Run.applySteps
      cases hstep : stepStatements form step with
      | error err => exact h.missing step err hsteps.1 hstep
      | ok ps =>
          have hps : ∀ p ∈ ps, p ∈ form.statements := fun p hp =>
            mem_statements_of_stepStatements hstep hp
          have hrun := h.bind (h.applyStatements hps r states) (ih hsteps.2)
          exact hrun

theorem renderPath {skeleton : Skeleton} (hsteps : ∀ step ∈ skeleton.steps, Q step) :
    R (List PathState) (Run.renderPath e form site stack inline skeleton)
      (Run.renderPath e' form site stack inline' skeleton) :=
  h.bind (h.applySteps hsteps _ _) fun _ => h.pure _

/-- **Related renderings**: the paths that follow any of several skeletons. -/
theorem renderAll {skeletons : List Skeleton}
    (hsteps : ∀ s ∈ skeletons, ∀ step ∈ s.steps, Q step) (count : Nat) :
    R (List PathState) (Run.renderAll e form site stack inline count skeletons)
      (Run.renderAll e' form site stack inline' count skeletons) := by
  induction skeletons generalizing count with
  | nil => exact h.pure []
  | cons skeleton rest ih =>
      rw [List.forall_mem_cons] at hsteps
      exact h.bind (h.renderPath hsteps.1) fun states => h.bind (h.limit _) fun _ =>
        h.bind (ih hsteps.2 _) fun _ => h.pure _

end Relates

end Run

end Pathwise
