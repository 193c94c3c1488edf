import Mathlib.Algebra.GroupWithZero.Nat
import Mathlib.Algebra.Order.BigOperators.Group.List
import Mathlib.Algebra.Order.Group.Nat
import Pathwise.Proofs.Coverable.Engine
import Pathwise.Proofs.Limit
import Pathwise.Proofs.Scoping.Path

/-!
# Pathwise.Proofs.Unfolding

The paths of a method with its callees unfolded, one path at a time and without
any bound on the depth (`Reference.unfolding`): the statements of a skeleton are
executed in order, a call forks a path into one continuation for each path of the
callee, and a continuation whose callee did not return ends there.

The recursion is well-founded, since opening an invocation leaves fewer that can
still be opened (`Engine.remaining_lt`). A run that renders to at least that depth
is therefore never cut short (`Run.agrees_render_unfolding`).
-/

namespace Pathwise

/-! ## invocations that can be opened -/

namespace Engine

/-- The form that a call unfolds: that of the callee, unless it is a stand-in or as many
invocations of the callee are open as the options allow. -/
def unfolds? (e : Engine) (stack : List Site) (callee : MethodRef) : Option Form :=
  (e.form? callee).filter fun form => !form.isStandIn &&
    decide (stack.countP (·.method = callee) < e.options.maxRecursionDepth)

/-- How many more invocations can be open at once, over all resolved methods. -/
def remaining (e : Engine) (stack : List Site) : Nat :=
  e.forms.forms.keys.foldr (fun m n =>
    e.options.maxRecursionDepth - stack.countP (·.method = m) + n) 0

variable {e : Engine} {stack : List Site} {callee : MethodRef} {form : Form}

/-- When calls are replaced by paths. -/
theorem unfolds?_eq_some : e.unfolds? stack callee = some form ↔
    e.form? callee = some form ∧ form.isStandIn = false ∧
      stack.countP (·.method = callee) < e.options.maxRecursionDepth := by
  simp [unfolds?, Option.filter_eq_some_iff]

theorem remaining_eq_sum (e : Engine) (stack : List Site) : e.remaining stack =
    (e.forms.forms.keys.map fun m =>
      e.options.maxRecursionDepth - stack.countP (·.method = m)).sum := by
  rw [List.sum, List.foldr_map]
  rfl

/-- The depth suffices. -/
theorem remaining_le_inliningDepth (e : Engine) (stack : List Site) :
    e.remaining stack ≤ e.inliningDepth := by
  rw [remaining_eq_sum]
  refine (List.sum_le_card_nsmul _ e.options.maxRecursionDepth ?_).trans ?_
  · intro n hn
    obtain ⟨m, -, rfl⟩ := List.mem_map.1 hn
    exact Nat.sub_le _ _
  · simp [inliningDepth, FormRepository.size, Table.size, Table.keys]

/-- Opening an invocation leaves fewer to open. -/
theorem remaining_lt (h : e.unfolds? stack callee = some form) {site : Site}
    (hsite : site.method = callee) : e.remaining (stack ++ [site]) < e.remaining stack := by
  obtain ⟨hform, -, hopen⟩ := unfolds?_eq_some.1 h
  have hmem : callee ∈ e.forms.forms.keys :=
    List.mem_map.2 ⟨_, Table.mem_entries_of_find? hform, rfl⟩
  rw [remaining_eq_sum, remaining_eq_sum]
  refine List.sum_lt_sum _ _ (fun m _ => ?_) ⟨callee, hmem, ?_⟩
  · rw [List.countP_append]
    omega
  · rw [List.countP_append, List.countP_singleton]
    simp only [hsite, decide_true, if_true]
    omega

end Engine

/-! ## unfolding -/

namespace Reference

/-- The site of a call, with the number that a context gives it. -/
def calleeSite (c : Context) (site : Site) (offset : Nat) (callee : MethodRef) : Site :=
  { method := callee
    sequence := site.sequence
    callOrder := ((c.sites.find? ⟨site, offset, callee⟩).map (·.callOrder)).getD default }

/-- Execute statements one after the other on one path. It forks at a call that is unfolded, and a
path that has left its method ends at once. -/
def execute (e : Engine) (c : Context) (site : Site) (stack : List Site) (inline : Inliner)
    (r : Renaming) : List Placed → PathState → List PathState
  | [], s => [s]
  | p :: rest, s =>
    let call := (Run.demand r p.statement.effect).call
    let forks := afterCall c site stack p.statement.offset (reach e c site stack r p s) call
      (call.bind fun x => inline p.statement.offset x.1)
    forks.flatMap fun t =>
      if t.exit.isSome then [t] else execute e c site stack inline r rest t

/-- **The paths of a form**, with the paths of every callee unfolded, in the order of the
skeletons. -/
def unfolding (e : Engine) (c : Context) (form : Form) (site : Site) (stack : List Site) :
    List PathState :=
  let inline : Inliner := fun offset callee =>
    (e.unfolds? stack callee).attach.map fun form =>
      let calleeSite := calleeSite c site offset callee
      { form := form.1, site := calleeSite
        paths := unfolding e c form.1 calleeSite (stack ++ [calleeSite]) }
  (form.explore (form.blocks.length + 1) .entry []).flatMap fun skeleton =>
    (execute e c site stack inline (.of form site)
      (skeleton.steps.flatMap (stepStatements form)) {}).map (complete skeleton.exit)
termination_by e.remaining stack
decreasing_by exact Engine.remaining_lt form.2 rfl

/-- The unfolded paths of a callee. -/
def unfoldCallee (e : Engine) (c : Context) (site : Site) (stack : List Site) : Inliner :=
  fun offset callee => (e.unfolds? stack callee).map fun form =>
    let calleeSite := calleeSite c site offset callee
    { form, site := calleeSite
      paths := unfolding e c form calleeSite (stack ++ [calleeSite]) }

variable {e : Engine} {c : Context} {site : Site} {stack : List Site}

/-- A path that has left its method stays as it is. -/
theorem statements_of_exit {inline : Inliner} {r : Renaming} (ps : List Placed) {s : PathState}
    (hs : s.exit.isSome) : statements e c site stack inline r ps s = [s] := by
  induction ps with
  | nil => rfl
  | cons p ps ih =>
      have hstays : statement e c site stack inline r p s = [s] := if_pos hs
      rw [statements, hstays, List.flatMap_singleton, ih]

/-- Executing a path to its end is the same as continuing all paths statement by statement. -/
theorem execute_eq_statements (inline : Inliner) (r : Renaming) (ps : List Placed) {s : PathState}
    (hs : s.exit = none) :
    execute e c site stack inline r ps s = statements e c site stack inline r ps s := by
  induction ps generalizing s with
  | nil => rfl
  | cons p ps ih =>
      have hopen : ¬ s.exit.isSome := by simp [hs]
      rw [execute, statements, statement, if_neg hopen]
      refine congrArg (List.flatMap · _) (funext fun t => ?_)
      split
      · next hexit => exact (statements_of_exit ps hexit).symm
      · next hexit => exact ih (Option.not_isSome_iff_eq_none.1 hexit)

/-- Paths with those of callees. -/
theorem unfolding_eq_allPaths (e : Engine) (c : Context) (form : Form) (site : Site)
    (stack : List Site) : unfolding e c form site stack =
      allPaths e c form site stack (unfoldCallee e c site stack) := by
  have hinline : (fun offset callee => (e.unfolds? stack callee).attach.map fun form =>
      let calleeSite := calleeSite c site offset callee
      ({ form := form.1, site := calleeSite
         paths := unfolding e c form.1 calleeSite (stack ++ [calleeSite]) } : Inlined)) =
      unfoldCallee e c site stack := by
    funext offset callee
    unfold unfoldCallee
    cases e.unfolds? stack callee <;> rfl
  rw [unfolding, allPaths]
  refine congrArg (List.flatMap · _) (funext fun skeleton => ?_)
  rw [path, steps_eq_statements, ← execute_eq_statements _ _ _ rfl, ← hinline]

end Reference

/-! ## rendering agrees with unfolding -/

namespace Run

/-- Of a continuation only those values matter that the reference of the first part can have. -/
theorem Agrees.bind_within {α β : Type} {x : Run α} {v : Context → α} {f : α → Run β}
    {w : α → Context → β} {P : α → Prop} (hx : Agrees x v) (hv : ∀ c, P (v c))
    (hf : ∀ a, P a → Agrees (f a) (w a)) (hother : ∀ a, ∃ w', Agrees (f a) w') :
    Agrees (x >>= f) fun c => w (v c) c := by
  classical
  choose w' hw' using hother
  have hall : ∀ a, Agrees (f a) fun c => if P a then w a c else w' a c := by
    intro a
    by_cases ha : P a
    · simpa only [if_pos ha] using hf a ha
    · simpa only [if_neg ha] using hw' a
  exact (hx.bind hall).congr fun c => if_pos (hv c)

/-- Sites of callees agree. -/
theorem agrees_calleeSite (site : Site) (offset : Nat) (callee : MethodRef) :
    Agrees (withContext (·.callSite site offset callee))
      fun c => Reference.calleeSite c site offset callee := by
  refine .withContext (fun c => .callSite c site offset callee)
    (fun c => c.le_callSite site offset callee) (fun c d hc hd => ?_)
    fun _ d _ _ hle => ⟨d.skeletons, Context.callSite_again hle⟩
  have hstored := c.find?_callSite site offset callee
  obtain ⟨hmethod, hsequence⟩ := (hc.of_callSite site offset callee).sites _ _ hstored
  unfold Reference.calleeSite
  rw [hd.site _ _ hstored]
  exact congrArg₂ (Site.mk · · _) hmethod.symm hsequence.symm

/-- Callees are unfolded, if that is how the forms of all that can be opened are rendered. -/
theorem agrees_inlineWith_unfoldCallee {e : Engine} {stack : List Site}
    {render : Form → Site → List Site → Run (List PathState)}
    (hrender : ∀ callee form site, e.unfolds? stack callee = some form → site.method = callee →
      Agrees (render form site (stack ++ [site]))
        fun c => Reference.unfolding e c form site (stack ++ [site]))
    (hother : ∀ form site stack, ∃ v, Agrees (render form site stack) v) (site : Site) :
    InlinersAgree (inlineWith e render site stack)
      fun c => Reference.unfoldCallee e c site stack := by
  intro offset callee
  unfold inlineWith Reference.unfoldCallee
  cases hform : e.form? callee with
  | none => exact .throw _ _
  | some form =>
      simp only
      by_cases hstandIn : form.isStandIn = true
      · have hnone : e.unfolds? stack callee = none := by simp [Engine.unfolds?, hform, hstandIn]
        rw [if_pos hstandIn, hnone]
        exact .pure none
      · by_cases hopen : e.options.maxRecursionDepth ≤ stack.countP (·.method = callee)
        · have hnone : e.unfolds? stack callee = none := by simp [Engine.unfolds?, hform, hopen]
          rw [if_neg hstandIn, if_pos hopen, hnone]
          exact .pure none
        · have hunfolds : e.unfolds? stack callee = some form :=
            Engine.unfolds?_eq_some.2 ⟨hform, by simpa using hstandIn, Nat.not_le.1 hopen⟩
          rw [if_neg hstandIn, if_neg hopen, hunfolds]
          refine (agrees_calleeSite site offset callee).bind_within
            (P := fun s => s.method = callee)
            (w := fun s c =>
              some (Inlined.mk form s (Reference.unfolding e c form s (stack ++ [s]))))
            (fun _ => rfl) (fun s hs => ?_) fun s => ?_
          · exact (hrender callee form s hunfolds hs).bind fun paths =>
              .pure (some (Inlined.mk form s paths))
          · obtain ⟨v, hv⟩ := hother form s (stack ++ [s])
            exact ⟨_, hv.bind fun paths => .pure (some (Inlined.mk form s paths))⟩

/-- **Rendering agrees with unfolding**, if it goes at least as deep as invocations can be
opened. -/
theorem agrees_render_unfolding {e : Engine} (depth : Nat) (form : Form) (site : Site)
    {stack : List Site} (hdepth : e.remaining stack ≤ depth) :
    Agrees (render e depth form site stack)
      fun c => Reference.unfolding e c form site stack := by
  induction depth generalizing form site stack with
  | zero =>
      have hinline : InlinersAgree (inlineWith e (fun _ _ _ => Pure.pure []) site stack)
          fun c => Reference.unfoldCallee e c site stack := by
        refine agrees_inlineWith_unfoldCallee (fun callee form s h hs => ?_)
          (fun _ _ _ => ⟨_, .pure []⟩) site
        -- no invocation can be opened any more
        have hlt := Engine.remaining_lt h hs
        omega
      exact (agrees_renderForm e form site stack hinline).congr fun c =>
        (Reference.unfolding_eq_allPaths e c form site stack).symm
  | succ depth ih =>
      have hinline : InlinersAgree (inlineWith e (render e depth) site stack)
          fun c => Reference.unfoldCallee e c site stack := by
        refine agrees_inlineWith_unfoldCallee (fun callee form s h hs => ih form s ?_)
          (fun form s stack => ⟨_, agrees_render e depth form s stack⟩) site
        have hlt := Engine.remaining_lt h hs
        omega
      exact (agrees_renderForm e form site stack hinline).congr fun c =>
        (Reference.unfolding_eq_allPaths e c form site stack).symm

end Run

/-! ## runs -/

namespace Engine

/-- Render every path of a form at a site, with callees inlined: the result, and the context after
it. -/
def renderAt (e : Engine) (form : Form) (site : Site) (stack : List Site) (c : Context) :
    Except CoverageError (List PathState) × Context :=
  (Run.render e e.inliningDepth form site stack).exec c

/-- **Inlining is unfolding**: if a run succeeds, it returns the unfolded paths, with the numbers of
the context it leads to, and every larger limit gives the same. A run of an engine that lacks
nothing fails only if there are more paths than the limit allows. -/
theorem renderAt_eq_unfolding {e : Engine} {m : MethodRef} {form : Form}
    (hform : e.form? m = some form) {c : Context} (hc : c.Used) (site : Site)
    (stack : List Site) :
    (e.renderAt form site stack c).2.Used ∧
    (∀ states, (e.renderAt form site stack c).1 = .ok states →
      states = Reference.unfolding e (e.renderAt form site stack c).2 form site stack ∧
      ∀ limit, e.options.maxPaths ≤ limit →
        ((e.allowing limit).renderAt form site stack c).1 = .ok states) ∧
    (e.Coverable → ∀ err, (e.renderAt form site stack c).1 = .error err →
      ∃ method, err = .pathLimit method e.options.maxPaths) := by
  have hagrees := Run.agrees_render_unfolding e.inliningDepth form site
    (e.remaining_le_inliningDepth stack)
  refine ⟨hc.steps (hagrees.steps c), fun states hstates => ⟨?_, fun limit hle => ?_⟩,
    fun he err herr => ?_⟩
  · exact (hagrees.value c states hc.sound hstates _ (Context.Le.refl _)).symm
  · have hsame : c.SameNumbers c := ⟨hc.sound, hc.sound, rfl⟩
    have hlifts := Run.lifts_render hle e.inliningDepth form site stack
    obtain ⟨d, hd, -⟩ := hlifts.value c c _ states hsame (Prod.ext hstates rfl)
    -- the depth does not depend on the limit
    change ((Run.render (e.allowing limit) e.inliningDepth form site stack).exec c).1 = _
    rw [hd]
  · have hsafe := Run.safe_render he.provisioned e.inliningDepth hform site stack
    unfold renderAt at herr
    obtain ⟨states, hstates⟩ | ⟨method, limit, hlimit⟩ := hsafe.result c hc.sound
    · rw [hstates] at herr
      contradiction
    · have hlifts :=
        Run.lifts_render (Nat.le_refl e.options.maxPaths) e.inliningDepth form site stack
      obtain rfl := hlifts.error c method limit hlimit
      exact ⟨method, Except.error.inj (herr.symm.trans hlimit)⟩

end Engine

namespace Sample

/-- Runs itself if its argument is true. -/
def descend : MethodRef := .static owner "Descend" [.bool] .void

/-- A method that may call itself before it returns. -/
def descending : Program :=
  Program.empty.addMethod
    { method := descend
      blocks := [
        { index := 0
          instructions := [⟨0, .branch .ifTrue, none, [argument]⟩]
          successors := [1, 2] },
        { index := 1
          instructions := [⟨1, .call descend false, none, [argument]⟩, ⟨2, .ret, none, []⟩]
          successors := [] },
        { index := 2, instructions := [⟨3, .ret, none, []⟩], successors := [] } ] }

/-- The engine that has resolved `descend`. -/
def descendEngine : Engine := ((Engine.new descending {}).perform (.method descend [] [])).2

theorem coverable_descendEngine : descendEngine.Coverable :=
  (Engine.coverable_new descending {}).perform (Engine.Request.IsUnaided.sound ⟨rfl, rfl⟩)

/-- Two invocations of `descend` may be open at once: it returns at the first, at the second, or at
the second with a call that stays unconstrained. -/
theorem renderAt_descend : ∃ form, descendEngine.form? descend = some form ∧
    (descendEngine.renderAt form ⟨descend, 0, 0⟩ [⟨descend, 0, 0⟩] .empty).1 =
      .ok (Reference.unfolding descendEngine
        (descendEngine.renderAt form ⟨descend, 0, 0⟩ [⟨descend, 0, 0⟩] .empty).2 form
        ⟨descend, 0, 0⟩ [⟨descend, 0, 0⟩]) ∧
    ((descendEngine.renderAt form ⟨descend, 0, 0⟩ [⟨descend, 0, 0⟩] .empty).1.toOption.map
      List.length) = some 3 := by
  have hcount : (descendEngine.form? descend).bind (fun form =>
      (descendEngine.renderAt form ⟨descend, 0, 0⟩ [⟨descend, 0, 0⟩] .empty).1.toOption.map
        List.length) = some 3 := by decide +kernel
  obtain ⟨form, hform, hcount⟩ := Option.bind_eq_some_iff.1 hcount
  obtain ⟨-, hok, hlimit⟩ := Engine.renderAt_eq_unfolding hform used_empty ⟨descend, 0, 0⟩
    [⟨descend, 0, 0⟩]
  cases hrun : (descendEngine.renderAt form ⟨descend, 0, 0⟩ [⟨descend, 0, 0⟩] .empty).1 with
  | ok states => exact ⟨form, hform, hrun.trans (congrArg Except.ok (hok states hrun).1), hcount⟩
  | error err =>
      obtain ⟨method, rfl⟩ := hlimit coverable_descendEngine err hrun
      rw [hrun] at hcount
      contradiction

/-- What is allocated. -/
def item : TypeRef := .named "Sample" "Item" []

/-- The constructor that is run, of another type. -/
def initPart : MethodRef := .member (.named "Sample" "Part" []) ".ctor" [] .void

/-- The method that allocates. -/
def make : MethodRef := .static (.named "Sample" "Factory" []) "Make" [] .void

/-- Here `make` puts a new item into a slot that was declared with another type, so its form does
not refer to the type of items. -/
def workshop : Program :=
  (((Program.empty.addType
      { type := .named "Sample" "Part" [], base := none, fields := [],
        isValueType := false }).addType
      { type := item, base := none, fields := [], isValueType := false }).addMethod
      { method := initPart
        blocks :=
          [{ index := 0, instructions := [⟨0, .ret, none, []⟩], successors := [] }] }).addMethod
    { method := make
      blocks := [
        { index := 0
          instructions := [⟨0, .constant .null, some ⟨.stack 0, .object⟩, []⟩,
            ⟨1, .newObject initPart, some ⟨.stack 0, item⟩, []⟩, ⟨2, .ret, none, []⟩]
          successors := [] }] }

/-- An engine that got `make` from a handler. -/
def supplied : Engine :=
  ((Engine.new .empty {}).perform (.method make [.external workshop] [.external workshop])).2

/-- Nothing is missing in the engine, but the type of what `make` allocates is not known. -/
theorem unresolved_item : supplied.Closed ∧ ∃ form, supplied.form? make = some form ∧
    (supplied.renderAt form ⟨make, 0, 0⟩ [⟨make, 0, 0⟩] .empty).1 =
      .error (.unresolvedType item) := by
  constructor
  · refine (Engine.closed_new .empty {}).perform fun h hh => ?_
    rw [List.mem_singleton.1 hh]
    exact TypeHandler.faithful_external workshop
  · have hrun : (supplied.form? make).map (fun form =>
        (supplied.renderAt form ⟨make, 0, 0⟩ [⟨make, 0, 0⟩] .empty).1) =
        some (.error (.unresolvedType item)) := by decide +kernel
    obtain ⟨form, hform, hrun⟩ := Option.map_eq_some_iff.1 hrun
    exact ⟨form, hform, hrun⟩

end Sample

end Pathwise
