import Mathlib.Data.List.Pairwise
import Pathwise.Proofs.Filled
import Pathwise.Proofs.Guards
import Pathwise.Proofs.Prune
import Pathwise.Proofs.Reference

/-!
# Pathwise.Proofs.Divergence

Two paths of one run are the same or part: their assertions agree up to the
guards of two edges of one block, and those exclude each other
(`Reference.apart_render`). Paths part at a block of the method itself or inside
a callee; a path that has left its method in a callee comes up again for every
way on from there, and is then the same path.

Hence pruning drops nothing but repeats (`Engine.cover_eq_eraseDups`).
-/

namespace Pathwise

open Guards (Excludes)

/-! ## asserted terms -/

/-- The term that a line asserts. -/
def Line.term? : Line → Option Sexp
  | .declare .. => none
  | .assert term => some term

namespace PathState

/-- The terms asserted along a path, in order. -/
def asserted (s : PathState) : List Sexp := s.lines.toList.filterMap Line.term?

@[simp]
theorem asserted_push (s : PathState) (l : Line) :
    (s.push l).asserted = s.asserted ++ l.term?.toList := by
  unfold push
  split
  · next h =>
      cases l with
      | declare symbol sort => simp [Line.term?]
      | assert term => simp [Line.isDeclaration] at h
  · cases l <;> simp [asserted, Line.term?]

@[simp]
theorem asserted_pushAll (s : PathState) (ls : List Line) :
    (s.pushAll ls).asserted = s.asserted ++ ls.filterMap Line.term? := by
  induction ls generalizing s with
  | nil => simp [pushAll]
  | cons l ls ih =>
      have hcons : s.pushAll (l :: ls) = (s.push l).pushAll ls := rfl
      rw [hcons, ih, asserted_push]
      cases h : l.term? <;> simp [h]

@[simp]
theorem exit_pushAll (s : PathState) (ls : List Line) : (s.pushAll ls).exit = s.exit := by
  induction ls generalizing s with
  | nil => rfl
  | cons l ls ih =>
      have hpush : (s.push l).exit = s.exit := by
        unfold push
        split <;> rfl
      exact (ih _).trans hpush

/-- Assertions of paths are joined. -/
@[simp]
theorem asserted_append (s path : PathState) :
    (s.append path).asserted = s.asserted ++ path.asserted := by
  change (s.pushAll path.lines.toList).asserted = _
  rw [asserted_pushAll]
  rfl

end PathState

/-! ## paths that are the same or part -/

/-- Any two of some paths are the same or exclude each other. -/
def Apart (states : List PathState) : Prop :=
  ∀ s ∈ states, ∀ t ∈ states, s = t ∨ Excludes s.asserted t.asserted

/-- A way to continue paths: assertions are only added, the continuations of one path are apart,
and a path that has left stays. -/
structure Branching (next : PathState → List PathState) : Prop where
  grows : ∀ s, ∀ t ∈ next s, s.asserted <+: t.asserted
  apart : ∀ s, Apart (next s)
  stays : ∀ s, s.exit.isSome → next s = [s]

theorem apart_singleton (s : PathState) : Apart [s] := by
  intro t ht u hu
  rw [List.mem_singleton] at ht hu
  exact Or.inl (ht.trans hu.symm)

namespace Branching

variable {next next' : PathState → List PathState}

theorem pure : Branching fun s => [s] where
  grows s t ht := by
    obtain rfl := List.mem_singleton.1 ht
    exact List.prefix_refl _
  apart := apart_singleton
  stays _ _ := rfl

/-- Branching keeps paths apart. -/
theorem apart_flatMap (h : Branching next) {states : List PathState} (hs : Apart states) :
    Apart (states.flatMap next) := by
  intro x hx y hy
  obtain ⟨s, hs', hx⟩ := List.mem_flatMap.1 hx
  obtain ⟨t, ht', hy⟩ := List.mem_flatMap.1 hy
  obtain rfl | hst := hs s hs' t ht'
  · exact h.apart s x hx y hy
  · exact Or.inr (hst.extend (h.grows s x hx) (h.grows t y hy))

/-- Branching twice is branching. -/
theorem comp (h : Branching next) (h' : Branching next') :
    Branching fun s => (next s).flatMap next' where
  grows s x hx := by
    obtain ⟨t, ht, hx⟩ := List.mem_flatMap.1 hx
    exact (h.grows s t ht).trans (h'.grows t x hx)
  apart s := h'.apart_flatMap (h.apart s)
  stays s hs := by simp [h.stays s hs, h'.stays s hs]

end Branching

/-- Two paths that were continued in different ways: the same one that had left before, or two that
part. -/
def Diverged (s t : PathState) : Prop :=
  s = t ∧ s.exit.isSome ∨ Excludes s.asserted t.asserted

/-- Whatever follows, diverged paths stay so. -/
theorem Diverged.onward {next next' : PathState → List PathState} (h : Branching next)
    (h' : Branching next') {s t x y : PathState} (hst : Diverged s t) (hx : x ∈ next s)
    (hy : y ∈ next' t) : Diverged x y := by
  obtain ⟨rfl, hexit⟩ | hexcludes := hst
  · rw [h.stays s hexit, List.mem_singleton] at hx
    rw [h'.stays s hexit, List.mem_singleton] at hy
    subst hx hy
    exact Or.inl ⟨rfl, hexit⟩
  · exact Or.inr (hexcludes.extend (h.grows s x hx) (h'.grows t y hy))

theorem Statement.lines_eq {st : Statement} (h : st.isDeclaration = false) :
    st.lines = st.terms.map .assert := by
  unfold Statement.isDeclaration Statement.slot? at h
  unfold Statement.lines Statement.terms
  cases hbody : st.body with
  | declaration slot symbol sort => simp [hbody] at h
  | assertion terms effect => rfl
  | branch terms effect => rfl

/-- Every constant of an invocation carries a mark, so none is an operator. -/
def Form.Marked (f : Form) : Prop := ∀ x ∈ f.locals, '!' ∈ x.toList

namespace Reference

variable {e : Engine} {c : Context} {form : Form} {site : Site} {stack : List Site}
  {inline : Inliner} {r : Renaming} {s : PathState}

/-! ## statements -/

@[simp]
theorem asserted_record (offset : Nat) (source : Sexp) (target : String) (s : PathState) :
    (record c site stack offset source target s).asserted = s.asserted := rfl

@[simp]
theorem asserted_perform (offset : Nat) (s : PathState) (effect : Effect) :
    (perform c r site stack offset s effect).asserted = s.asserted := by
  cases effect <;> rfl

@[simp]
theorem exit_perform (offset : Nat) (s : PathState) (effect : Effect) :
    (perform c r site stack offset s effect).exit = s.exit := by
  cases effect <;> rfl

theorem prefix_asserted_bindParameters (offset : Nat) (bound : List (Form.Parameter × Sexp))
    (s : PathState) :
    s.asserted <+: (bindParameters c r site stack offset bound s).asserted := by
  induction bound generalizing s with
  | nil => exact List.prefix_refl _
  | cons b bound ih =>
      refine List.IsPrefix.trans ?_ (ih _)
      simp

theorem prefix_asserted_reach (p : Placed) (s : PathState) :
    s.asserted <+: (reach e c site stack r p s).asserted := by
  simp [reach, List.append_assoc]

theorem prefix_asserted_enter (offset : Nat) (inlined : Inlined) (arguments : List Sexp)
    (s : PathState) :
    s.asserted <+: (enter c site stack offset inlined arguments s).asserted := by
  refine List.IsPrefix.trans ?_ (prefix_asserted_bindParameters offset _ _)
  simp

theorem prefix_asserted_comeBack (offset : Nat) (target : Option String) (path s : PathState) :
    s.asserted <+: (comeBack c site stack offset target path s).asserted := by
  have hreturn : s.asserted <+:
      (bindResult c site stack offset target path.returnValue s).asserted := by
    cases target with
    | none => exact List.prefix_refl _
    | some target =>
        cases path.returnValue with
        | none => exact List.prefix_refl _
        | some value => simp [bindResult]
  unfold comeBack
  cases path.exit with
  | none => exact hreturn
  | some exit =>
      cases exit with
      | returned => exact hreturn
      | _ => exact List.prefix_refl _

/-- A spliced path has the assertions of the callee behind those of the caller. -/
theorem prefix_asserted_splice (offset : Nat) (inlined : Inlined) (arguments : List Sexp)
    (target : Option String) (s path : PathState) :
    (enter c site stack offset inlined arguments s).asserted ++ path.asserted <+:
      (splice c site stack offset inlined arguments target s path).asserted := by
  rw [← PathState.asserted_append]
  exact prefix_asserted_comeBack offset target path _

/-- The paths of every callee are apart. -/
def InlinesApart (inline : Inliner) : Prop :=
  ∀ offset callee inlined, inline offset callee = some inlined → Apart inlined.paths

theorem prefix_asserted_of_mem_afterCall {offset : Nat} {s t : PathState}
    {call : Option (MethodRef × List Sexp × Option String)} {inlined : Option Inlined}
    (ht : t ∈ afterCall c site stack offset s call inlined) : s.asserted <+: t.asserted := by
  unfold afterCall at ht
  split at ht
  · obtain ⟨path, -, rfl⟩ := List.mem_map.1 ht
    refine List.IsPrefix.trans ?_ (prefix_asserted_splice _ _ _ _ _ path)
    exact (prefix_asserted_enter _ _ _ _).trans (List.prefix_append _ _)
  · obtain rfl := List.mem_singleton.1 ht
    exact List.prefix_refl _

/-- Paths stay apart behind calls. -/
theorem apart_afterCall {offset : Nat} {call : Option (MethodRef × List Sexp × Option String)}
    {inlined : Option Inlined} (hpaths : ∀ i, inlined = some i → Apart i.paths) :
    Apart (afterCall c site stack offset s call inlined) := by
  unfold afterCall
  split
  · next callee arguments target i =>
      intro t ht u hu
      obtain ⟨path, hpath, rfl⟩ := List.mem_map.1 ht
      obtain ⟨path', hpath', rfl⟩ := List.mem_map.1 hu
      obtain rfl | hexcludes := hpaths i rfl path hpath path' hpath'
      · exact Or.inl rfl
      · exact Or.inr ((hexcludes.prepend _).extend (prefix_asserted_splice _ _ _ _ _ path)
          (prefix_asserted_splice _ _ _ _ _ path'))
  · exact apart_singleton s

/-- A statement branches. -/
theorem branching_statement (hinline : InlinesApart inline) (p : Placed) :
    Branching (statement e c site stack inline r p) where
  grows s t ht := by
    unfold statement at ht
    split at ht
    · obtain rfl := List.mem_singleton.1 ht
      exact List.prefix_refl _
    · have hreach : s.asserted <+: (reach e c site stack r p s).asserted :=
        prefix_asserted_reach p s
      exact hreach.trans (prefix_asserted_of_mem_afterCall ht)
  apart s := by
    unfold statement
    split
    · exact apart_singleton s
    · refine apart_afterCall fun i hi => ?_
      obtain ⟨⟨callee, _⟩, -, hi⟩ := Option.bind_eq_some_iff.1 hi
      exact hinline _ callee i hi
  stays s hs := by simp [statement, hs]

theorem branching_statements (hinline : InlinesApart inline) (ps : List Placed) :
    Branching (statements e c site stack inline r ps) := by
  induction ps with
  | nil => exact .pure
  | cons p ps ih => exact (branching_statement hinline p).comp ih

/-- The steps of a path branch. -/
theorem branching_steps (hinline : InlinesApart inline) (path : List PathStep) :
    Branching (steps e c form site stack inline path) := by
  induction path with
  | nil => exact .pure
  | cons step path ih => exact (branching_statements hinline _).comp ih

theorem statements_append (ps qs : List Placed) (s : PathState) :
    statements e c site stack inline r (ps ++ qs) s =
      (statements e c site stack inline r ps s).flatMap
        (statements e c site stack inline r qs) := by
  induction ps generalizing s with
  | nil => simp [statements]
  | cons p ps ih =>
      rw [List.cons_append, statements, statements, List.flatMap_assoc]
      exact congrArg (List.flatMap · _) (funext ih)

theorem steps_append (path path' : List PathStep) (s : PathState) :
    steps e c form site stack inline (path ++ path') s =
      (steps e c form site stack inline path s).flatMap
        (steps e c form site stack inline path') := by
  induction path generalizing s with
  | nil => simp [steps]
  | cons step path ih =>
      rw [List.cons_append, steps, steps, List.flatMap_assoc]
      exact congrArg (List.flatMap · _) (funext ih)

/-! ## guards -/

/-- A plain statement adds its terms to a path and leaves it open. -/
theorem statement_of_isPlain {p : Placed} (h : p.statement.IsPlain) (hs : s.exit = none) :
    ∃ t, statement e c site stack inline r p s = [t] ∧ t.exit = none ∧
      t.asserted = s.asserted ++ p.statement.terms.map r.term := by
  have hdemand : Run.demand r p.statement.effect = {} := by rw [h.2]; rfl
  refine ⟨reach e c site stack r p s, ?_, ?_, ?_⟩
  · simp [statement, hs, hdemand, afterCall]
  · simp [reach, hs]
  · simp [reach, extraLines, hdemand, Statement.lines_eq h.1, List.filterMap_map,
      Function.comp_def, Renaming.line, Line.rename, Line.term?, Renaming.term]

/-- So do several of them. -/
theorem statements_of_isPlain {ps : List Placed} (h : ∀ p ∈ ps, p.statement.IsPlain)
    (hs : s.exit = none) :
    ∃ t, statements e c site stack inline r ps s = [t] ∧
      t.asserted = s.asserted ++ (ps.flatMap (·.statement.terms)).map r.term := by
  induction ps generalizing s with
  | nil => exact ⟨s, rfl, by simp⟩
  | cons p ps ih =>
      rw [List.forall_mem_cons] at h
      obtain ⟨t, ht, hexit, hasserted⟩ : ∃ t, statement e c site stack inline r p s = [t] ∧
          t.exit = none ∧ t.asserted = s.asserted ++ p.statement.terms.map r.term :=
        statement_of_isPlain h.1 hs
      obtain ⟨u, hu, husserted⟩ := ih h.2 hexit
      refine ⟨u, by simp [statements, ht, hu], ?_⟩
      simp [husserted, hasserted]

/-! ## steps that part -/

theorem rename_operator (hmarked : form.Marked) {op : String}
    (hop : op ∈ ["not", "and", "<", "<=", ">="]) : (Renaming.of form site).symbol op = op := by
  refine if_neg fun hlocal => ?_
  have hmark := hmarked op hlocal
  simp only [List.mem_cons, List.not_mem_nil, or_false] at hop
  obtain rfl | rfl | rfl | rfl | rfl := hop <;> revert hmark <;> decide

/-- Two ways to leave a block: what they add to a path excludes each other, unless it has left
inside the block. -/
theorem diverged_stepStatements (hinline : InlinesApart inline) (hguarded : form.Guarded)
    (hmarked : form.Marked) {block : BlockId} {b : Block} {j k : Nat} {edge edge' : Edge}
    (hb : form.block? block = some b) (hj : b.successors[j]? = some edge)
    (hk : b.successors[k]? = some edge') (hne : j ≠ k) {s x y : PathState}
    (hx : x ∈ statements e c site stack inline (.of form site) (stepStatements form ⟨block, j⟩) s)
    (hy : y ∈ statements e c site stack inline (.of form site) (stepStatements form ⟨block, k⟩) s) :
    Diverged x y := by
  have hblock : b.Guarded := hguarded b (List.mem_of_find?_eq_some hb)
  simp only [stepStatements, hb, hj, hk] at hx hy
  rw [statements_append, List.mem_flatMap] at hx hy
  obtain ⟨u, hu, hx⟩ := hx
  obtain ⟨v, hv, hy⟩ := hy
  have hbranching : ∀ ps, Branching (statements e c site stack inline (.of form site) ps) :=
    branching_statements hinline
  have huv : Diverged u v ∨ u = v ∧ u.exit = none := by
    obtain rfl | huv := (hbranching _).apart s u hu v hv
    · cases hexit : u.exit with
      | some exit => exact Or.inl (Or.inl ⟨rfl, by simp [hexit]⟩)
      | none => exact Or.inr ⟨rfl, rfl⟩
    · exact Or.inl (Or.inr huv)
  obtain huv | ⟨rfl, hexit⟩ := huv
  · exact huv.onward (hbranching _) (hbranching _) hx hy
  · -- the path is still open here, so it meets the guards of both edges
    have hguards : ∀ edge ∈ b.successors, ∀ z ∈ statements e c site stack inline (.of form site)
        (b.guards edge.condition) u,
        z.asserted =
          u.asserted ++ (b.guardTerms edge.condition).map (Renaming.of form site).term := by
      intro edge hedge z hz
      obtain ⟨t, ht, hasserted⟩ : ∃ t, statements e c site stack inline (.of form site)
          (b.guards edge.condition) u = [t] ∧ t.asserted = u.asserted ++
            (b.guardTerms edge.condition).map (Renaming.of form site).term :=
        statements_of_isPlain (hblock.plain edge hedge) hexit
      rw [ht, List.mem_singleton] at hz
      rw [hz, hasserted]
    right
    rw [hguards edge (List.mem_of_getElem? hj) x hx, hguards edge' (List.mem_of_getElem? hk) y hy]
    exact ((hblock.excludes hj hk hne).rename fun op hop => rename_operator hmarked hop).prepend _

/-- Paths that follow different skeletons have diverged. -/
theorem diverged_steps (hinline : InlinesApart inline) (hguarded : form.Guarded)
    (hmarked : form.Marked) {a b : Skeleton} (hfork : Skeleton.Forked a b)
    (ha : form.Trail [] .entry a.steps a.exit) (hb : form.Trail [] .entry b.steps b.exit)
    {s x y : PathState} (hx : x ∈ steps e c form site stack inline a.steps s)
    (hy : y ∈ steps e c form site stack inline b.steps s) : Diverged x y := by
  obtain ⟨common, block, j, k, as, bs, hjk, has, hbs⟩ := hfork
  have hstep : (⟨block, j⟩ : PathStep) ∈ a.steps := by simp [has]
  have hstep' : (⟨block, k⟩ : PathStep) ∈ b.steps := by simp [hbs]
  obtain ⟨source, edge, hblock, hj⟩ := ha.exists_edge hstep
  obtain ⟨source', edge', hblock', hk⟩ := hb.exists_edge hstep'
  obtain rfl := Option.some.inj (hblock.symm.trans hblock')
  rw [has, steps_append, List.mem_flatMap] at hx
  rw [hbs, steps_append, List.mem_flatMap] at hy
  obtain ⟨u, hu, hx⟩ := hx
  obtain ⟨v, hv, hy⟩ := hy
  have hbranching : ∀ path, Branching (steps e c form site stack inline path) :=
    branching_steps hinline
  obtain rfl | huv := (hbranching common).apart s u hu v hv
  · obtain ⟨u', hu', hx⟩ := List.mem_flatMap.1 hx
    obtain ⟨v', hv', hy⟩ := List.mem_flatMap.1 hy
    exact (diverged_stepStatements hinline hguarded hmarked hblock hj hk hjk hu' hv').onward
      (hbranching as) (hbranching bs) hx hy
  · exact Diverged.onward (hbranching _) (hbranching _) (Or.inr huv) hx hy

/-! ## all paths -/

/-- The first exit stays. -/
theorem complete_eq_of_exit (h : s.exit.isSome) (exit exit' : ExitKind) :
    complete exit s = complete exit' s := by
  obtain ⟨left, hleft⟩ := Option.isSome_iff_exists.1 h
  simp [complete, hleft]

/-- The paths of a form are apart. -/
theorem apart_allPaths (hinline : InlinesApart inline) (hguarded : form.Guarded)
    (hmarked : form.Marked) : Apart (allPaths e c form site stack inline) := by
  intro s hs t ht
  obtain ⟨a, ha, hs⟩ := List.mem_flatMap.1 hs
  obtain ⟨b, hb, ht⟩ := List.mem_flatMap.1 ht
  obtain ⟨x, hx, rfl⟩ := List.mem_map.1 hs
  obtain ⟨y, hy, rfl⟩ := List.mem_map.1 ht
  by_cases hab : a = b
  · subst hab
    have hbranching : Branching (steps e c form site stack inline a.steps) :=
      branching_steps hinline a.steps
    obtain rfl | hexcludes := hbranching.apart {} x hx y hy
    · exact Or.inl rfl
    · exact Or.inr hexcludes
  · have hfork := (form.pairwise_forked_explore _ _ _).forall ha hb hab
    obtain ⟨rfl, hexit⟩ | hexcludes := diverged_steps hinline hguarded hmarked hfork
      (Form.trail_of_mem_explore ha) (Form.trail_of_mem_explore hb) hx hy
    · exact Or.inl (complete_eq_of_exit hexit a.exit b.exit)
    · exact Or.inr hexcludes

end Reference

/-- The guards of all forms of an engine are as encoded, and their constants marked. -/
def Engine.Encoded (e : Engine) : Prop :=
  ∀ m f, e.form? m = some f → f.Guarded ∧ f.Marked

theorem Engine.Filled.encoded {e : Engine} (h : e.Filled) : e.Encoded := by
  intro m f hf
  cases h.builds hf with
  | leftOut => exact ⟨Form.guarded_empty m, by simp [Form.Marked, Form.locals, Form.empty]⟩
  | encoded hg hl ht hf =>
      refine ⟨Form.guarded_of_ofGraph hf, fun x hx => ?_⟩
      obtain ⟨v, -, -, rfl⟩ := Form.mem_locals_of_ofGraph hf hx
      simp

namespace Reference

variable {e : Engine}

/-- A callee that is inlined has a form that is no stand-in, and a site. -/
theorem inlineWith_eq_some {c : Context} {render : Form → Site → List Site → List PathState}
    {site : Site} {stack : List Site} {offset : Nat} {callee : MethodRef} {inlined : Inlined}
    (h : inlineWith e c render site stack offset callee = some inlined) :
    e.form? callee = some inlined.form ∧ inlined.form.isStandIn = false ∧
      c.sites.find? ⟨site, offset, callee⟩ = some inlined.site ∧
      inlined.paths = render inlined.form inlined.site (stack ++ [inlined.site]) := by
  unfold inlineWith at h
  cases hform : e.form? callee with
  | none => simp [hform] at h
  | some form =>
      simp only [hform] at h
      split at h
      · contradiction
      · next hstandIn =>
          split at h
          · contradiction
          · obtain ⟨calleeSite, hsite, rfl⟩ := Option.map_eq_some_iff.1 h
            exact ⟨rfl, by simpa using hstandIn, hsite, rfl⟩

/-- Paths of callees are apart. -/
theorem inlinesApart_inlineWith (he : e.Encoded) (c : Context)
    {render : Form → Site → List Site → List PathState}
    (hrender : ∀ form site stack, form.Guarded → form.Marked → Apart (render form site stack))
    (site : Site) (stack : List Site) : InlinesApart (inlineWith e c render site stack) := by
  intro offset callee inlined h
  obtain ⟨hform, -, -, hpaths⟩ := inlineWith_eq_some h
  obtain ⟨hguarded, hmarked⟩ := he callee inlined.form hform
  rw [hpaths]
  exact hrender inlined.form _ _ hguarded hmarked

/-- **Paths part**: any two paths of a form, with callees inlined, are the same or exclude each
other. -/
theorem apart_render (he : e.Encoded) (c : Context) (depth : Nat) {form : Form}
    (hguarded : form.Guarded) (hmarked : form.Marked) (site : Site) (stack : List Site) :
    Apart (render e c depth form site stack) := by
  induction depth generalizing form site stack with
  | zero =>
      refine apart_allPaths (inlinesApart_inlineWith he c ?_ site stack) hguarded hmarked
      intro _ _ _ _ _ s hs
      contradiction
  | succ depth ih =>
      exact apart_allPaths (inlinesApart_inlineWith he c
        (fun form site stack hg hm => ih hg hm site stack) site stack) hguarded hmarked

end Reference

/-! ## groups of a run -/

namespace PathGroup

/-- The terms that a group asserts, in order. -/
def asserted (g : PathGroup) : List Sexp := g.lines.filterMap Line.term?

theorem assertions_eq_map_asserted (g : PathGroup) : g.assertions = g.asserted.map .assert := by
  unfold assertions asserted
  induction g.lines with
  | nil => rfl
  | cons l ls ih =>
      cases l with
      | declare symbol sort => exact ih
      | assert term => exact congrArg (Line.assert term :: ·) ih

end PathGroup

namespace Engine

variable {groups : List PathGroup} {m : MethodRef} {c : Context} {e : Engine}

/-- **Groups part**: any two groups of a run are the same or exclude each other. -/
theorem excludes_of_mem_renderGroups (he : e.Filled) (hc : c.Used)
    (h : (e.renderGroups m c).1 = .ok groups) {a b : PathGroup} (ha : a ∈ groups)
    (hb : b ∈ groups) :
    a = b ∨ Excludes a.asserted b.asserted := by
  obtain ⟨form, root, d, hform, -, -, -, rfl⟩ := renderGroups_eq_reference hc h
  obtain ⟨s, hs, rfl⟩ := List.mem_map.1 ha
  obtain ⟨t, ht, rfl⟩ := List.mem_map.1 hb
  obtain ⟨hguarded, hmarked⟩ := he.encoded m form hform
  obtain rfl | hexcludes := Reference.apart_render he.encoded d e.inliningDepth hguarded hmarked
    root [root] s hs t ht
  · exact Or.inl rfl
  · exact Or.inr hexcludes

/-- Of two groups of a run with the same exit, neither begins the other unless they are equal. -/
theorem separated_renderGroups (he : e.Filled) (hc : c.Used)
    (h : (e.renderGroups m c).1 = .ok groups) :
    PathGroup.Separated groups := by
  intro a ha b hb _ hprefix
  obtain rfl | hexcludes := excludes_of_mem_renderGroups he hc h ha hb
  · rfl
  · rw [PathGroup.assertions_eq_map_asserted, PathGroup.assertions_eq_map_asserted] at hprefix
    have hasserted : a.asserted <+: b.asserted :=
      (List.prefix_map_iff_of_injective fun _ _ h => Line.assert.inj h).1 hprefix
    exact absurd hasserted hexcludes.not_isPrefix

/-- Covering is rendering and pruning. -/
theorem cover_eq_ok_iff :
    (e.cover m c).1 = .ok groups ↔
      ∃ rendered, (e.renderGroups m c).1 = .ok rendered ∧ PathGroup.prune rendered = groups := by
  change (e.renderGroups m c).1.map PathGroup.prune = .ok groups ↔ _
  cases (e.renderGroups m c).1 with
  | error err => simp [Except.map]
  | ok rendered => simp [Except.map]

/-- The groups of an answer are those of the run without repeats. -/
theorem cover_eq_ok_iff_eraseDups (he : e.Filled) (hc : c.Used) :
    (e.cover m c).1 = .ok groups ↔
      ∃ rendered, (e.renderGroups m c).1 = .ok rendered ∧ rendered.eraseDups = groups := by
  rw [cover_eq_ok_iff]
  refine exists_congr fun rendered => and_congr_right fun hrendered => ?_
  rw [PathGroup.prune_eq_eraseDups (separated_renderGroups he hc hrendered)]

/-- **Pruning loses nothing**: what `cover` returns are the groups of the run without repeats, since
of two groups with the same exit neither begins the other unless they are equal. -/
theorem cover_eq_eraseDups {e : Engine} (he : e.Filled) {m : MethodRef} {c : Context}
    (hc : c.Used) {groups : List PathGroup} (h : (e.cover m c).1 = .ok groups) :
    ∃ rendered, (e.renderGroups m c).1 = .ok rendered ∧ groups = rendered.eraseDups ∧
      ∀ a ∈ rendered, ∀ b ∈ rendered, a.exit = b.exit →
        a.assertions <+: b.assertions ∨ b.assertions <+: a.assertions → a = b := by
  obtain ⟨rendered, hrendered, rfl⟩ := (cover_eq_ok_iff_eraseDups he hc).1 h
  have hseparated := separated_renderGroups he hc hrendered
  refine ⟨rendered, hrendered, rfl, ?_⟩
  intro a ha b hb hexit hprefix
  cases hprefix with
  | inl hab => exact hseparated a ha b hb hexit hab
  | inr hba => exact (hseparated b hb a ha hexit.symm hba).symm

end Engine

/-! ## a sample -/

namespace Sample

def owner : TypeRef := .named "Sample" "Checks" []

/-- Throws if its argument is true. -/
def check : MethodRef := .static owner "Check" [.bool] .void

/-- Runs `check` on its argument and branches on it afterwards. -/
def entry : MethodRef := .static owner "Run" [.bool] .void

/-- What both methods branch on. -/
def argument : Variable := ⟨.parameter 0, .bool⟩

/-- The graph of `check`. -/
def checkGraph : MethodGraph :=
  { method := check
    blocks := [
      { index := 0, instructions := [⟨0, .branch .ifTrue, none, [argument]⟩],
        successors := [1, 2] },
      { index := 1, instructions := [⟨1, .throw, none, [argument]⟩], successors := [] },
      { index := 2, instructions := [⟨2, .ret, none, []⟩], successors := [] } ] }

/-- The graph of `entry`. -/
def entryGraph : MethodGraph :=
  { method := entry
    blocks := [
      { index := 0
        instructions := [⟨0, .call check false, none, [argument]⟩,
          ⟨1, .branch .ifTrue, none, [argument]⟩]
        successors := [1, 2] },
      { index := 1, instructions := [⟨2, .ret, none, []⟩], successors := [] },
      { index := 2, instructions := [⟨3, .ret, none, []⟩], successors := [] } ] }

/-- Both methods. -/
def program : Program := (Program.empty.addMethod checkGraph).addMethod entryGraph

/-- The engine that has resolved `entry`. -/
def engine : Engine := ((Engine.new program {}).resolveMethod entry [] []).2

theorem filled_engine : engine.Filled :=
  .of_isOk (.new program {}) (by decide)

theorem used_empty : Context.empty.Used := .refl

/-- The run of `entry` gives four groups: that in which `check` throws comes up on either side of
the branch behind it. -/
theorem renderGroups_entry : ∃ groups, (engine.renderGroups entry .empty).1 = .ok groups ∧
    groups.length = 4 ∧ groups.eraseDups.length = 3 := by
  have hcount : (engine.renderGroups entry .empty).1.toOption.map
      (fun groups => (groups.length, groups.eraseDups.length)) = some (4, 3) := by decide +kernel
  cases h : (engine.renderGroups entry .empty).1 with
  | error err =>
      rw [h] at hcount
      contradiction
  | ok groups =>
      rw [h] at hcount
      have hpair := Option.some.inj hcount
      exact ⟨groups, rfl, congrArg Prod.fst hpair, congrArg Prod.snd hpair⟩

/-- Of these `cover` keeps three. -/
theorem cover_entry : ∃ rendered groups, (engine.renderGroups entry .empty).1 = .ok rendered ∧
    (engine.cover entry .empty).1 = .ok groups ∧ groups = rendered.eraseDups ∧
    rendered.length = 4 ∧ groups.length = 3 := by
  obtain ⟨rendered, hrun, hfour, hthree⟩ := renderGroups_entry
  have hcover : (engine.cover entry .empty).1 = .ok rendered.eraseDups :=
    (Engine.cover_eq_ok_iff_eraseDups filled_engine used_empty).2 ⟨rendered, hrun, rfl⟩
  obtain ⟨groups, hgroups, heq, -⟩ := Engine.cover_eq_eraseDups filled_engine used_empty hcover
  obtain rfl : rendered = groups := Except.ok.inj (hrun.symm.trans hgroups)
  exact ⟨rendered, _, hrun, hcover, heq, hfour, heq ▸ hthree⟩

end Sample

end Pathwise
