import Pathwise.Proofs.Congruence
import Pathwise.Proofs.Scoping.Path

/-!
# Pathwise.Proofs.Invariant

What every statement keeps, every rendered path has. An `Invariant` is a property of
paths that holds at the start and that each statement of a form keeps, if the
paths of the callee it inlines have it. It then holds of all paths that are
rendered, with callees inlined to any depth (`Reference.Invariant.render`).
-/

namespace Pathwise

namespace Reference

variable {e : Engine} {c : Context} {F : Form → Prop} {Q : PathState → Prop}

/-- Callees are inlined with good forms and good paths. -/
def Inlines (F : Form → Prop) (Q : PathState → Prop) (inline : Inliner) : Prop :=
  ∀ offset callee, ∀ i ∈ inline offset callee, F i.form ∧ ∀ path ∈ i.paths, Q path

/-- A property of paths that the statements of all forms with another property keep. -/
structure Invariant (e : Engine) (c : Context) (F : Form → Prop) (Q : PathState → Prop) : Prop where
  forms : ∀ m f, e.form? m = some f → F f
  start : Q {}
  complete : ∀ exit s, Q s → Q (Reference.complete exit s)
  statement : ∀ f site stack inline, F f → Inlines F Q inline → ∀ p ∈ f.statements, ∀ s, Q s →
    ∀ t ∈ Reference.statement e c site stack inline (.of f site) p s, Q t

namespace Invariant

variable (h : Invariant e c F Q) {f : Form} (hf : F f) (site : Site) (stack : List Site)

include h hf

theorem statements {inline : Inliner} (hinline : Inlines F Q inline) {ps : List Placed}
    (hps : ps ⊆ f.statements) {s : PathState} (hs : Q s) :
    ∀ t ∈ Reference.statements e c site stack inline (.of f site) ps s, Q t := by
  induction ps generalizing s with
  | nil => exact List.forall_mem_singleton.2 hs
  | cons p ps ih =>
      rw [List.cons_subset] at hps
      intro t ht
      obtain ⟨u, hu, ht⟩ := List.mem_flatMap.1 ht
      exact ih hps.2 (h.statement f site stack inline hf hinline p hps.1 s hs u hu) t ht

theorem allPaths {inline : Inliner} (hinline : Inlines F Q inline) :
    ∀ t ∈ Reference.allPaths e c f site stack inline, Q t := by
  intro t ht
  obtain ⟨skeleton, -, ht⟩ := List.mem_flatMap.1 ht
  obtain ⟨u, hu, rfl⟩ := List.mem_map.1 ht
  rw [steps_eq_statements] at hu
  have hsub : skeleton.steps.flatMap (stepStatements f) ⊆ f.statements := by
    intro p hp
    obtain ⟨step, -, hp⟩ := List.mem_flatMap.1 hp
    exact f.stepStatements_subset step hp
  exact h.complete _ u (h.statements hf site stack hinline hsub h.start u hu)

/-- **Rendered paths have every invariant**, with their callees inlined. -/
theorem render (depth : Nat) : ∀ t ∈ Reference.render e c depth f site stack, Q t := by
  induction depth generalizing f site stack with
  | zero =>
      refine h.allPaths hf site stack fun offset callee i hi => ?_
      obtain ⟨hform, -, -, hpaths⟩ := inlineWith_eq_some hi
      rw [hpaths]
      exact ⟨h.forms callee _ hform, nofun⟩
  | succ depth ih =>
      refine h.allPaths hf site stack fun offset callee i hi => ?_
      obtain ⟨hform, -, -, hpaths⟩ := inlineWith_eq_some hi
      rw [hpaths]
      exact ⟨h.forms callee _ hform, ih (h.forms callee _ hform) _ _⟩

end Invariant

end Reference

end Pathwise
