import Pathwise.Proofs.Resolution.Closure
import Pathwise.Proofs.Unfolding

/-!
# Pathwise.Proofs.Stability

What a context remembers changes no answer. Stored paths are those of a form that is
equal to the one asked for up to the order of its blocks, and such forms have the
same paths; so asking a context for paths is the same as enumerating them, whatever
forms of a method came before (`Context.pathsEach_eq_map`).

Sites, pointers and flows are stored by what they are asked for. A rendering that is
done again asks for nothing else, so it repeats itself and numbers nothing
(`Engine.renderAt_again`).
-/

namespace Pathwise

namespace Context

/-- The answers of a context that is asked for the paths of forms, each under a limit, one after
the other. -/
def pathsEach (c : Context) : List (Form × Nat) → List (Except CoverageError (List Skeleton))
  | [] => []
  | call :: calls => (c.paths call.1 call.2).1 :: (c.paths call.1 call.2).2.pathsEach calls

/-- **Stored paths are transparent**: each answer is what enumerating the paths of that form gives,
also if that fails. -/
theorem pathsEach_eq_map {c : Context} (hc : c.Used) (calls : List (Form × Nat)) :
    c.pathsEach calls = calls.map fun call => call.1.paths call.2 := by
  induction calls generalizing c with
  | nil => rfl
  | cons call calls ih =>
      have hnext : (c.paths call.1 call.2).2.Used := hc.tail (.paths c call.1 call.2)
      rw [pathsEach, List.map_cons, hc.sound.paths_fst, ih hnext]

end Context

namespace Sample

/-- The form of `check`, which has two paths. -/
def checkForm : Form := (engine.form? check).getD default

/-- Forms of one method: that of its graph, the same with its blocks the other way round, the
stand-in, and the first one twice again, the last time under a lower limit. -/
def checkCalls : List (Form × Nat) :=
  [(checkForm, 2), ({ checkForm with blocks := checkForm.blocks.reverse }, 2), (.empty check, 2),
    (checkForm, 2), (checkForm, 1)]

/-- The second form is answered with the paths stored for the first, the third takes their place,
and what fails is not stored. -/
theorem pathsEach_checkCalls : Context.empty.Used ∧
    Context.empty.pathsEach checkCalls = checkCalls.map (fun call => call.1.paths call.2) ∧
    (Context.empty.pathsEach checkCalls).map (fun answer => answer.toOption.map List.length) =
      [some 2, some 2, some 1, some 2, none] :=
  ⟨used_empty, Context.pathsEach_eq_map used_empty checkCalls, rfl⟩

end Sample

/-! ## rendering again -/

namespace Engine

/-- **Rendering is stable**: rendered a second time, a form has the same paths at a site, or fails
in the same way, and no call, pointer or flow gets a number. -/
theorem renderAt_again {c : Context} (hc : c.Used) (e : Engine) (form : Form) (site : Site)
    (stack : List Site) :
    let first := e.renderAt form site stack c
    let second := e.renderAt form site stack first.2
    second.1 = first.1 ∧
      second.2.sites = first.2.sites ∧ second.2.callOrders = first.2.callOrders ∧
      second.2.pointers = first.2.pointers ∧ second.2.allocations = first.2.allocations ∧
      second.2.flows = first.2.flows := by
  intro first second
  have hagrees := Run.agrees_render e e.inliningDepth form site stack
  have hfirst : first.2.Used := hc.steps (hagrees.steps c)
  obtain ⟨skeletons, hsecond⟩ :=
    hagrees.again c first.2 hc.sound hfirst.sound (Context.Le.refl first.2)
  have heq : second = (first.1, { first.2 with skeletons }) := hsecond
  rw [heq]
  exact ⟨rfl, rfl, rfl, rfl, rfl, rfl⟩

end Engine

namespace Sample

/-- The engine that has resolved `grow`. -/
def growEngine : Engine := ((Engine.new stocked {}).perform (.method grow [] [])).2

/-- The first rendering of `grow` gives a site to the constructor and a pointer to the node, the
second one finds them. -/
theorem renderAt_grow_again :
    let first := growEngine.renderAt ((growEngine.form? grow).getD default) ⟨grow, 0, 0⟩
      [⟨grow, 0, 0⟩] .empty
    let second := growEngine.renderAt ((growEngine.form? grow).getD default) ⟨grow, 0, 0⟩
      [⟨grow, 0, 0⟩] first.2
    first.1.toOption.map List.length = some 1 ∧ first.2.sites.size = 1 ∧
      first.2.pointers.size = 1 ∧ second.1 = first.1 ∧ second.2.sites = first.2.sites ∧
      second.2.pointers = first.2.pointers := by
  obtain ⟨hpaths, hsites, -, hpointers, -, -⟩ := Engine.renderAt_again used_empty growEngine
    ((growEngine.form? grow).getD default) ⟨grow, 0, 0⟩ [⟨grow, 0, 0⟩]
  exact ⟨by decide +kernel, by decide +kernel, by decide +kernel, hpaths, hsites, hpointers⟩

end Sample

end Pathwise
