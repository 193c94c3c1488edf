import Mathlib.Algebra.BigOperators.Group.List.Lemmas
import Pathwise.Proofs.Inlining.Machine

/-!
# Pathwise.Proofs.Inlining.Bound

How deep inlining goes. Only methods with a form are on the stack, and each of
them at most as often as the options allow, but the root may always be there once
(`Engine.Admits`). A stack is therefore no longer than that many times the number
of forms, and a run ends, with the stack it began with (`Engine.inlining_bounded`).
-/

namespace Pathwise

namespace Engine

variable {e : Engine} {stack : List Site} {form : Form}

/-- A stack that inlining can lead to. -/
structure Admits (e : Engine) (stack : List Site) : Prop where
  occurrences : ∀ m, stack.countP (·.method = m) ≤ max 1 e.options.maxRecursionDepth
  stored : ∀ s ∈ stack, s.method ∈ e.forms.forms.keys

theorem mem_keys_of_form? {m : MethodRef} (h : e.form? m = some form) :
    m ∈ e.forms.forms.keys :=
  List.mem_map.2 ⟨_, Table.mem_entries_of_find? h, rfl⟩

/-- The root alone is admitted, however low the bound is. -/
theorem admits_root {root : Site} (h : e.form? root.method = some form) :
    e.Admits [root] where
  occurrences m := by
    have hle := List.countP_le_length (p := fun s : Site => s.method = m) (l := [root])
    exact hle.trans (Nat.le_max_left _ _)
  stored := List.forall_mem_singleton.2 (mem_keys_of_form? h)

/-- Opening an invocation leads to an admitted stack again. -/
theorem Admits.opened (h : e.Admits stack) {callee : MethodRef} {s : Site}
    (hform : e.unfolds? stack callee = some form) (hs : s.method = callee) :
    e.Admits (stack ++ [s]) := by
  obtain ⟨hstored, -, hactive⟩ := unfolds?_eq_some.1 hform
  refine ⟨fun m => ?_, List.forall_mem_append.2 ⟨h.stored, List.forall_mem_singleton.2 ?_⟩⟩
  · have hm := h.occurrences m
    rw [List.countP_append, List.countP_singleton]
    by_cases hcallee : s.method = m
    · obtain rfl : callee = m := hs.symm.trans hcallee
      rw [if_pos (by simpa using hcallee)]
      omega
    · rw [if_neg (by simpa using hcallee)]
      omega
  · rw [hs]
    exact mem_keys_of_form? hstored

/-- Every method of an admitted stack has a form, and none is there too often. -/
theorem Admits.length_le (h : e.Admits stack) :
    stack.length ≤ max 1 e.options.maxRecursionDepth * e.forms.size := by
  let methods := stack.map (·.method)
  have hcount : ∀ n ∈ methods.dedup.map methods.count, n ≤ max 1 e.options.maxRecursionDepth := by
    intro n hn
    obtain ⟨m, -, rfl⟩ := List.mem_map.1 hn
    rw [List.count_eq_countP, List.countP_map]
    simpa [Function.comp_def, Bool.beq_eq_decide_eq] using h.occurrences m
  have hstored : methods.dedup.length ≤ e.forms.forms.keys.length := by
    refine ((List.nodup_dedup methods).subperm fun m hm => ?_).length_le
    obtain ⟨s, hs, rfl⟩ := List.mem_map.1 (List.mem_dedup.1 hm)
    exact h.stored s hs
  calc stack.length = methods.length := (List.length_map _).symm
    _ = (methods.dedup.map methods.count).sum := (List.sum_map_count_dedup_eq_length methods).symm
    _ ≤ methods.dedup.length * max 1 e.options.maxRecursionDepth := by
        simpa using List.sum_le_card_nsmul _ _ hcount
    _ ≤ e.forms.forms.keys.length * max 1 e.options.maxRecursionDepth :=
        Nat.mul_le_mul_right _ hstored
    _ = max 1 e.options.maxRecursionDepth * e.forms.size := by
        rw [Nat.mul_comm]
        simp [FormRepository.size, Table.size, Table.keys]

end Engine

/-- The machine at the beginning of a run. -/
def Machine.start (c : Context) (root : Site) : Machine := ⟨c, [root], [[root]]⟩

/-- From any stack the machine ends and leaves it as it was. -/
theorem StackRun.follows_renderForm_any (e : Engine) (form : Form) (site : Site)
    (stack : List Site) :
    Follows (fun _ => True) stack (renderForm e (e.inliningDepth + 1) form site)
      (Run.render e e.inliningDepth form site stack) :=
  have hremaining := e.remaining_le_inliningDepth stack
  follows_render (fun _ _ _ _ _ _ _ => trivial) form site trivial
    (Nat.lt_succ_of_le hremaining) hremaining

namespace Engine

/-- **Inlining is bounded and ends.** In a run of any resolved method no stack has more invocations
of one method than the options allow, but at least one, so it has at most that many for every form.
Whatever is rendered in a context in use, from whatever stack, ends with the stack it began with:
forms and callees, and whether they succeed or fail. It does so in one way, with every clock that
lasts for as many invocations as the options allow, of all the forms. -/
theorem inlining_bounded (e : Engine) {c : Context} (hc : c.Used) :
    (∀ m form, e.form? m = some form → ∃ result after,
      (∀ clock, e.inliningDepth < clock →
        (StackRun.renderForm e clock form (c.rootSite m).1).exec
          (.start (c.rootSite m).2 (c.rootSite m).1) = some (result, after)) ∧
      e.renderGroups m c = (result.map (·.map (PathGroup.ofState m (c.rootSite m).1)),
        after.context.release (c.rootSite m).1) ∧
      after.stack = [(c.rootSite m).1] ∧
      ∀ stack ∈ after.history,
        (∀ callee, stack.countP (·.method = callee) ≤ max 1 e.options.maxRecursionDepth) ∧
        stack.length ≤ max 1 e.options.maxRecursionDepth * e.forms.size) ∧
    (∀ form site stack history, ∃ result after,
      (∀ clock, e.inliningDepth < clock →
        (StackRun.renderForm e clock form site).exec ⟨c, stack, history⟩ =
          some (result, after)) ∧
      after.stack = stack) ∧
    ∀ site offset callee stack history, ∃ result after,
      (∀ clock, e.inliningDepth < clock →
        (StackRun.calleePaths e (StackRun.renderForm e clock) site offset callee).exec
          ⟨c, stack, history⟩ = some (result, after)) ∧
      after.stack = stack := by
  -- The answer of the first clock that lasts is that of all later ones.
  refine ⟨fun m form hform => ?_, fun form site stack history => ?_,
    fun site offset callee stack history => ?_⟩
  · have hroot : (c.rootSite m).2.Sound := (hc.steps (.single (.rootSite c m))).sound
    have hadmits : e.Admits [(c.rootSite m).1] := admits_root hform
    have hremaining := e.remaining_le_inliningDepth [(c.rootSite m).1]
    obtain ⟨-, passed, hpassed, hrun⟩ := StackRun.follows_render (P := e.Admits)
      (fun _ _ _ _ h => h.opened) form (c.rootSite m).1 hadmits (Nat.lt_succ_of_le hremaining)
      hremaining (c.rootSite m).2 [[(c.rootSite m).1]] hroot
    refine ⟨_, _, fun clock hclock => StackRun.extends_renderForm e hclock form _ _ _ hrun, ?_,
      rfl, fun stack hstack => ?_⟩
    · simp only [renderGroups, hform]
      rfl
    · have hstack : e.Admits stack := by
        obtain hmem | hmem := List.mem_append.1 hstack
        · exact hpassed stack hmem
        · rw [List.mem_singleton.1 hmem]
          exact hadmits
      exact ⟨hstack.occurrences, hstack.length_le⟩
  · obtain ⟨-, passed, -, hrun⟩ :=
      StackRun.follows_renderForm_any e form site stack c history hc.sound
    exact ⟨_, _, fun clock hclock => StackRun.extends_renderForm e hclock form site _ _ hrun, rfl⟩
  · obtain ⟨-, passed, -, hrun⟩ := StackRun.follows_calleePaths (P := fun _ => True) trivial
      (fun _ form s _ _ => ⟨trivial, StackRun.follows_renderForm_any e form s (stack ++ [s])⟩)
      site offset callee c history hc.sound
    exact ⟨_, _, fun clock hclock => StackRun.extends_calleePaths
      (StackRun.extends_renderForm e hclock) e site offset callee _ _ hrun, rfl⟩

end Engine

namespace Sample

/-- Runs `pong` if its argument is true. -/
def ping : MethodRef := .static owner "Ping" [.bool] .void

/-- Runs `ping` if its argument is true. -/
def pong : MethodRef := .static owner "Pong" [.bool] .void

/-- The graph of a method that runs another if its argument is true. -/
def passOn (method other : MethodRef) : MethodGraph :=
  { method
    blocks := [
      { index := 0
        instructions := [⟨0, .branch .ifTrue, none, [argument]⟩]
        successors := [1, 2] },
      { index := 1
        instructions := [⟨1, .call other false, none, [argument]⟩, ⟨2, .ret, none, []⟩]
        successors := [] },
      { index := 2, instructions := [⟨3, .ret, none, []⟩], successors := [] } ] }

/-- Two methods that call each other. -/
def rally : Program := (Program.empty.addMethod (passOn ping pong)).addMethod (passOn pong ping)

/-- The engine that has resolved `ping`. -/
def rallyEngine : Engine := ((Engine.new rally {}).resolveMethod ping [] []).2

/-- Two methods that run each other: two invocations of each may be open. -/
theorem inlining_bounded_ping : ∃ form result after, rallyEngine.form? ping = some form ∧
    (∀ clock, rallyEngine.inliningDepth < clock →
      (StackRun.renderForm rallyEngine clock form ⟨ping, 0, 0⟩).exec
        (.start (Context.empty.rootSite ping).2 ⟨ping, 0, 0⟩) = some (.ok result, after)) ∧
    result.length = 5 ∧ after.stack = [⟨ping, 0, 0⟩] ∧
    ∀ stack ∈ after.history, (∀ m, stack.countP (·.method = m) ≤ 2) ∧ stack.length ≤ 4 := by
  have hcount : (rallyEngine.form? ping).bind (fun _ =>
      (rallyEngine.renderGroups ping .empty).1.toOption.map List.length) = some 5 := by
    decide +kernel
  obtain ⟨form, hform, hcount⟩ := Option.bind_eq_some_iff.1 hcount
  obtain ⟨result, after, hrun, hgroups, hstack, hhistory⟩ :=
    (Engine.inlining_bounded rallyEngine used_empty).1 ping form hform
  rw [hgroups] at hcount
  cases result with
  | error err => contradiction
  | ok states =>
      have hlength : (states.map (PathGroup.ofState ping ⟨ping, 0, 0⟩)).length = 5 :=
        Option.some.inj hcount
      rw [List.length_map] at hlength
      exact ⟨form, states, after, hform, hrun, hlength, hstack, hhistory⟩

end Sample

end Pathwise
