import Pathwise.Proofs.Resolution.Worklist

/-!
# Pathwise.Proofs.Resolution.Request

Requests to an engine. `Engine.perform_cases` says everything that one request can
do: it finds what it asks for, it fails and only the numbering of scopes goes on,
or it stores what it staged. Everything about requests is shown from this.

A request that fails leaves no trace, and one that succeeds changes nothing that
was there (`failure_leaves_no_trace`).
-/

namespace Pathwise

/-! ## scopes -/

namespace Registry

variable {r : Registry}

/-- Every open scope was numbered before. -/
def Orderly (r : Registry) : Prop := ∀ id ∈ r.live.keys, id < r.nextScope

/-- After some work the same scopes are open, with the same handlers. -/
def Restores (r r' : Registry) : Prop := r.Orderly → r'.live = r.live ∧ r'.Orderly

theorem Restores.refl (r : Registry) : r.Restores r := fun h => ⟨rfl, h⟩

theorem Restores.trans {r r' r'' : Registry} (h : r.Restores r') (h' : r'.Restores r'') :
    r.Restores r'' := by
  intro hr
  obtain ⟨hlive, hr'⟩ := h hr
  obtain ⟨hlive', hr''⟩ := h' hr'
  exact ⟨hlive'.trans hlive, hr''⟩

variable {τ μ : Type}

theorem Orderly.subscribe (h : r.Orderly) (depth : Nat) (types : List τ) (methods : List μ) :
    (r.subscribe depth types methods).2.Orderly := by
  intro id hid
  change id < r.nextScope + 1
  cases List.mem_cons.1 hid with
  | inl heq =>
      rw [heq]
      exact Nat.lt_succ_self r.nextScope
  | inr hmem =>
      obtain ⟨entry, hentry, rfl⟩ := List.mem_map.1 hmem
      have hold := h entry.1 (List.mem_map_of_mem (List.mem_filter.1 hentry).1)
      omega

/-- Dropping a new scope gives back what was open before. -/
theorem Orderly.erase_subscribe (h : r.Orderly) (depth : Nat) (types : List τ) (methods : List μ) :
    (r.subscribe depth types methods).2.live.erase (r.subscribe depth types methods).1.id =
      r.live := by
  have hfresh : ∀ entry ∈ r.live.entries, decide (entry.1 ≠ r.nextScope) = true := by
    intro entry hentry
    have hless := h entry.1 (List.mem_map_of_mem hentry)
    simp only [ne_eq, decide_eq_true_eq]
    omega
  have hkept := List.filter_eq_self.2 hfresh
  unfold Registry.subscribe Table.set Table.erase
  simp only [List.filter_cons, ne_eq, not_true_eq_false, decide_false, Bool.false_eq_true, if_false,
    hkept]

theorem Orderly.leave (h : r.Orderly) (s : Scope τ μ) : (r.leave s).Orderly := by
  intro id hid
  obtain ⟨entry, hentry, rfl⟩ := List.mem_map.1 hid
  exact h entry.1 (List.mem_map_of_mem (List.mem_filter.1 hentry).1)

/-- Work inside a scope that is left at its end. -/
theorem Restores.within {r r' : Registry} {depth : Nat} {types : List τ} {methods : List μ}
    (h : (r.subscribe depth types methods).2.Restores r') :
    r.Restores (r'.leave (r.subscribe depth types methods).1) := by
  intro hr
  obtain ⟨hlive, hr'⟩ := h (hr.subscribe depth types methods)
  refine ⟨?_, hr'.leave _⟩
  unfold leave
  rw [hlive]
  exact hr.erase_subscribe depth types methods

end Registry

namespace Engine

variable {e : Engine}

theorem restores_step (e : Engine) (scope : EngineScope) (s : Staging) (r : Registry)
    (next : PendingRef) : r.Restores (e.step scope s r next).2 := by
  cases next with
  | type t => exact .refl r
  | method m =>
      unfold step
      simp only
      split
      · exact .refl r
      · exact .within (.refl _)

/-- Whichever way a work-list ends, every scope that it entered is left. -/
theorem restores_drain (e : Engine) (scope : EngineScope) (fuel : Nat)
    (queue seen : List PendingRef) (s : Staging) (r : Registry) :
    r.Restores (e.drain scope fuel queue seen s r).2 := by
  induction fuel generalizing queue seen s r with
  | zero =>
      unfold drain
      cases queue.dropWhile (· ∈ seen) with
      | nil => exact .refl r
      | cons next rest => cases next <;> exact .refl r
  | succ fuel ih =>
      unfold drain
      cases queue.dropWhile (· ∈ seen) with
      | nil => exact .refl r
      | cons next rest =>
          have hstep := e.restores_step scope s r next
          simp only
          generalize e.step scope s r next = result at hstep ⊢
          rcases result with ⟨err | ⟨mid, more⟩, r'⟩
          · exact hstep
          · exact hstep.trans (ih _ _ _ _)

/-! ## one request -/

/-- What a caller can ask of an engine. -/
inductive Request where
  | type (type : TypeRef)
  | method (method : MethodRef) (types : List TypeHandler) (methods : List MethodHandler)

/-- Serve a request and tell whether it succeeded. -/
def perform (e : Engine) : Request → Except ResolutionError Unit × Engine
  | .type t => ((e.resolveType t).1.map fun _ => (), (e.resolveType t).2)
  | .method m types methods =>
    ((e.resolveMethod m types methods).1.map fun _ => (), (e.resolveMethod m types methods).2)

/-- Serve requests one after the other, whichever way each of them ends. -/
def performAll (e : Engine) (requests : List Request) : Engine :=
  requests.foldl (fun e q => (e.perform q).2) e

/-- Whether what a request asks for is stored. -/
def Holds (e : Engine) : Request → Prop
  | .type t => e.types.contains t = true
  | .method m _ _ => e.forms.contains m = true

/-- What a request stages if it succeeds. -/
inductive Serves (e : Engine) : Request → Staging → Prop where
  | type {t : TypeRef} {s : Staging} (h : e.Stages [] [t] .empty s) : Serves e (.type t) s
  | method {m : MethodRef} {types : List TypeHandler} {methods : List MethodHandler} {s : Staging}
      (h : e.Drains types methods [.method m] [] .empty s) : Serves e (.method m types methods) s

theorem ownTypes_empty : OwnTypes .empty := by
  intro t entry hentry
  contradiction

/-- Without handlers the staged sentence of a type is stored under that type. -/
theorem exists_find?_commit_of_stages {t : TypeRef} {s : Staging} (h : e.Stages [] [t] .empty s) :
    ∃ x, (s.commit e).types.find? t = some x := by
  have hown : OwnTypes s := h.extends.ownTypes (by simp) ownTypes_empty
  exact Option.isSome_iff_exists.1
    (contains_commit_types hown (h.hasType_of_mem List.mem_cons_self))

theorem resolveType_cases (e : Engine) (t : TypeRef) :
    (∃ x, e.types.find? t = some x ∧ e.resolveType t = (.ok (.cached x), e)) ∨
    ∃ r, e.handlers.Restores r ∧
      ((∃ err, e.resolveType t = (.error err, { e with handlers := r })) ∨
        ∃ s answer, e.Stages [] [t] .empty s ∧
          e.resolveType t = (.ok answer, s.commit { e with handlers := r })) := by
  unfold resolveType
  cases e.types.find? t with
  | some x => exact Or.inl ⟨x, rfl, rfl⟩
  | none =>
      have hrestores : e.handlers.Restores
          ((e.handlers.enter ([] : List TypeHandler) ([] : List MethodHandler)).2.leave
            (e.handlers.enter ([] : List TypeHandler) ([] : List MethodHandler)).1) :=
        .within (.refl _)
      simp only
      refine Or.inr ⟨_, hrestores, ?_⟩
      cases hstage : e.stageType
        (e.handlers.enter ([] : List TypeHandler) ([] : List MethodHandler)).1.typeHandlers
        .empty t with
      | error err => exact Or.inl ⟨err, rfl⟩
      | ok s =>
          have hstages : e.Stages [] [t] .empty s := stages_of_stageTypes hstage
          obtain ⟨x, hx⟩ := exists_find?_commit_of_stages hstages
          refine Or.inr ⟨s, ?_⟩
          simp only
          split
          · next hnone => exact absurd (hx.symm.trans hnone) (by simp)
          · exact ⟨_, hstages, rfl⟩
          · exact ⟨_, hstages, rfl⟩

/-- The form of the method that was asked for is staged. -/
theorem exists_find?_commit_of_drains {m : MethodRef} {types : List TypeHandler}
    {methods : List MethodHandler} {s : Staging}
    (h : e.Drains types methods [.method m] [] .empty s) :
    ∃ f, (s.commit e).forms.find? m = some f := by
  refine Option.isSome_iff_exists.1 ?_
  cases h.isSettled_of_mem (by simp) (.method m) List.mem_cons_self with
  | inl hstored =>
      obtain ⟨f, hf⟩ := Option.isSome_iff_exists.1 hstored
      exact Option.isSome_iff_exists.2 ⟨f, find?_commit_forms_of_some s hf⟩
  | inr hstaged => exact contains_commit_forms s hstaged

theorem resolveMethod_cases (e : Engine) (m : MethodRef) (types : List TypeHandler)
    (methods : List MethodHandler) :
    (∃ f, e.forms.find? m = some f ∧ e.resolveMethod m types methods = (.ok (.cached f), e)) ∨
    ∃ r, e.handlers.Restores r ∧
      ((∃ err, e.resolveMethod m types methods = (.error err, { e with handlers := r })) ∨
        ∃ s answer, e.Drains types methods [.method m] [] .empty s ∧
          e.resolveMethod m types methods = (.ok answer, s.commit { e with handlers := r })) := by
  unfold resolveMethod
  cases e.forms.find? m with
  | some f => exact Or.inl ⟨f, rfl, rfl⟩
  | none =>
      simp only
      have hrestores := e.restores_drain (e.handlers.enter types methods).1
        (e.methodBudget types methods) [.method m] [] .empty (e.handlers.enter types methods).2
      refine Or.inr ⟨_, .within hrestores, ?_⟩
      rcases hdrain : e.drain (e.handlers.enter types methods).1 (e.methodBudget types methods)
        [.method m] [] .empty (e.handlers.enter types methods).2 with ⟨err | s, r⟩
      · exact Or.inl ⟨err, rfl⟩
      · have hdrains : e.Drains types methods [.method m] [] .empty s := drains_of_drain hdrain
        obtain ⟨f, hf⟩ := exists_find?_commit_of_drains hdrains
        refine Or.inr ⟨s, ?_⟩
        simp only
        split
        · next hnone => exact absurd (hf.symm.trans hnone) (by simp)
        · exact ⟨_, hdrains, rfl⟩
        · exact ⟨_, hdrains, rfl⟩
        · exact ⟨_, hdrains, rfl⟩

/-- **What a request can do**: find what it asks for, fail, or store what it staged. -/
theorem perform_cases (e : Engine) (q : Request) :
    (e.Holds q ∧ e.perform q = (.ok (), e)) ∨
    ∃ r, e.handlers.Restores r ∧
      ((∃ err, e.perform q = (.error err, { e with handlers := r })) ∨
        ∃ s, e.Serves q s ∧ e.perform q = (.ok (), s.commit { e with handlers := r })) := by
  cases q with
  | type t =>
      obtain ⟨x, hx, heq⟩ | ⟨r, hr, ⟨err, heq⟩ | ⟨s, answer, hs, heq⟩⟩ := e.resolveType_cases t
      · refine Or.inl ⟨Option.isSome_iff_exists.2 ⟨x, hx⟩, ?_⟩
        simp only [perform, heq, Except.map]
      · exact Or.inr ⟨r, hr, Or.inl ⟨err, by simp only [perform, heq, Except.map]⟩⟩
      · exact Or.inr ⟨r, hr, Or.inr ⟨s, .type hs, by simp only [perform, heq, Except.map]⟩⟩
  | method m types methods =>
      obtain ⟨f, hf, heq⟩ | ⟨r, hr, ⟨err, heq⟩ | ⟨s, answer, hs, heq⟩⟩ :=
        e.resolveMethod_cases m types methods
      · refine Or.inl ⟨Option.isSome_iff_exists.2 ⟨f, hf⟩, ?_⟩
        simp only [perform, heq, Except.map]
      · exact Or.inr ⟨r, hr, Or.inl ⟨err, by simp only [perform, heq, Except.map]⟩⟩
      · exact Or.inr ⟨r, hr, Or.inr ⟨s, .method hs, by simp only [perform, heq, Except.map]⟩⟩

/-! ## many requests -/

/-- What every one of some requests keeps holds after all of them. -/
theorem performAll_induction {P : Engine → Prop} {requests : List Request}
    (hstep : ∀ q ∈ requests, ∀ e, P e → P (e.perform q).2) (he : P e) :
    P (e.performAll requests) := by
  induction requests generalizing e with
  | nil => exact he
  | cons q requests ih =>
      rw [List.forall_mem_cons] at hstep
      exact ih hstep.2 (hstep.1 e he)

theorem orderly_perform (he : e.handlers.Orderly) (q : Request) :
    (e.perform q).2.handlers.live = e.handlers.live ∧ (e.perform q).2.handlers.Orderly := by
  obtain ⟨-, heq⟩ | ⟨r, hr, ⟨err, heq⟩ | ⟨s, -, heq⟩⟩ := e.perform_cases q
  · rw [heq]
    exact ⟨rfl, he⟩
  · rw [heq]
    exact hr he
  · rw [heq]
    exact hr he

theorem orderly_performAll (p : Program) (o : Options) (requests : List Request) :
    ((Engine.new p o).performAll requests).handlers.Orderly := by
  refine performAll_induction (P := fun e => e.handlers.Orderly)
    (fun q _ e he => (orderly_perform he q).2) ?_
  intro id hid
  contradiction

theorem perform_of_error (e : Engine) (q : Request) {err : ResolutionError}
    (h : (e.perform q).1 = .error err) :
    (e.perform q).2.types = e.types ∧ (e.perform q).2.forms = e.forms := by
  obtain ⟨-, heq⟩ | ⟨r, -, ⟨err', heq⟩ | ⟨s, -, heq⟩⟩ := e.perform_cases q
  · rw [heq] at h
    contradiction
  · rw [heq]
    exact ⟨rfl, rfl⟩
  · rw [heq] at h
    contradiction

theorem find?_types_perform (e : Engine) (q : Request) {t : TypeRef} {x : Sentence}
    (h : e.types.find? t = some x) : (e.perform q).2.types.find? t = some x := by
  obtain ⟨-, heq⟩ | ⟨r, -, ⟨err, heq⟩ | ⟨s, -, heq⟩⟩ := e.perform_cases q
  · rwa [heq]
  · rwa [heq]
  · rw [heq]
    exact find?_commit_types_of_some s h

theorem find?_forms_perform (e : Engine) (q : Request) {m : MethodRef} {f : Form}
    (h : e.forms.find? m = some f) : (e.perform q).2.forms.find? m = some f := by
  obtain ⟨-, heq⟩ | ⟨r, -, ⟨err, heq⟩ | ⟨s, -, heq⟩⟩ := e.perform_cases q
  · rwa [heq]
  · rwa [heq]
  · rw [heq]
    exact find?_commit_forms_of_some s h

/-- **Failure leaves no trace**: after any requests, one that fails changes neither repository, and
however a request ends, what was stored stays as it was and every scope it entered is left. -/
theorem failure_leaves_no_trace (p : Program) (o : Options) (history : List Request)
    (q : Request) :
    let e := (Engine.new p o).performAll history
    let after := (e.perform q).2
    (∀ err, (e.perform q).1 = .error err → after.types = e.types ∧ after.forms = e.forms) ∧
    (∀ t x, e.types.find? t = some x → after.types.find? t = some x) ∧
    (∀ m f, e.forms.find? m = some f → after.forms.find? m = some f) ∧
    after.handlers.activeSubscriptions = e.handlers.activeSubscriptions ∧
    after.handlers.activeScopes = e.handlers.activeScopes := by
  intro e after
  have hlive : after.handlers.live = e.handlers.live :=
    (orderly_perform (orderly_performAll p o history) q).1
  refine ⟨fun err => e.perform_of_error q, fun t x => e.find?_types_perform q,
    fun m f => e.find?_forms_perform q, ?_, ?_⟩
  · unfold Registry.activeSubscriptions
    rw [hlive]
  · unfold Registry.activeScopes
    rw [hlive]

end Engine

end Pathwise
