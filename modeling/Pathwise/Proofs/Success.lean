/-!
# Pathwise.Proofs.Success

What it means that a computation of the library succeeds. Encoders and readers
run in `Except`; a proof about a result takes the computation apart with these
lemmas, one for each way of putting computations together.
-/

namespace Pathwise

variable {ε ε' α β : Type} {f : α → Except ε β} {out : List β} {l : List α} {x : Except ε α} {b : β}
  {a : α}

@[simp]
theorem bind_eq_ok :
    (x >>= f) = .ok b ↔ ∃ a, x = .ok a ∧ f a = .ok b := by
  cases x <;> simp [bind, Except.bind]

@[simp]
theorem pure_eq_ok {a b : α} : (pure a : Except ε α) = .ok b ↔ a = b := by
  simp [pure, Except.pure]

@[simp]
theorem throw_ne_ok {err : ε} : (throw err : Except ε α) ≠ .ok a := by
  simp [throw, throwThe, MonadExceptOf.throw]

@[simp]
theorem mapError_eq_ok {f : ε → ε'} :
    x.mapError f = .ok a ↔ x = .ok a := by
  cases x with
  | error err =>
      change Except.error (f err) = .ok a ↔ Except.error err = .ok a
      simp
  | ok b =>
      change Except.ok b = .ok a ↔ Except.ok b = .ok a
      simp

theorem map_eq_ok {f : α → β} :
    x.map f = .ok b ↔ ∃ a, x = .ok a ∧ f a = b := by
  cases x <;> simp [Except.map]

/-- What a traversal returns comes from its elements. -/
theorem exists_of_mem_of_mapM_eq_ok (h : l.mapM f = .ok out) (hb : b ∈ out) :
    ∃ a ∈ l, f a = .ok b := by
  induction l generalizing out with
  | nil =>
      rw [List.mapM_nil, pure_eq_ok] at h
      subst h
      contradiction
  | cons a l ih =>
      simp only [List.mapM_cons, bind_eq_ok, pure_eq_ok] at h
      obtain ⟨x, hx, xs, hxs, rfl⟩ := h
      cases List.mem_cons.1 hb with
      | inl heq => exact ⟨a, List.mem_cons_self, by rw [heq]; exact hx⟩
      | inr hmem =>
          obtain ⟨a', ha', hfa⟩ := ih hxs hmem
          exact ⟨a', List.mem_cons_of_mem a ha', hfa⟩

/-- A traversal succeeds only if every element does. -/
theorem exists_eq_ok_of_mapM_eq_ok (h : l.mapM f = .ok out) (ha : a ∈ l) :
    ∃ b, f a = .ok b := by
  induction l generalizing out with
  | nil => contradiction
  | cons a' l ih =>
      simp only [List.mapM_cons, bind_eq_ok, pure_eq_ok] at h
      obtain ⟨x, hx, xs, hxs, rfl⟩ := h
      cases List.mem_cons.1 ha with
      | inl heq => exact ⟨x, by rw [heq]; exact hx⟩
      | inr hmem => exact ih hxs hmem

theorem length_of_mapM_eq_ok (h : l.mapM f = .ok out) :
    out.length = l.length := by
  induction l generalizing out with
  | nil =>
      rw [List.mapM_nil, pure_eq_ok] at h
      exact h ▸ rfl
  | cons a l ih =>
      simp only [List.mapM_cons, bind_eq_ok, pure_eq_ok] at h
      obtain ⟨b, -, bs, hbs, rfl⟩ := h
      rw [List.length_cons, List.length_cons, ih hbs]

/-- What a view shows of the results of a traversal, if it shows one thing for each element. -/
theorem map_eq_map_of_mapM_eq_ok {γ : Type} {p : β → γ} {g : α → γ}
    (hf : ∀ a b, f a = .ok b → p b = g a) (h : l.mapM f = .ok out) :
    out.map p = l.map g := by
  induction l generalizing out with
  | nil =>
      rw [List.mapM_nil, pure_eq_ok] at h
      exact h ▸ rfl
  | cons a l ih =>
      simp only [List.mapM_cons, bind_eq_ok, pure_eq_ok] at h
      obtain ⟨b, hb, bs, hbs, rfl⟩ := h
      rw [List.map_cons, List.map_cons, hf a b hb, ih hbs]

/-- A traversal with a function that can only give one result for each element. -/
theorem eq_map_of_mapM_eq_ok {g : α → β} (hf : ∀ a b, f a = .ok b → b = g a)
    (h : l.mapM f = .ok out) : out = l.map g := by
  rw [← map_eq_map_of_mapM_eq_ok hf h, List.map_id']

/-- A traversal that gives the results one by one gives them all. -/
theorem mapM_eq_ok_of_forall_zip (hlength : l.length = out.length)
    (h : ∀ q ∈ out.zip l, f q.2 = .ok q.1) :
    l.mapM f = .ok out := by
  induction l generalizing out with
  | nil =>
      cases out with
      | nil => rfl
      | cons b out => simp at hlength
  | cons a l ih =>
      cases out with
      | nil => simp at hlength
      | cons b out =>
          rw [List.zip_cons_cons, List.forall_mem_cons] at h
          simp only [List.mapM_cons, bind_eq_ok, pure_eq_ok]
          exact ⟨b, h.1, out, ih (by simpa using hlength) h.2, rfl⟩

end Pathwise
