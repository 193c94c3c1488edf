import Pathwise.Proofs.Mentions
import Pathwise.Proofs.Resolution.Budget

/-!
# Pathwise.Proofs.Resolution.Needs

What a program needs for a type or a method, said without an engine. `Program.Uses`
is what one reference uses directly, `Program.Needs` what it uses in the end, and
`Program.form?` the form that the program alone gives for a method.

`Program.formOutcome` is how encoding a method ends where nothing has a sentence yet:
besides the form it tells the first error. It gives a form just if the program does
and every type that the method mentions, and all that these depend on, can be encoded
(`Program.formOutcome_eq_ok`).
-/

namespace Pathwise

open Relation (ReflTransGen)

/-- Abstract and ignorable methods are left out. -/
def Options.leavesOut (o : Options) (m : MethodRef) : Bool := m.isAbstract || o.isIgnorable m

namespace Program

variable {m : MethodRef} {f : Form}

/-- The form that the program alone gives for a method: the empty one if the method is left out,
else that of its graph, if it has one which can be encoded. -/
def form? (p : Program) (o : Options) (m : MethodRef) : Option Form :=
  if o.leavesOut m then some (.empty m)
  else (p.methodGraph? m).bind fun g => (Form.ofGraph (p.lookup o.exceptionBase) g).toOption

/-- What a reference uses directly. A method uses what its form runs and, unless it is left out,
what its graph mentions; a type uses what its sentence depends on. -/
inductive Uses (p : Program) (o : Options) : PendingRef → PendingRef → Prop where
  | callee {m callee : MethodRef} {f : Form} (hf : p.form? o m = some f)
      (h : callee ∈ f.referencedMethods) : Uses p o (.method m) (.method callee)
  | mention {m : MethodRef} {g : MethodGraph} {t : TypeRef} (hm : o.leavesOut m = false)
      (hg : p.methodGraph? m = some g) (ht : t ∈ g.mentionedTypes) :
      Uses p o (.method m) (.type t)
  | dependency {t u : TypeRef} {s : Sentence}
      (hs : Sentence.encode o.exceptionBase p t = .ok s) (hu : u ∈ s.dependencies) :
      Uses p o (.type t) (.type u)

/-- The least set that holds a reference and all that its members use. -/
def Needs (p : Program) (o : Options) : PendingRef → PendingRef → Prop := ReflTransGen (p.Uses o)

/-- A type that has a sentence, or a method that has a form, by the program alone. -/
def Resolvable (p : Program) (o : Options) : PendingRef → Prop
  | .type t => ∃ s, Sentence.encode o.exceptionBase p t = .ok s
  | .method m => ∃ f, p.form? o m = some f

variable {p : Program} {o : Options}

theorem Reaches.needs {t u : TypeRef} (h : p.Reaches o t u) : p.Needs o (.type t) (.type u) := by
  induction h with
  | refl => exact .refl
  | tail _ hstep ih =>
      obtain ⟨more, hmore, hu⟩ := hstep
      obtain ⟨x, hx, rfl⟩ := dependencies_eq_ok.1 hmore
      exact .tail ih (.dependency hx hu)

/-! ## encoding a method -/

/-- How encoding a method ends where nothing has a sentence yet: all types that its graph mentions
come first. -/
def formOutcome (p : Program) (o : Options) (m : MethodRef) : Except ResolutionError Form :=
  if o.leavesOut m then .ok (.empty m)
  else match p.methodGraph? m with
    | none => .error (.unresolvedMethod m)
    | some g => do
      forM g.mentionedTypes (p.typeOutcome o)
      (Form.ofGraph (p.lookup o.exceptionBase) g).mapError .lowering

theorem formOutcome_of_leavesOut (h : o.leavesOut m = true) :
    p.formOutcome o m = .ok (.empty m) := by
  simp [formOutcome, h]

theorem formOutcome_of_graph {g : MethodGraph} (h : o.leavesOut m = false)
    (hg : p.methodGraph? m = some g) :
    p.formOutcome o m = (do
      forM g.mentionedTypes (p.typeOutcome o)
      (Form.ofGraph (p.lookup o.exceptionBase) g).mapError .lowering) := by
  simp [formOutcome, h, hg]

/-- What an encoded method comes from. -/
theorem formOutcome_cases (h : p.formOutcome o m = .ok f) :
    (o.leavesOut m = true ∧ f = .empty m) ∨
    o.leavesOut m = false ∧ ∃ g, p.methodGraph? m = some g ∧
      forM g.mentionedTypes (p.typeOutcome o) = .ok () ∧
      Form.ofGraph (p.lookup o.exceptionBase) g = .ok f := by
  cases hm : o.leavesOut m with
  | true =>
      rw [formOutcome_of_leavesOut hm] at h
      exact Or.inl ⟨rfl, (Except.ok.inj h).symm⟩
  | false =>
      refine Or.inr ⟨rfl, ?_⟩
      cases hg : p.methodGraph? m with
      | none => simp [formOutcome, hm, hg] at h
      | some g =>
          rw [formOutcome_of_graph hm hg] at h
          obtain ⟨_, htypes, hform⟩ := bind_eq_ok.1 h
          exact ⟨g, rfl, htypes, mapError_eq_ok.1 hform⟩

theorem form?_of_formOutcome (h : p.formOutcome o m = .ok f) :
    p.form? o m = some f := by
  obtain ⟨hm, rfl⟩ | ⟨hm, g, hg, -, hf⟩ := formOutcome_cases h
  · simp [form?, hm]
  · simp [form?, hm, hg, hf, Except.toOption]

theorem forM_eq_ok {ε α : Type} {f : α → Except ε Unit} {l : List α} :
    forM l f = .ok () ↔ ∀ a ∈ l, f a = .ok () := by
  induction l with
  | nil => simp [pure, Except.pure]
  | cons a l ih =>
      rw [List.forM_cons, bind_eq_ok, List.forall_mem_cons, ← ih]
      constructor
      · rintro ⟨_, h⟩
        exact h
      · exact fun h => ⟨(), h⟩

theorem uses_type_iff {g : MethodGraph} {t : TypeRef} (hm : o.leavesOut m = false)
    (hg : p.methodGraph? m = some g) :
    p.Uses o (.method m) (.type t) ↔ t ∈ g.mentionedTypes := by
  constructor
  · rintro (- | ⟨-, hg', ht⟩ | -)
    rwa [Option.some.inj (hg.symm.trans hg')]
  · exact .mention hm hg

theorem not_uses_type (hm : o.leavesOut m = true) (t : TypeRef) :
    ¬p.Uses o (.method m) (.type t) := by
  rintro (- | ⟨hm', -, -⟩ | -)
  exact absurd (hm.symm.trans hm') (by simp)

/-- **Forms of encoded methods**: encoding a method gives the program's form just if everything
that the types it mentions lead to can be encoded. -/
theorem formOutcome_eq_ok :
    p.formOutcome o m = .ok f ↔ p.form? o m = some f ∧
      ∀ t, p.Uses o (.method m) (.type t) → p.typeOutcome o t = .ok () := by
  constructor
  · intro h
    refine ⟨form?_of_formOutcome h, fun t ht => ?_⟩
    obtain ⟨hm, -⟩ | ⟨hm, g, hg, htypes, -⟩ := formOutcome_cases h
    · exact absurd ht (not_uses_type hm t)
    · exact forM_eq_ok.1 htypes t ((uses_type_iff hm hg).1 ht)
  · rintro ⟨hform, htypes⟩
    cases hm : o.leavesOut m with
    | true =>
        rw [formOutcome_of_leavesOut hm]
        simpa [form?, hm] using hform
    | false =>
        cases hg : p.methodGraph? m with
        | none => simp [form?, hm, hg] at hform
        | some g =>
            have hall : forM g.mentionedTypes (p.typeOutcome o) = .ok () :=
              forM_eq_ok.2 fun t ht => htypes t (.mention hm hg ht)
            have hgraph : Form.ofGraph (p.lookup o.exceptionBase) g = .ok f := by
              cases h : Form.ofGraph (p.lookup o.exceptionBase) g with
              | error err => simp [form?, hm, hg, h, Except.toOption] at hform
              | ok f' => simpa [form?, hm, hg, h, Except.toOption] using hform
            rw [formOutcome_of_graph hm hg, hall, hgraph]
            rfl

/-! ## methods that can come up -/

/-- What the form of a method runs, or why the method has none. -/
def callees (p : Program) (o : Options) (m : MethodRef) : Except ResolutionError (List MethodRef) :=
  (p.formOutcome o m).map (·.referencedMethods)

theorem callees_eq_ok {more : List MethodRef} :
    p.callees o m = .ok more ↔ ∃ f, p.formOutcome o m = .ok f ∧ f.referencedMethods = more :=
  map_eq_ok

theorem callees_subset {more : List MethodRef} (h : p.callees o m = .ok more) :
    more ⊆ p.methodReach := by
  obtain ⟨f, hf, rfl⟩ := callees_eq_ok.1 h
  obtain ⟨-, rfl⟩ | ⟨-, g, hg, -, hf⟩ := formOutcome_cases hf
  · exact List.nil_subset _
  · intro callee hcallee
    have hmem : g ∈ p.methods.values := List.mem_map.2 ⟨(m, g), Table.mem_entries_of_find? hg, rfl⟩
    exact mem_methodReach.2 ⟨g, hmem, Form.referencedMethods_subset hf hcallee⟩

theorem needs_of_expands {m m' : MethodRef} (h : ReflTransGen (Expands (p.callees o)) m m') :
    p.Needs o (.method m) (.method m') := by
  induction h with
  | refl => exact .refl
  | tail _ hstep ih =>
      obtain ⟨more, hmore, hmem⟩ := hstep
      obtain ⟨f, hf, rfl⟩ := callees_eq_ok.1 hmore
      exact .tail ih (.callee (form?_of_formOutcome hf) hmem)

/-! ## what cannot be resolved -/

theorem not_resolvable_of_dependencies {t : TypeRef} {err : ResolutionError}
    (h : p.dependencies o t = .error err) : ¬p.Resolvable o (.type t) := by
  rintro ⟨x, hx⟩
  have hok := dependencies_eq_ok.2 ⟨x, hx, rfl⟩
  exact absurd (h.symm.trans hok) (by simp)

/-- If a method cannot be encoded, something that it needs has no sentence or form. -/
theorem exists_not_resolvable_of_callees {err : ResolutionError} (h : p.callees o m = .error err) :
    ∃ a, p.Needs o (.method m) a ∧ ¬p.Resolvable o a := by
  by_contra hall
  push Not at hall
  obtain ⟨f, hf⟩ := hall (.method m) .refl
  have htypes : ∀ t, p.Uses o (.method m) (.type t) → p.typeOutcome o t = .ok () :=
    fun t ht => typeOutcome_eq_ok.2 fun u hu => hall (.type u) (.head ht hu.needs)
  have hok := callees_eq_ok.2 ⟨f, formOutcome_eq_ok.2 ⟨hf, htypes⟩, rfl⟩
  exact absurd (h.symm.trans hok) (by simp)

end Program

end Pathwise
