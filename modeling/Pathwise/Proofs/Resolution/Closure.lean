import Pathwise.Proofs.Resolution.Grounded

/-!
# Pathwise.Proofs.Resolution.Closure

What a request adds: that which it asks for and all that this needs, and nothing else
(`Grounded.stores_perform_iff`). It succeeds just if the program alone gives a sentence
or a form for all of it (`Grounded.perform_eq_ok_iff`). For methods both are said of
`resolveMethod` itself, together with what is then stored
(`resolveMethod_adds_needs`).
-/

namespace Pathwise

namespace Engine

variable {e : Engine} {m : MethodRef} {f : Form}

/-! ## what is stored -/

/-- Whether a reference has its sentence or form stored. -/
def Stores (e : Engine) : PendingRef → Prop
  | .type t => e.types.contains t = true
  | .method m => e.forms.contains m = true

variable {a b : PendingRef}

theorem Grounded.resolvable (he : e.Grounded) (h : e.Stores a) :
    e.program.Resolvable e.options a := by
  cases a with
  | type t =>
      obtain ⟨x, hx⟩ := Option.isSome_iff_exists.1 h
      exact ⟨x, he.valid.types t x hx⟩
  | method m =>
      obtain ⟨f, hf⟩ := Option.isSome_iff_exists.1 h
      exact ⟨f, Program.form?_of_formOutcome (he.forms m f hf)⟩

theorem Grounded.stores_of_uses (he : e.Grounded) (h : e.Stores a)
    (hab : e.program.Uses e.options a b) : e.Stores b := by
  cases hab with
  | @callee m callee f hf hcallee =>
      obtain ⟨f', hf'⟩ := Option.isSome_iff_exists.1 h
      have hform := Program.form?_of_formOutcome (he.forms m f' hf')
      obtain rfl := Option.some.inj (hf.symm.trans hform)
      exact he.closed.methods m f hf' callee hcallee
  | @mention m g t hm hg ht => exact he.mentions m t h (.mention hm hg ht)
  | @dependency t u x hx hu =>
      obtain ⟨x', hx'⟩ := Option.isSome_iff_exists.1 h
      obtain rfl := Except.ok.inj (hx.symm.trans (he.valid.types t x' hx'))
      exact he.closed.dependencies t x hx' u hu

/-- All that is needed for something stored is stored. -/
theorem Grounded.stores_of_needs (he : e.Grounded) (h : e.Stores a)
    (hab : e.program.Needs e.options a b) : e.Stores b := by
  induction hab with
  | refl => exact h
  | tail _ hstep ih => exact he.stores_of_uses ih hstep

theorem Grounded.find?_types_iff (he : e.Grounded) {t : TypeRef} {x : Sentence} :
    e.types.find? t = some x ↔
      e.Stores (.type t) ∧ Sentence.encode e.options.exceptionBase e.program t = .ok x := by
  constructor
  · exact fun h => ⟨Option.isSome_iff_exists.2 ⟨x, h⟩, he.valid.types t x h⟩
  · rintro ⟨h, hx⟩
    obtain ⟨y, hy⟩ : ∃ y, e.types.find? t = some y := Option.isSome_iff_exists.1 h
    rw [hy, Except.ok.inj (hx.symm.trans (he.valid.types t y hy))]

theorem Grounded.find?_forms_iff (he : e.Grounded) :
    e.forms.find? m = some f ↔ e.Stores (.method m) ∧ e.program.form? e.options m = some f := by
  have hform : ∀ f', e.forms.find? m = some f' → e.program.form? e.options m = some f' :=
    fun f' hf' => Program.form?_of_formOutcome (he.forms m f' hf')
  constructor
  · exact fun h => ⟨Option.isSome_iff_exists.2 ⟨f, h⟩, hform f h⟩
  · rintro ⟨h, hf⟩
    obtain ⟨f', hf'⟩ : ∃ f', e.forms.find? m = some f' := Option.isSome_iff_exists.1 h
    rw [hf', ← hform f' hf', hf]

/-! ## one request -/

/-- What a request asks for. -/
def Request.target : Request → PendingRef
  | .type t => .type t
  | .method m _ _ => .method m

variable {q : Request}

theorem stores_perform_of_stores (q : Request) (h : e.Stores a) : (e.perform q).2.Stores a := by
  cases a with
  | type t =>
      obtain ⟨x, hx⟩ : ∃ x, e.types.find? t = some x := Option.isSome_iff_exists.1 h
      exact Option.isSome_iff_exists.2 ⟨x, e.find?_types_perform q hx⟩
  | method m =>
      obtain ⟨f, hf⟩ : ∃ f, e.forms.find? m = some f := Option.isSome_iff_exists.1 h
      exact Option.isSome_iff_exists.2 ⟨f, e.find?_forms_perform q hf⟩

theorem stores_target_of_ok (h : (e.perform q).1 = .ok ()) : (e.perform q).2.Stores q.target := by
  obtain ⟨hholds, heq⟩ | ⟨r, -, ⟨err, heq⟩ | ⟨s, hs, heq⟩⟩ := e.perform_cases q
  · rw [heq]
    cases q <;> exact hholds
  · rw [heq] at h
    contradiction
  · rw [heq]
    cases hs with
    | type hs =>
        obtain ⟨x, hx⟩ := exists_find?_commit_of_stages hs
        exact Option.isSome_iff_exists.2 ⟨x, hx⟩
    | method hs =>
        obtain ⟨f, hf⟩ := exists_find?_commit_of_drains hs
        exact Option.isSome_iff_exists.2 ⟨f, hf⟩

/-- What was explored for a type and is stored now is needed for the type. -/
theorem needs_of_explored_type {s : Staging} {t : TypeRef}
    (h : Explores (e.program.dependencies e.options) [t] e.types.contains (.ok (s.hasType e)))
    (hs : e.Staged s) (hforms : s.forms = ∅) (ha : (s.commit e).Stores a) :
    e.Stores a ∨ e.program.Needs e.options (.type t) a := by
  cases a with
  | type u =>
      rw [Stores, hs.ownTypes.contains_commit_types_eq] at ha
      refine (h.reaches_of_known ha).imp_right ?_
      rintro ⟨b, hb, hbu⟩
      obtain rfl := List.mem_singleton.1 hb
      exact Program.Reaches.needs hbu
  | method m =>
      rw [Stores, contains_commit_forms_eq, Staging.hasForm, hforms] at ha
      exact Or.inl ha

/-- What was explored for a method and is stored now is needed for the method. -/
theorem Grounded.needs_of_explored_method (he : e.Grounded) {s : Staging}
    (h : Explores (e.program.callees e.options) [m] e.forms.contains (.ok (s.hasForm e)))
    (hs : e.Accounts s) (ha : (s.commit e).Stores a) :
    e.Stores a ∨ e.program.Needs e.options (.method m) a := by
  have hmethods : ∀ m', s.hasForm e m' = true →
      e.Stores (.method m') ∨ e.program.Needs e.options (.method m) (.method m') := by
    intro m' hm'
    refine (h.reaches_of_known hm').imp_right ?_
    rintro ⟨b, hb, hbm⟩
    obtain rfl := List.mem_singleton.1 hb
    exact Program.needs_of_expands hbm
  cases a with
  | type u =>
      rw [Stores, hs.staged.ownTypes.contains_commit_types_eq] at ha
      obtain hstored | ⟨m', hm', hneeds⟩ := hs.origin u ha
      · exact Or.inl hstored
      · obtain hstored | hm := hmethods m' (by rw [Staging.hasForm, hm', Bool.true_or])
        · exact Or.inl (he.stores_of_needs hstored hneeds)
        · exact Or.inr (hm.trans hneeds)
  | method m' =>
      rw [Stores, contains_commit_forms_eq] at ha
      exact hmethods m' ha

/-- Only what is needed is added. -/
theorem Grounded.stores_or_needs (he : e.Grounded) (hq : q.IsUnaided)
    (h : (e.perform q).2.Stores a) : e.Stores a ∨ e.program.Needs e.options q.target a := by
  cases q with
  | type t =>
      obtain ⟨x, -, heq⟩ | ⟨err, r, -, heq⟩ | ⟨x, s, r, hexplores, hs, hforms, -, heq⟩ :=
        he.resolveType_cases t
      · simp only [Engine.perform, heq] at h
        exact Or.inl h
      · simp only [Engine.perform, heq] at h
        exact Or.inl h
      · simp only [Engine.perform, heq] at h
        have hstored : (s.commit e).Stores a := by cases a <;> exact h
        exact needs_of_explored_type hexplores hs hforms hstored
  | method m types methods =>
      obtain ⟨rfl, rfl⟩ := hq
      obtain ⟨f, -, heq⟩ | ⟨err, r, -, heq⟩ | ⟨f, s, r, hexplores, hs, -, heq⟩ :=
        he.resolveMethod_cases m
      · simp only [Engine.perform, heq] at h
        exact Or.inl h
      · simp only [Engine.perform, heq] at h
        exact Or.inl h
      · simp only [Engine.perform, heq] at h
        have hstored : (s.commit e).Stores a := by cases a <;> exact h
        exact he.needs_of_explored_method hexplores hs hstored

/-- A request fails only if something that it needs has no sentence or form. -/
theorem Grounded.exists_not_resolvable (he : e.Grounded) (hq : q.IsUnaided) {err : ResolutionError}
    (h : (e.perform q).1 = .error err) :
    ∃ a, e.program.Needs e.options q.target a ∧ ¬e.program.Resolvable e.options a := by
  cases q with
  | type t =>
      obtain ⟨x, -, heq⟩ | ⟨err, r, hexplores, heq⟩ | ⟨x, s, r, -, -, -, -, heq⟩ :=
        he.resolveType_cases t
      · simp [Engine.perform, heq, Except.map] at h
      · obtain ⟨b, hb, u, hbu, hu⟩ := hexplores.exists_of_error
        obtain rfl := List.mem_singleton.1 hb
        exact ⟨.type u, Program.Reaches.needs hbu, Program.not_resolvable_of_dependencies hu⟩
      · simp [Engine.perform, heq, Except.map] at h
  | method m types methods =>
      obtain ⟨rfl, rfl⟩ := hq
      obtain ⟨f, -, heq⟩ | ⟨err, r, hexplores, heq⟩ | ⟨f, s, r, -, -, -, heq⟩ :=
        he.resolveMethod_cases m
      · simp [Engine.perform, heq, Except.map] at h
      · obtain ⟨b, hb, m', hbm, hm'⟩ := hexplores.exists_of_error
        obtain rfl := List.mem_singleton.1 hb
        obtain ⟨a, ha, hnot⟩ := Program.exists_not_resolvable_of_callees hm'
        exact ⟨a, (Program.needs_of_expands hbm).trans ha, hnot⟩
      · simp [Engine.perform, heq, Except.map] at h

/-- **What a request adds**: all that is needed for what it asks for. -/
theorem Grounded.stores_perform_iff (he : e.Grounded) (hq : q.IsUnaided)
    (h : (e.perform q).1 = .ok ()) :
    (e.perform q).2.Stores a ↔ e.Stores a ∨ e.program.Needs e.options q.target a := by
  refine ⟨he.stores_or_needs hq, ?_⟩
  rintro (hstored | hneeds)
  · exact stores_perform_of_stores q hstored
  · obtain ⟨hprogram, hoptions⟩ := e.program_perform q
    rw [← hprogram, ← hoptions] at hneeds
    exact (he.perform hq).stores_of_needs (stores_target_of_ok h) hneeds

/-- **When a request succeeds**: if the program alone gives all that it needs. -/
theorem Grounded.perform_eq_ok_iff (he : e.Grounded) (hq : q.IsUnaided) :
    (e.perform q).1 = .ok () ↔
      ∀ a, e.program.Needs e.options q.target a → e.program.Resolvable e.options a := by
  constructor
  · intro h a ha
    obtain ⟨hprogram, hoptions⟩ := e.program_perform q
    have hresolvable := (he.perform hq).resolvable ((he.stores_perform_iff hq h).2 (Or.inr ha))
    rwa [hprogram, hoptions] at hresolvable
  · intro hall
    cases h : (e.perform q).1 with
    | ok _ => rfl
    | error err =>
        obtain ⟨a, ha, hnot⟩ := he.exists_not_resolvable hq h
        exact absurd (hall a ha) hnot

/-! ## requests for methods -/

theorem Grounded.form?_of_resolveMethod (he : e.Grounded) {answer : Resolution Form}
    (h : (e.resolveMethod m [] []).1 = .ok answer) :
    e.program.form? e.options m = some answer.get := by
  obtain ⟨f, hf, heq⟩ | ⟨err, r, -, heq⟩ | ⟨f, s, r, -, -, hf, heq⟩ := he.resolveMethod_cases m
  · rw [heq] at h
    rw [← Except.ok.inj h]
    exact Program.form?_of_formOutcome (he.forms m f hf)
  · rw [heq] at h
    contradiction
  · rw [heq] at h
    rw [← Except.ok.inj h]
    exact Program.form?_of_formOutcome hf

theorem Grounded.exists_answer_iff (he : e.Grounded) (m : MethodRef) :
    (∃ answer, (e.resolveMethod m [] []).1 = .ok answer) ↔
      ∀ a, e.program.Needs e.options (.method m) a → e.program.Resolvable e.options a := by
  have hq : (Request.method m [] []).IsUnaided := ⟨rfl, rfl⟩
  refine Iff.trans ?_ (he.perform_eq_ok_iff hq)
  rw [Engine.perform, map_eq_ok]
  simp

section

variable {answer : Resolution Form} (he : e.Grounded)
  (h : (e.resolveMethod m [] []).1 = .ok answer)
include he h

theorem Grounded.stores_resolveMethod_iff :
    (e.resolveMethod m [] []).2.Stores a ↔
      e.Stores a ∨ e.program.Needs e.options (.method m) a :=
  he.stores_perform_iff (q := .method m [] []) ⟨rfl, rfl⟩ (congrArg (Except.map _) h)

theorem Grounded.find?_types_resolveMethod_iff {t : TypeRef} {x : Sentence} :
    (e.resolveMethod m [] []).2.types.find? t = some x ↔
      (e.types.contains t = true ∨ e.program.Needs e.options (.method m) (.type t)) ∧
        Sentence.encode e.options.exceptionBase e.program t = .ok x := by
  obtain ⟨hprogram, hoptions⟩ := e.program_perform (.method m [] [])
  have hafter := (he.perform (q := .method m [] []) ⟨rfl, rfl⟩).find?_types_iff (t := t) (x := x)
  rw [hprogram, hoptions] at hafter
  exact hafter.trans (and_congr_left fun _ => he.stores_resolveMethod_iff h)

theorem Grounded.find?_forms_resolveMethod_iff {m' : MethodRef} :
    (e.resolveMethod m [] []).2.forms.find? m' = some f ↔
      (e.forms.contains m' = true ∨ e.program.Needs e.options (.method m) (.method m')) ∧
        e.program.form? e.options m' = some f := by
  obtain ⟨hprogram, hoptions⟩ := e.program_perform (.method m [] [])
  have hafter := (he.perform (q := .method m [] []) ⟨rfl, rfl⟩).find?_forms_iff (m := m') (f := f)
  rw [hprogram, hoptions] at hafter
  exact hafter.trans (and_congr_left fun _ => he.stores_resolveMethod_iff h)

end

/-- **What a request for a method adds**, after any requests without handlers. It succeeds just if
every type that the method needs can be encoded and every method that it needs is left out or has
a graph that can be. Then the types and methods with a sentence or form are those from before and
those that the method needs, and each has what the program alone gives for it. -/
theorem resolveMethod_adds_needs (p : Program) (o : Options) {history : List Request}
    (hhistory : ∀ q ∈ history, q.IsUnaided) (m : MethodRef) :
    let e := (Engine.new p o).performAll history
    let result := e.resolveMethod m [] []
    ((∃ answer, result.1 = .ok answer) ↔ ∀ a, p.Needs o (.method m) a → p.Resolvable o a) ∧
    ∀ answer, result.1 = .ok answer →
      p.form? o m = some answer.get ∧
      (∀ t x, result.2.types.find? t = some x ↔
        (e.types.contains t = true ∨ p.Needs o (.method m) (.type t)) ∧
          Sentence.encode o.exceptionBase p t = .ok x) ∧
      ∀ m' f, result.2.forms.find? m' = some f ↔
        (e.forms.contains m' = true ∨ p.Needs o (.method m) (.method m')) ∧
          p.form? o m' = some f := by
  intro e result
  obtain ⟨he, hprogram, hoptions⟩ := grounded_performAll p o hhistory
  refine ⟨?_, fun answer hanswer => ⟨?_, fun t x => ?_, fun m' f => ?_⟩⟩
  · simpa only [hprogram, hoptions] using he.exists_answer_iff m
  · simpa only [hprogram, hoptions] using he.form?_of_resolveMethod hanswer
  · simpa only [hprogram, hoptions] using he.find?_types_resolveMethod_iff hanswer
  · simpa only [hprogram, hoptions] using he.find?_forms_resolveMethod_iff hanswer

end Engine

namespace Sample

/-- With the type that `linked` lacks. -/
def stocked : Program :=
  linked.addType
    { type := stamp, base := none, fields := [⟨"time", .int32, false⟩], isValueType := true }

/-- The first of these requests fails. -/
def visits : List Engine.Request :=
  [.method (.static stamp "Now" [] stamp) [] [], .type (.array .string), .method initNode [] []]

theorem unaided_visits : ∀ q ∈ visits, q.IsUnaided := by
  intro q hq
  simp only [visits, List.mem_cons, List.not_mem_nil, or_false] at hq
  obtain rfl | rfl | rfl := hq
  · exact ⟨rfl, rfl⟩
  · trivial
  · exact ⟨rfl, rfl⟩

theorem adds_needs_grow : (∀ q ∈ visits, q.IsUnaided) ∧
    (∀ a, stocked.Needs {} (.method grow) a → stocked.Resolvable {} a) ∧
    ∀ t x, (((Engine.new stocked {}).performAll visits).resolveMethod grow [] []).2.types.find? t =
        some x ↔
      (((Engine.new stocked {}).performAll visits).types.contains t = true ∨
        stocked.Needs {} (.method grow) (.type t)) ∧ Sentence.encode none stocked t = .ok x := by
  have hok :
      (((Engine.new stocked {}).performAll visits).resolveMethod grow [] []).1.isOk = true := by
    decide +kernel
  obtain ⟨hsuccess, hadds⟩ := Engine.resolveMethod_adds_needs stocked {} unaided_visits grow
  cases hanswer : (((Engine.new stocked {}).performAll visits).resolveMethod grow [] []).1 with
  | error err =>
      rw [hanswer] at hok
      contradiction
  | ok answer =>
      exact ⟨unaided_visits, hsuccess.1 ⟨answer, hanswer⟩, (hadds answer hanswer).2.1⟩

end Sample

end Pathwise
