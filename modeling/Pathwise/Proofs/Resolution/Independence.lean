import Pathwise.Proofs.Declarations.Groups
import Pathwise.Proofs.Resolution.Closure
import Pathwise.Proofs.TypeOrder

/-!
# Pathwise.Proofs.Resolution.Independence

Without handlers the order of requests does not matter (`Engine.performAll_perm`).
A request ends after any others as it does first of all, with the same answer or the
same error (`Grounded.outcome_eq_new`): what is stored is sealed, and so makes no
difference to an exploration. What is stored in the end is what the requests that
succeed need (`stores_performAll_iff`), and the declarations depend only on which
sentences are stored, since the order of types is linear
(`TypeRepository.declarations_congr`).
-/

namespace Pathwise

/-! ## declarations -/

namespace TypeRepository

variable {r r' : TypeRepository}

theorem pairwise_sorted (r : TypeRepository) :
    r.sorted.Pairwise fun a b => (compare a.type b.type).isLE = true := by
  refine List.pairwise_mergeSort ?_ ?_ _
  · exact fun _ _ _ hab hbc => TypeRef.isLE_trans hab hbc
  · exact fun a b => TypeRef.isLE_total a.type b.type

theorem sorted_congr (hr : r.Built) (hr' : r'.Built) (h : ∀ t, r.find? t = r'.find? t) :
    r.sorted = r'.sorted := by
  have hmem : ∀ s, s ∈ r.sorted ↔ s ∈ r'.sorted := by
    intro s
    rw [hr.mem_sorted, hr'.mem_sorted, h]
  have hperm : r.sorted.Perm r'.sorted :=
    (List.perm_ext_iff_of_nodup hr.nodup_types.of_map hr'.nodup_types.of_map).2 hmem
  refine hperm.eq_of_pairwise ?_ r.pairwise_sorted r'.pairwise_sorted
  intro a b ha hb hab hba
  -- sentences of one type are equal, as each type has one sentence
  have htype : a.type = b.type := TypeRef.eq_of_isLE hab hba
  have hfind := hr.mem_sorted.1 ha
  rw [htype, hr.mem_sorted.1 ((hmem b).2 hb)] at hfind
  exact (Option.some.inj hfind).symm

/-- Declarations depend only on which sentences are stored, not on when each was. -/
theorem declarations_congr (hr : r.Built) (hr' : r'.Built) (h : ∀ t, r.find? t = r'.find? t) :
    r.declarations = r'.declarations := by
  unfold declarations
  rw [sorted_congr hr hr' h]

end TypeRepository

/-! ## answers -/

/-- An answer, without whether it was there before. -/
def Resolution.unmarked {α : Type} : Resolution α → Resolution α
  | .cached a | .constructed a => .constructed a
  | .handled a => .handled a

namespace Engine

variable {e : Engine} {q : Request} {requests : List Request} {a : PendingRef}

/-- How a request ends: with a sentence or a form, or with an error. -/
def outcome (e : Engine) : Request → Except ResolutionError (Resolution Sentence ⊕ Resolution Form)
  | .type t => (e.resolveType t).1.map fun answer => .inl answer.unmarked
  | .method m types methods =>
    (e.resolveMethod m types methods).1.map fun answer => .inr answer.unmarked

/-- A request for a type ends as the exploration of what the type depends on does; the answer is the
program's sentence. -/
theorem Grounded.outcome_type (he : e.Grounded) (t : TypeRef) :
    ∃ result, Explores (e.program.dependencies e.options) [t] e.types.contains result ∧
      e.outcome (.type t) = result.bind fun _ =>
        ((Engine.new e.program e.options).constructSentence [] t).map fun x =>
          .inl (.constructed x.1) := by
  have hconstruct : ∀ x, Sentence.encode e.options.exceptionBase e.program t = .ok x →
      (Engine.new e.program e.options).constructSentence [] t = .ok (x, false) :=
    fun x hx => constructSentence_nil_eq_ok.2 ⟨hx, rfl⟩
  obtain ⟨x, hx, heq⟩ | ⟨err, r, hexplores, heq⟩ | ⟨x, s, r, hexplores, -, -, hx, heq⟩ :=
    he.resolveType_cases t
  · have hknown : e.types.contains t = true := Option.isSome_iff_exists.2 ⟨x, hx⟩
    refine ⟨_, .skip hknown (.done _), ?_⟩
    rw [outcome, heq, hconstruct x (he.valid.types t x hx)]
    rfl
  · refine ⟨_, hexplores, ?_⟩
    rw [outcome, heq]
    rfl
  · refine ⟨_, hexplores, ?_⟩
    rw [outcome, heq, hconstruct x hx]
    rfl

/-- A request for a method ends as the exploration of what the method runs does; the answer is the
program's form. -/
theorem Grounded.outcome_method (he : e.Grounded) (m : MethodRef) :
    ∃ result, Explores (e.program.callees e.options) [m] e.forms.contains result ∧
      e.outcome (.method m [] []) = result.bind fun _ =>
        (e.program.formOutcome e.options m).map fun f => .inr (.constructed f) := by
  obtain ⟨f, hf, heq⟩ | ⟨err, r, hexplores, heq⟩ | ⟨f, s, r, hexplores, -, hf, heq⟩ :=
    he.resolveMethod_cases m
  · have hknown : e.forms.contains m = true := Option.isSome_iff_exists.2 ⟨f, hf⟩
    refine ⟨_, .skip hknown (.done _), ?_⟩
    rw [outcome, heq, he.forms m f hf]
    rfl
  · refine ⟨_, hexplores, ?_⟩
    rw [outcome, heq]
    rfl
  · refine ⟨_, hexplores, ?_⟩
    rw [outcome, heq, hf]
    rfl

/-- **A request ends as it does in a new engine.** -/
theorem Grounded.outcome_eq_new (he : e.Grounded) (hq : q.IsUnaided) :
    e.outcome q = (Engine.new e.program e.options).outcome q := by
  have hnew := grounded_new e.program e.options
  cases q with
  | type t =>
      obtain ⟨result, hexplores, heq⟩ := he.outcome_type t
      obtain ⟨result', hexplores', heq'⟩ := hnew.outcome_type t
      rw [heq, heq', hexplores.eq_map_either he.typesSealed hexplores']
      cases result' <;> rfl
  | method m types methods =>
      obtain ⟨rfl, rfl⟩ := hq
      obtain ⟨result, hexplores, heq⟩ := he.outcome_method m
      obtain ⟨result', hexplores', heq'⟩ := hnew.outcome_method m
      rw [heq, heq', hexplores.eq_map_either he.formsSealed hexplores']
      cases result' <;> rfl

/-! ## what is stored in the end -/

/-- What one request adds, whichever way it ends. -/
theorem Grounded.stores_perform (he : e.Grounded) (hq : q.IsUnaided) :
    (e.perform q).2.Stores a ↔ e.Stores a ∨
      (∀ b, e.program.Needs e.options q.target b → e.program.Resolvable e.options b) ∧
        e.program.Needs e.options q.target a := by
  rw [← he.perform_eq_ok_iff hq]
  cases h : (e.perform q).1 with
  | ok _ =>
      rw [he.stores_perform_iff hq h]
      simp
  | error err =>
      obtain ⟨htypes, hforms⟩ := e.perform_of_error q h
      have hsame : (e.perform q).2.Stores a ↔ e.Stores a := by
        cases a with
        | type t => rw [Stores, Stores, htypes]
        | method m => rw [Stores, Stores, hforms]
      rw [hsame]
      simp

/-- What many requests add: all that those need which succeed. -/
theorem Grounded.stores_performAll (he : e.Grounded) (h : ∀ q ∈ requests, q.IsUnaided) :
    (e.performAll requests).Stores a ↔ e.Stores a ∨ ∃ q ∈ requests,
      (∀ b, e.program.Needs e.options q.target b → e.program.Resolvable e.options b) ∧
        e.program.Needs e.options q.target a := by
  induction requests generalizing e with
  | nil => simp [performAll]
  | cons q requests ih =>
      rw [List.forall_mem_cons] at h
      obtain ⟨hprogram, hoptions⟩ := e.program_perform q
      have hrest := ih (he.perform h.1) h.2
      rw [hprogram, hoptions, he.stores_perform h.1] at hrest
      rw [List.exists_mem_cons_iff, ← or_assoc]
      exact hrest

/-- Everything stored is stored as the encoding of its type. -/
theorem built_commit {s : Staging} (he : e.types.Built) (hs : e.Staged s) :
    (s.commit e).types.Built := by
  have hentries : ∀ x ∈ s.sentences.entries,
      Sentence.encode e.options.exceptionBase e.program x.1 = .ok x.2.1 :=
    fun x hx => hs.sentences x.1 x.2 hx
  unfold Staging.commit
  generalize s.sentences.entries = entries at hentries
  induction entries with
  | nil => exact he
  | cons x entries ih =>
      rw [List.forall_mem_cons] at hentries
      exact .insert (ih hentries.2) hentries.1

theorem Valid.built_perform (he : e.Valid) (hbuilt : e.types.Built) (hq : q.IsUnaided) :
    (e.perform q).2.types.Built := by
  obtain ⟨-, heq⟩ | ⟨r, -, ⟨err, heq⟩ | ⟨s, hs, heq⟩⟩ := e.perform_cases q
  · rwa [heq]
  · rwa [heq]
  · rw [heq]
    exact built_commit (e := e) hbuilt (he.staged_of_serves hq hs)

theorem built_performAll (p : Program) (o : Options) (h : ∀ q ∈ requests, q.IsUnaided) :
    ((Engine.new p o).performAll requests).types.Built := by
  refine (performAll_induction (P := fun e => e.Valid ∧ e.types.Built) ?_
    ⟨valid_new p o, .empty⟩).2
  rintro q hq e ⟨hvalid, hbuilt⟩
  exact ⟨hvalid.perform (h q hq), hvalid.built_perform hbuilt (h q hq)⟩

theorem Filled.built (h : e.Filled) : e.types.Built := by
  induction h with
  | new p o => exact .empty
  | @resolveMethod e e' m f he h ih =>
      have hperform : (e.perform (.method m [] [])).2 = e' := by simp only [perform, h]
      rw [← hperform]
      exact he.valid.built_perform ih ⟨rfl, rfl⟩

/-! ## requests in any order -/

theorem outcome_performAll (p : Program) (o : Options) {history : List Request}
    (hhistory : ∀ q ∈ history, q.IsUnaided) (hq : q.IsUnaided) :
    ((Engine.new p o).performAll history).outcome q = (Engine.new p o).outcome q := by
  obtain ⟨he, hprogram, hoptions⟩ := grounded_performAll p o hhistory
  rw [he.outcome_eq_new hq, hprogram, hoptions]

theorem stores_performAll_iff (p : Program) (o : Options) (h : ∀ q ∈ requests, q.IsUnaided) :
    ((Engine.new p o).performAll requests).Stores a ↔ ∃ q ∈ requests,
      (∀ b, p.Needs o q.target b → p.Resolvable o b) ∧ p.Needs o q.target a := by
  have hnone : ¬(Engine.new p o).Stores a := by
    cases a <;> exact Bool.false_ne_true
  rw [(grounded_new p o).stores_performAll h]
  exact or_iff_right hnone

/-- Grounded engines of one program that store the same things are equal as maps. -/
theorem Grounded.find?_congr {e e' : Engine} (he : e.Grounded) (he' : e'.Grounded)
    (hprogram : e'.program = e.program) (hoptions : e'.options = e.options)
    (h : ∀ a, e.Stores a ↔ e'.Stores a) :
    (∀ t, e.types.find? t = e'.types.find? t) ∧ ∀ m, e.forms.find? m = e'.forms.find? m := by
  constructor
  · intro t
    refine Option.ext fun x => ?_
    rw [he.find?_types_iff, he'.find?_types_iff, hprogram, hoptions, h]
  · intro m
    refine Option.ext fun f => ?_
    rw [he.find?_forms_iff, he'.find?_forms_iff, hprogram, hoptions, h]

/-- **The order of requests does not matter.** Run without handlers in one order and in another,
each on a new engine, every request ends in the same way, with an equal sentence or form or with
the same error; whether that was stored before is not told. In the end the same sentences and forms
are stored, and the declarations are the same. -/
theorem performAll_perm (p : Program) (o : Options) {requests requests' : List Request}
    (hunaided : ∀ q ∈ requests, q.IsUnaided) (hperm : requests.Perm requests') :
    let e := (Engine.new p o).performAll requests
    let e' := (Engine.new p o).performAll requests'
    (∀ before q after before' after', requests = before ++ q :: after →
      requests' = before' ++ q :: after' →
      ((Engine.new p o).performAll before).outcome q =
        ((Engine.new p o).performAll before').outcome q) ∧
    (∀ t, e.types.find? t = e'.types.find? t) ∧
    (∀ m, e.forms.find? m = e'.forms.find? m) ∧
    e.declarations = e'.declarations := by
  intro e e'
  have hunaided' : ∀ q ∈ requests', q.IsUnaided := fun q hq => hunaided q (hperm.mem_iff.2 hq)
  obtain ⟨he, hprogram, hoptions⟩ := grounded_performAll p o hunaided
  obtain ⟨he', hprogram', hoptions'⟩ := grounded_performAll p o hunaided'
  have hstores : ∀ a, e.Stores a ↔ e'.Stores a := by
    intro a
    rw [stores_performAll_iff p o hunaided, stores_performAll_iff p o hunaided']
    simp only [hperm.mem_iff]
  obtain ⟨htypes, hforms⟩ :=
    he.find?_congr he' (hprogram'.trans hprogram.symm) (hoptions'.trans hoptions.symm) hstores
  refine ⟨?_, htypes, hforms, ?_⟩
  · rintro before q after before' after' rfl rfl
    have hq := hunaided q (by simp)
    rw [outcome_performAll p o (fun r hr => hunaided r (by simp [hr])) hq,
      outcome_performAll p o (fun r hr => hunaided' r (by simp [hr])) hq]
  · exact TypeRepository.declarations_congr (built_performAll p o hunaided)
      (built_performAll p o hunaided') htypes

end Engine

namespace Sample

theorem performAll_visits_reversed : (∀ q ∈ visits, q.IsUnaided) ∧ visits.Perm visits.reverse ∧
    ((Engine.new stocked {}).performAll (visits.take 2)).outcome (.method initNode [] []) =
      (Engine.new stocked {}).outcome (.method initNode [] []) ∧
    (∀ t, ((Engine.new stocked {}).performAll visits).types.find? t =
      ((Engine.new stocked {}).performAll visits.reverse).types.find? t) ∧
    (∀ m, ((Engine.new stocked {}).performAll visits).forms.find? m =
      ((Engine.new stocked {}).performAll visits.reverse).forms.find? m) ∧
    ((Engine.new stocked {}).performAll visits).declarations =
      ((Engine.new stocked {}).performAll visits.reverse).declarations := by
  have hperm : visits.Perm visits.reverse := (List.reverse_perm visits).symm
  obtain ⟨houtcomes, hmaps⟩ := Engine.performAll_perm stocked {} unaided_visits hperm
  exact ⟨unaided_visits, hperm, houtcomes (visits.take 2) _ [] [] _ rfl rfl, hmaps⟩

end Sample

end Pathwise
