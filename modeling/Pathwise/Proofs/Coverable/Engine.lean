import Pathwise.Proofs.Coverable.Run
import Pathwise.Proofs.Filled
import Pathwise.Proofs.Resolution.Closed

/-!
# Pathwise.Proofs.Coverable.Engine

Resolved methods can be covered (`Engine.cover_of_resolved`). A request keeps an
engine coverable: its repositories are closed, what is allocated has a sentence,
and the paths of all forms can be followed.

Requests without handlers are all that this needs. Handlers may supply sentences and
forms of their own as long as these are sound: a sentence must fit its type, and the
paths of a form must be possible to follow. What an unsound handler left in an engine
stays there, and a method that was resolved with it may be impossible to cover.
-/

namespace Pathwise

/-- A handler that answers only with a sentence of the type it is asked for, which fits it. -/
def TypeHandler.Sound (h : TypeHandler) : Prop :=
  ∀ exceptionBase t s, h.answer exceptionBase t = .ok (some s) → s.type = t ∧ s.Fits t

/-- A handler that answers only with forms whose paths can be followed. -/
def MethodHandler.Sound (h : MethodHandler) : Prop :=
  ∀ m f, h.answer m = .ok (some f) → f.Prepared fun _ => False

namespace Engine

variable {m : MethodRef} {q : Request}

/-- A request whose handlers are sound. -/
def Request.Sound : Request → Prop
  | .type _ => True
  | .method _ types methods => (∀ h ∈ types, h.Sound) ∧ ∀ h ∈ methods, h.Sound

/-- Without handlers a request is sound. -/
theorem Request.IsUnaided.sound (h : q.IsUnaided) : q.Sound := by
  cases q with
  | type t => trivial
  | method m types methods =>
      obtain ⟨rfl, rfl⟩ := h
      exact ⟨by simp, by simp⟩

theorem Request.Sound.faithful (h : q.Sound) : q.Faithful := by
  cases q with
  | type t => trivial
  | method m types methods =>
      exact fun handler hmem exceptionBase t s hs => (h.1 handler hmem exceptionBase t s hs).1

/-- An engine whose forms can be covered. -/
structure Coverable (e : Engine) : Prop where
  closed : e.Closed
  fits : ∀ t x, e.types.find? t = some x → x.Fits t
  prepared : ∀ m f, e.forms.find? m = some f → f.Prepared fun t => e.types.contains t = true

theorem isDeclaration_of_callee? {s : Statement} (h : s.effect.callee? = some m) :
    s.isDeclaration = false := by
  unfold Statement.effect at h
  unfold Statement.isDeclaration Statement.slot?
  cases hbody : s.body with
  | declaration slot symbol sort => simp [hbody, Effect.callee?] at h
  | assertion terms effect => rfl
  | branch terms effect => rfl

theorem Coverable.provisioned {e : Engine} (he : e.Coverable) : e.Provisioned := by
  intro m f hf
  have hprepared := he.prepared m f hf
  refine ⟨hprepared.walkable, fun p hp => ⟨fun callee hcallee => ?_, fun t ht => ?_⟩⟩
  · have hnoted : callee ∈ f.referencedMethods := by
      unfold Form.referencedMethods
      rw [List.mem_eraseDups, List.mem_flatMap]
      refine ⟨p, List.mem_filter.2 ⟨hp, ?_⟩, (hprepared.backed p hp).callee callee hcallee⟩
      rw [isDeclaration_of_callee? hcallee]
      rfl
    exact Option.isSome_iff_exists.1 (he.closed.methods m f hf callee hnoted)
  · obtain ⟨href, hknown⟩ := (hprepared.backed p hp).allocated t ht
    have hstored : e.types.contains t = true := hknown.elim (he.closed.types m f hf t) id
    obtain ⟨x, hx⟩ := Option.isSome_iff_exists.1 hstored
    exact ⟨x, hx, (he.fits t x hx).2 href⟩

/-! ## what a request stages -/

variable {e : Engine} {s out : Staging} {types : List TypeHandler} {methods : List MethodHandler}

/-- Staged sentences fit their types, and the paths of staged forms can be followed. -/
structure Fit (e : Engine) (s : Staging) : Prop where
  fits : ∀ t entry, (t, entry) ∈ s.sentences.entries → entry.1.Fits t
  prepared : ∀ m entry, (m, entry) ∈ s.forms.entries →
    entry.1.Prepared fun t => s.hasType e t = true

theorem fit_empty (e : Engine) : e.Fit .empty where
  fits _ _ h := by contradiction
  prepared _ _ h := by contradiction

/-- Adding types keeps the fit. -/
theorem Fit.extends (htypes : ∀ h ∈ types, h.Sound) (hs : e.Fit s) (h : e.Extends types s out) :
    e.Fit out where
  fits t entry hentry := by
    cases h.origin t entry hentry with
    | inl hold => exact hs.fits t entry hold
    | inr hnew =>
        obtain ⟨handler, hmem, hanswer⟩ | hencode := constructSentence_cases hnew
        · exact (htypes handler hmem _ t _ hanswer).2
        · exact Sentence.fits_of_encode hencode
  prepared m entry hentry := by
    rw [h.forms] at hentry
    exact (hs.prepared m entry hentry).mono h.keeps

/-- Adding a prepared form keeps the fit. -/
theorem Fit.addForm (hs : e.Fit s) {f : Form} (handled : Bool)
    (h : f.Prepared fun t => s.hasType e t = true) : e.Fit (s.addForm m f handled) where
  fits := hs.fits
  prepared m' entry hentry := by
    cases Table.mem_entries_set hentry with
    | inl heq =>
        obtain ⟨rfl, rfl⟩ := Prod.mk.inj heq
        exact h
    | inr hmem => exact hs.prepared m' entry hmem

/-- Building a form keeps the fit. -/
theorem Fit.constructs (he : e.Coverable) (htypes : ∀ h ∈ types, h.Sound)
    (hmethods : ∀ h ∈ methods, h.Sound) (hs : e.Fit s) {f : Form} {handled : Bool}
    (h : e.Constructs types methods m s f handled out) :
    f.Prepared fun t => out.hasType e t = true := by
  cases h with
  | handled h =>
      obtain ⟨handler, hmem, hanswer⟩ := exists_of_ask h
      exact (hmethods handler hmem m f hanswer).mono fun t => False.elim
  | leftOut _ => exact Form.prepared_empty _ m
  | encoded _ hstages hf =>
      have hout := hs.extends htypes hstages.extends
      have hfits : ∀ t x, out.lookup e t = .ok x → x.Fits t := by
        intro t x hx
        obtain ⟨handled, hmem⟩ | hstored := lookup_cases hx
        · exact hout.fits t _ hmem
        · exact he.fits t x hstored
      refine (Form.prepared_of_ofGraph hfits hf).mono fun t ht => ?_
      obtain ⟨x, hx⟩ := ht
      exact hasType_of_lookup hx

/-- Working the queue off keeps the fit. -/
theorem Fit.drains (he : e.Coverable) (htypes : ∀ h ∈ types, h.Sound)
    (hmethods : ∀ h ∈ methods, h.Sound) (hs : e.Fit s) {queue seen : List PendingRef}
    (h : e.Drains types methods queue seen s out) : e.Fit out := by
  induction h with
  | done _ _ => exact hs
  | skip _ _ ih => exact ih hs
  | type h _ ih => exact ih (hs.extends htypes h.extends)
  | stored _ _ ih => exact ih hs
  | method h _ ih =>
      exact ih ((hs.extends htypes h.extends).addForm _ (hs.constructs he htypes hmethods h))

/-- Sound requests stage what fits. -/
theorem Coverable.fit_of_serves (he : e.Coverable) (hq : q.Sound) (h : e.Serves q s) : e.Fit s := by
  cases h with
  | type h => exact e.fit_empty.extends (by simp) h.extends
  | method h => exact e.fit_empty.drains he hq.1 hq.2 h

/-! ## what a request stores -/

/-- Storing what fits is safe. -/
theorem Coverable.commit (he : e.Coverable) (hcomplete : e.Complete s []) (hs : e.Fit s) :
    (s.commit e).Coverable where
  closed := he.closed.commit hcomplete
  fits t x hx := by
    obtain hold | ⟨u, entry, hmem, rfl, rfl⟩ := find?_types_of_commit hx
    · exact he.fits t x hold
    · rw [hcomplete.own u entry hmem]
      exact hs.fits u entry hmem
  prepared m f hf := by
    obtain hold | ⟨handled, hmem⟩ := find?_forms_of_commit hf
    · refine (he.prepared m f hold).mono fun t ht => ?_
      exact contains_commit_types hcomplete.own (by simp [Staging.hasType, ht])
    · exact (hs.prepared m _ hmem).mono fun t => contains_commit_types hcomplete.own

theorem Coverable.withHandlers (he : e.Coverable) (r : Registry) :
    Engine.Coverable { e with handlers := r } where
  closed := ⟨he.closed.dependencies, he.closed.types, he.closed.methods⟩
  fits := he.fits
  prepared := he.prepared

/-- One request, whichever way it ends, keeps an engine coverable. -/
theorem Coverable.perform (he : e.Coverable) (hq : q.Sound) :
    (e.perform q).2.Coverable := by
  obtain ⟨-, heq⟩ | ⟨r, -, ⟨err, heq⟩ | ⟨s, hs, heq⟩⟩ := e.perform_cases q
  · rwa [heq]
  · rw [heq]
    exact he.withHandlers r
  · have hcomplete := complete_of_serves hq.faithful hs
    have hfit := he.fit_of_serves hq hs
    rw [heq]
    exact (he.withHandlers r).commit ⟨hcomplete.own, hcomplete.depends, hcomplete.refers⟩
      ⟨hfit.fits, hfit.prepared⟩

/-- A new engine is coverable. -/
theorem coverable_new (p : Program) (o : Options) : (Engine.new p o).Coverable where
  closed := closed_new p o
  fits t x h := by simp [Engine.new, TypeRepository.empty, TypeRepository.find?] at h
  prepared m f h := by simp [Engine.new, FormRepository.empty, FormRepository.find?] at h

/-- Sound requests keep engines coverable. -/
theorem Coverable.performAll (he : e.Coverable) {requests : List Request}
    (h : ∀ q ∈ requests, q.Sound) : (e.performAll requests).Coverable :=
  performAll_induction (P := Coverable) (fun q hq _ he => he.perform (h q hq)) he

/-! ## coverage -/

/-- A method that was resolved has a form. -/
theorem exists_form_of_resolveMethod {e' : Engine} {answer : Resolution Form}
    (h : e.resolveMethod m types methods = (.ok answer, e')) : ∃ f, e'.form? m = some f := by
  obtain ⟨f, hf, heq⟩ | ⟨r, -, ⟨err, heq⟩ | ⟨s, answer', hs, heq⟩⟩ :=
    e.resolveMethod_cases m types methods
  · obtain ⟨-, rfl⟩ := Prod.mk.inj (h.symm.trans heq)
    exact ⟨f, hf⟩
  · obtain ⟨herr, -⟩ := Prod.mk.inj (h.symm.trans heq)
    contradiction
  · obtain ⟨-, rfl⟩ := Prod.mk.inj (h.symm.trans heq)
    obtain ⟨f, hf⟩ := exists_find?_commit_of_drains hs
    exact ⟨f, hf⟩

end Engine

theorem TypeHandler.sound_external (p : Program) : (TypeHandler.external p).Sound :=
  fun _ _ _ h => ⟨Sentence.type_of_encode (encode_of_external h),
    Sentence.fits_of_encode (encode_of_external h)⟩

namespace Sample

/-- Once `initNode` is resolved with the types of another program, `grow` needs no handlers. -/
def prior : List Engine.Request := [.method initNode [.external vendor] []]

/-- A handler gives the sentence of another type for `node`. -/
def swapped : List Engine.Request := [.method grow [.substitute node stamp vendor] []]

end Sample

end Pathwise
