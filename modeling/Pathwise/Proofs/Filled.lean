import Pathwise.Proofs.Resolution.Request

/-!
# Pathwise.Proofs.Filled

Engines that were filled by requests without handlers, and what they store: the
sentences of the program's types, and for each method the form of its graph or,
if the method is left out, the empty form (`Engine.Filled.builds`).

The invariant is shown for what one request stages and then for a whole request,
whichever way it ends.
-/

namespace Pathwise

/-- The sentences that a lookup gives are those of the program's types. -/
def Program.Encodes (p : Program) (exceptionBase : Option TypeRef) (lookup : SentenceLookup) :
    Prop :=
  ∀ t s, lookup t = .ok s → Sentence.encode exceptionBase p t = .ok s

theorem Program.encodes_lookup (p : Program) (exceptionBase : Option TypeRef) :
    p.Encodes exceptionBase (p.lookup exceptionBase) := by
  intro t s h
  exact mapError_eq_ok.1 h

/-- What a request without handlers can store as the form of a method. -/
inductive Program.Builds (p : Program) (o : Options) (m : MethodRef) : Form → Prop where
  | leftOut : Builds p o m (.empty m)
  | encoded {g : MethodGraph} {lookup : SentenceLookup} {f : Form}
      (hg : p.methodGraph? m = some g) (hl : p.Encodes o.exceptionBase lookup)
      (ht : ∀ t ∈ g.mentionedTypes, ∃ s, Sentence.encode o.exceptionBase p t = .ok s)
      (hf : Form.ofGraph lookup g = .ok f) : Builds p o m f

/-- A request that brings no handlers. -/
def Engine.Request.IsUnaided : Engine.Request → Prop
  | .type _ => True
  | .method _ types methods => types = [] ∧ methods = []

namespace Engine

variable {m : MethodRef}

/-! ## what a request stages -/

/-- Everything stored comes from the program. -/
structure Valid (e : Engine) : Prop where
  types : ∀ t s, e.types.find? t = some s →
    Sentence.encode e.options.exceptionBase e.program t = .ok s
  forms : ∀ m f, e.form? m = some f → e.program.Builds e.options m f

/-- Everything staged comes from the program. -/
structure Staged (e : Engine) (s : Staging) : Prop where
  sentences : ∀ t entry, (t, entry) ∈ s.sentences.entries →
    Sentence.encode e.options.exceptionBase e.program t = .ok entry.1
  forms : ∀ m entry, (m, entry) ∈ s.forms.entries → e.program.Builds e.options m entry.1

theorem staged_empty (e : Engine) : e.Staged .empty where
  sentences _ _ h := by contradiction
  forms _ _ h := by contradiction

variable {e : Engine} {s out : Staging}

theorem Staged.encodes (he : e.Valid) (hs : e.Staged s) :
    e.program.Encodes e.options.exceptionBase (s.lookup e) := by
  intro t sentence h
  obtain ⟨handled, hmem⟩ | hstored := lookup_cases h
  · exact hs.sentences t _ hmem
  · exact he.types t sentence hstored

theorem Staged.exists_of_hasType (he : e.Valid) (hs : e.Staged s) {t : TypeRef}
    (h : s.hasType e t = true) :
    ∃ sentence, Sentence.encode e.options.exceptionBase e.program t = .ok sentence := by
  obtain ⟨entry, hmem⟩ | ⟨stored, hstored⟩ := hasType_cases h
  · exact ⟨_, hs.sentences t entry hmem⟩
  · exact ⟨stored, he.types t stored hstored⟩

theorem Staged.extends (hs : e.Staged s) (h : e.Extends [] s out) : e.Staged out where
  sentences t entry hentry := by
    cases h.origin t entry hentry with
    | inl hold => exact hs.sentences t entry hold
    | inr hnew =>
        obtain ⟨handler, hmem, -⟩ | hencode := constructSentence_cases hnew
        · contradiction
        · exact hencode
  forms := h.forms ▸ hs.forms

theorem Staged.addForm (hs : e.Staged s) {form : Form} (handled : Bool)
    (h : e.program.Builds e.options m form) : e.Staged (s.addForm m form handled) where
  sentences := hs.sentences
  forms m' entry hentry := by
    cases Table.mem_entries_set hentry with
    | inl heq =>
        obtain ⟨rfl, rfl⟩ := Prod.mk.inj heq
        exact h
    | inr hmem => exact hs.forms m' entry hmem

theorem Staged.constructs (he : e.Valid) (hs : e.Staged s) {f : Form} {handled : Bool}
    (h : e.Constructs [] [] m s f handled out) :
    e.program.Builds e.options m f := by
  cases h with
  | handled h =>
      obtain ⟨handler, hmem, -⟩ := exists_of_ask h
      contradiction
  | leftOut _ => exact .leftOut
  | encoded hg hstages hf =>
      have hout := hs.extends hstages.extends
      exact .encoded hg (hout.encodes he)
        (fun t ht => hout.exists_of_hasType he (hstages.hasType_of_mem ht)) hf

theorem Staged.drains (he : e.Valid) (hs : e.Staged s) {queue seen : List PendingRef}
    (h : e.Drains [] [] queue seen s out) : e.Staged out := by
  induction h with
  | done _ _ => exact hs
  | skip _ _ ih => exact ih hs
  | type h _ ih => exact ih (hs.extends h.extends)
  | stored _ _ ih => exact ih hs
  | method h _ ih => exact ih ((hs.extends h.extends).addForm _ (hs.constructs he h))

theorem Valid.staged_of_serves (he : e.Valid) {q : Request} (hq : q.IsUnaided)
    (h : e.Serves q s) : e.Staged s := by
  cases h with
  | type h => exact e.staged_empty.extends h.extends
  | method h =>
      obtain ⟨rfl, rfl⟩ := hq
      exact e.staged_empty.drains he h

/-! ## what a request stores -/

theorem Valid.commit (he : e.Valid) (hs : e.Staged s) : (s.commit e).Valid where
  types t sentence h := by
    obtain hold | ⟨u, entry, hmem, rfl, rfl⟩ := find?_types_of_commit h
    · exact he.types t sentence hold
    · have hencode := hs.sentences u entry hmem
      rwa [Sentence.type_of_encode hencode]
  forms m f h := by
    obtain hold | ⟨handled, hmem⟩ := find?_forms_of_commit h
    · exact he.forms m f hold
    · exact hs.forms m _ hmem

/-- A request without handlers keeps the invariant, whichever way it ends. -/
theorem Valid.perform (he : e.Valid) {q : Request} (hq : q.IsUnaided) :
    (e.perform q).2.Valid := by
  obtain ⟨-, heq⟩ | ⟨r, -, ⟨err, heq⟩ | ⟨s, hs, heq⟩⟩ := e.perform_cases q
  · rwa [heq]
  · rw [heq]
    exact ⟨he.types, he.forms⟩
  · have hstaged := he.staged_of_serves hq hs
    have hleft : Engine.Valid { e with handlers := r } := ⟨he.types, he.forms⟩
    rw [heq]
    exact hleft.commit ⟨hstaged.sentences, hstaged.forms⟩

theorem valid_new (p : Program) (o : Options) : (Engine.new p o).Valid where
  types t s h := by simp [Engine.new, TypeRepository.empty, TypeRepository.find?] at h
  forms m f h := by simp [Engine.new, FormRepository.empty, Engine.form?, FormRepository.find?] at h

/-- An engine that was filled by successful requests for methods, without handlers. -/
inductive Filled : Engine → Prop where
  | new (p : Program) (o : Options) : Filled (.new p o)
  | resolveMethod {e e' : Engine} {m : MethodRef} {f : Resolution Form} (he : Filled e)
      (h : e.resolveMethod m [] [] = (.ok f, e')) : Filled e'

theorem Filled.of_isOk (he : e.Filled) (h : (e.resolveMethod m [] []).1.isOk = true) :
    (e.resolveMethod m [] []).2.Filled := by
  cases hresult : (e.resolveMethod m [] []).1 with
  | error err =>
      rw [hresult] at h
      contradiction
  | ok f => exact .resolveMethod he (Prod.ext hresult rfl)

theorem Filled.valid (h : e.Filled) : e.Valid := by
  induction h with
  | new p o => exact valid_new p o
  | @resolveMethod e e' m f _ h ih =>
      have hperform : (e.perform (.method m [] [])).2 = e' := by simp only [perform, h]
      rw [← hperform]
      exact ih.perform ⟨rfl, rfl⟩

/-- **Stored forms**: a filled engine stores the forms of its program's graphs, and the empty form
for methods that are left out. -/
theorem Filled.builds (h : e.Filled) {f : Form} (hf : e.form? m = some f) :
    e.program.Builds e.options m f := h.valid.forms m f hf

end Engine

end Pathwise
