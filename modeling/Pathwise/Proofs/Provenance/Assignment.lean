import Pathwise.Proofs.Coverable.Form
import Pathwise.Proofs.Renumbering.Form

/-!
# Pathwise.Proofs.Provenance.Assignment

What an assignment asserts. Terms *equate* a constant with a source if one of them
is an equation between the constant and the source, or what the source is
converted to. Every statement that notes an assignment equates its target with its
source, and still does in an invocation: renaming commutes with conversion, since
no function, null or numeral in a converted term is renamed
(`Engine.Valid.assigns`).
-/

namespace Pathwise

/-! ## conversions -/

namespace Sexp

variable {f : String → String}

mutual

/-- A term of which no atom is renamed stays. -/
theorem mapAtoms_eq_self : {e : Sexp} → (∀ x ∈ e.atoms, f x = x) → e.mapAtoms f = e
  | .atom t, h => by rw [mapAtoms, h t (List.mem_singleton_self t)]
  | .quoted _, _ => rfl
  | .list _, h => by rw [mapAtoms, mapAtomsList_eq_self h]

theorem mapAtomsList_eq_self :
    {es : List Sexp} → (∀ x ∈ atomsList es, f x = x) → mapAtomsList f es = es
  | [], _ => rfl
  | _ :: _, h => by
      rw [atomsList, List.forall_mem_append] at h
      rw [mapAtomsList, mapAtoms_eq_self h.1, mapAtomsList_eq_self h.2]

end

end Sexp

namespace Sentence

theorem mark_not_mem_pointerAccessor (s : Sentence) : '!' ∉ s.pointerAccessor.toList := by
  unfold pointerAccessor
  split
  · decide
  · exact s.mark_not_mem_name_append (by decide)

theorem mark_not_mem_typeAccessor (s : Sentence) : '!' ∉ s.typeAccessor.toList := by
  unfold typeAccessor
  split
  · decide
  · exact s.mark_not_mem_name_append (by decide)

variable {s : Sentence} {f : String → String} {a value : Sexp} {target : TypeRef}

/-- A reference is converted to `Object`, or not at all. -/
theorem applyReference_convert_mapAtoms (hf : ∀ x, '!' ∉ x.toList → f x = x) {null : Sexp}
    (hnull : null.mapAtoms f = null)
    (h : s.applyReference null (.convert a target) = .ok value) :
    s.applyReference null (.convert (a.mapAtoms f) target) = .ok (value.mapAtoms f) := by
  have hpointer : f s.pointerAccessor = s.pointerAccessor := hf _ s.mark_not_mem_pointerAccessor
  have htype : f s.typeAccessor = s.typeAccessor := hf _ s.mark_not_mem_typeAccessor
  simp only [applyReference] at h ⊢
  split at h
  · rw [← Except.ok.inj h, if_pos ‹_›]
    simp (disch := decide) [Sexp.ite, Sexp.eq, Sexp.app, Sexp.mapAtoms, Sexp.mapAtomsList, hf,
      hnull, hpointer, htype]
  · rw [if_neg ‹_›]
    split at h
    · rw [← Except.ok.inj h, if_pos ‹_›]
    · contradiction

/-- **Renaming commutes with conversion** if it keeps all names without a mark. -/
theorem apply_convert_mapAtoms (hf : ∀ x, '!' ∉ x.toList → f x = x)
    (h : s.apply (.convert a target) = .ok value) :
    s.apply (.convert (a.mapAtoms f) target) = .ok (value.mapAtoms f) := by
  have hname : (Sexp.atom (s.name ++ "_null")).mapAtoms f = .atom (s.name ++ "_null") := by
    rw [Sexp.mapAtoms, hf _ (s.mark_not_mem_name_append (by decide))]
  unfold apply at h ⊢
  cases hshape : s.shape with
  | bool | int | real =>
      rw [hshape] at h
      cases target with
      | builtin kind =>
          cases kind with
          | bool | int32 | float64 =>
              rw [← Except.ok.inj h]
              simp (disch := decide) [applyBool, applyInt, applyReal, applyNumeric, Sexp.ite,
                Sexp.eq, Sexp.nat, Sexp.app, Sexp.mapAtoms, Sexp.mapAtomsList, hf]
          | _ => contradiction
      | _ => contradiction
  | array element =>
      rw [hshape] at h
      refine applyReference_convert_mapAtoms hf (Sexp.mapAtoms_eq_self fun x hx => hf x ?_) h
      simp only [SeqArray.sort, Sexp.app, Sexp.atoms, Sexp.atomsList, List.append_nil,
        List.mem_append, List.mem_singleton] at hx
      obtain rfl | rfl | rfl | hx := hx
      · decide
      · decide
      · decide
      · exact mark_not_mem_sort element x hx
  | str | object | exceptionBase | composite =>
      rw [hshape] at h
      exact applyReference_convert_mapAtoms hf hname h

end Sentence

/-! ## equations -/

/-- A value that a sentence of the program converts a source to. -/
def Program.Converts (p : Program) (exceptionBase : Option TypeRef) (source value : Sexp) : Prop :=
  ∃ type s target, Sentence.encode exceptionBase p type = .ok s ∧
    s.apply (.convert source target) = .ok value

/-- One of some terms says that a constant equals a source, or what the source is converted to. -/
def Program.Equates (p : Program) (exceptionBase : Option TypeRef) (terms : List Sexp)
    (target : String) (source : Sexp) : Prop :=
  ∃ value, Sexp.eq (.atom target) value ∈ terms ∧
    (value = source ∨ p.Converts exceptionBase source value)

namespace Program.Equates

variable {p : Program} {exceptionBase : Option TypeRef} {terms terms' : List Sexp}
  {target : String} {source : Sexp}

theorem mono (h : p.Equates exceptionBase terms target source) (hsub : terms ⊆ terms') :
    p.Equates exceptionBase terms' target source := by
  obtain ⟨value, hmem, hvalue⟩ := h
  exact ⟨value, hsub hmem, hvalue⟩

theorem mapAtoms {f : String → String} (hf : ∀ x, '!' ∉ x.toList → f x = x)
    (h : p.Equates exceptionBase terms target source) :
    p.Equates exceptionBase (terms.map (·.mapAtoms f)) (f target) (source.mapAtoms f) := by
  obtain ⟨value, hmem, hvalue⟩ := h
  refine ⟨value.mapAtoms f, List.mem_map.2 ⟨_, hmem, ?_⟩, ?_⟩
  · simp (disch := decide) [Sexp.eq, Sexp.app, Sexp.mapAtoms, Sexp.mapAtomsList, hf]
  · obtain rfl | ⟨type, s, t, hs, happly⟩ := hvalue
    · exact Or.inl rfl
    · exact Or.inr ⟨type, s, t, hs, Sentence.apply_convert_mapAtoms hf happly⟩

end Program.Equates

/-- A statement that equates what it assigns. -/
def Statement.Assigns (p : Program) (exceptionBase : Option TypeRef) (st : Statement) : Prop :=
  ∀ source target, st.effect = .assign source target →
    p.Equates exceptionBase st.terms target source

/-! ## instructions -/

namespace Lowering

open MethodGraph (Instruction)

variable {c : Lowering} {i : Instruction}

variable {p : Program} {exceptionBase : Option TypeRef}

/-- **An assignment asserts what it notes**: the target equals the source, converted if the types
differ. -/
theorem assigns_lower (hl : p.Encodes exceptionBase c.lookup) {l : Lowered}
    (h : c.lower i = .ok l) : ∀ st ∈ l.statements, st.Assigns p exceptionBase := by
  intro st hst source target heffect
  obtain ⟨x, y, value, e, rfl, rfl, hvalue, hterm, hterms⟩ :=
    (emits_lower h st hst).performs.assigned source target heffect
  obtain ⟨s, -, hterm⟩ := bind_eq_ok.1 hterm
  rw [Lowering.apply, mapError_eq_ok, Sentence.apply_equal] at hterm
  refine ⟨value, ?_, ?_⟩
  · rw [hterms, ← Except.ok.inj hterm]
    exact List.mem_singleton_self _
  · unfold coerce at hvalue
    split at hvalue
    · exact Or.inl (Except.ok.inj hvalue).symm
    · obtain ⟨s', hs', happly⟩ := bind_eq_ok.1 hvalue
      exact Or.inr ⟨_, s', _, hl _ _ hs', mapError_eq_ok.1 happly⟩

theorem Declares.assigns {vs : List Variable} {q : Placed} (h : c.Declares vs q) :
    q.statement.Assigns p exceptionBase := by
  obtain ⟨v, -, offset, s, -, hst⟩ := h
  intro source target heffect
  rw [hst] at heffect
  contradiction

end Lowering

/-! ## forms -/

/-- The terms that a statement asserts in an invocation. -/
theorem Statement.filterMap_lines (st : Statement) (r : Renaming) :
    (st.lines.map r.line).filterMap Line.term? = st.terms.map (·.mapAtoms r.symbol) := by
  unfold Statement.lines Statement.terms
  cases st.body with
  | declaration => rfl
  | assertion | branch =>
      simp [List.filterMap_map, Function.comp_def, Renaming.line, Line.rename, Line.term?]

/-- A form whose statements equate what they assign, in every invocation. -/
def Form.Assigns (p : Program) (exceptionBase : Option TypeRef) (f : Form) : Prop :=
  ∀ q ∈ f.statements, ∀ site source target, q.statement.effect = .assign source target →
    p.Equates exceptionBase ((q.statement.lines.map (Renaming.of f site).line).filterMap Line.term?)
      ((Renaming.of f site).symbol target) ((Renaming.of f site).term source)

theorem Form.assigns_of_ofGraph {p : Program} {exceptionBase : Option TypeRef}
    {lookup : SentenceLookup} {g : MethodGraph} {f : Form} (hl : p.Encodes exceptionBase lookup)
    (ht : ∀ t ∈ g.mentionedTypes, ∃ s, Sentence.encode exceptionBase p t = .ok s)
    (h : Form.ofGraph lookup g = .ok f) : f.Assigns p exceptionBase := by
  have hstatements := forall_statements_of_ofGraph (P := Statement.Assigns p exceptionBase)
    (fun st k hst => hst) (fun q hq => hq.assigns)
    (fun b _ i _ => ⟨fun q hq => hq.assigns, fun l hlower => Lowering.assigns_lower hl hlower⟩) h
  intro q hq site source target heffect
  rw [Statement.filterMap_lines]
  exact (hstatements q hq source target heffect).mapAtoms
    ((renamable_of_ofGraph hl ht h).fixes site)

/-- **The forms of a valid engine equate what they assign.** -/
theorem Engine.Valid.assigns {e : Engine} (he : e.Valid) {m : MethodRef} {f : Form}
    (hf : e.form? m = some f) : f.Assigns e.program e.options.exceptionBase := by
  cases he.forms m f hf with
  | leftOut =>
      intro q hq
      simp [Form.statements, Form.empty, Block.statements] at hq
  | encoded hg hl ht hf => exact Form.assigns_of_ofGraph hl ht hf

end Pathwise
