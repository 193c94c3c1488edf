import Pathwise.Coverage.Site
import Pathwise.Proofs.Wording.Instruction

/-!
# Pathwise.Proofs.Renumbering.Pointer

That an object has a pointer is an equation between an accessor at a constant and a
number (`Sexp.StatesPointer`). No instruction asserts one (`Lowering.silent_lower`), so
no statement of a form does (`Form.silent_of_ofGraph`), whatever it is renamed to
(`Sexp.StatesPointer.of_term`): such equations are only added to a path where an
object is allocated.
-/

namespace Pathwise

/-! ## terms -/

namespace Sexp

variable {a : Sexp}

/-- `(= (f x) n)`, which says that the object `x` has the pointer `n` if `f` reads pointers. -/
def StatesPointer (a : Sexp) : Prop := ∃ f x n, a = .eq (.app f [.atom x]) (.nat n)

theorem not_statesPointer_atom (x : String) : ¬ (Sexp.atom x).StatesPointer := by
  simp [StatesPointer, eq, app]

/-- An equation of a constant says nothing about pointers. -/
theorem not_statesPointer_eq_atom (x : String) (a : Sexp) :
    ¬ (Sexp.eq (.atom x) a).StatesPointer := by
  simp [StatesPointer, eq, app]

/-- Only equations state pointers. -/
theorem not_statesPointer_app {f : String} (h : f ≠ "=") (args : List Sexp) :
    ¬ (Sexp.app f args).StatesPointer := by
  simp [StatesPointer, eq, app, h]

/-- A tag is no number. -/
theorem not_statesPointer_tag (f : String) (a : Sexp) (t : TypeRef) :
    ¬ (Sexp.eq (.app f [a]) (.atom t.tag)).StatesPointer := by
  rintro ⟨g, x, n, h⟩
  have htag : t.tag = toString n := by
    simp only [eq, app, nat, list.injEq, List.cons.injEq, atom.injEq] at h
    exact h.2.2.1
  have hmem : '_' ∈ t.tag.toList := by simp [TypeRef.tag]
  rw [htag] at hmem
  exact absurd ((Number.isNumeral_toString n).2 _ hmem) (by decide)

theorem mapAtomsList_eq_map (f : String → String) (es : List Sexp) :
    mapAtomsList f es = es.map (mapAtoms f) := by
  induction es with
  | nil => rfl
  | cons e es ih => rw [mapAtomsList, ih, List.map_cons]

theorem mapAtoms_eq_atom {f : String → String} {y : String} (h : a.mapAtoms f = .atom y) :
    ∃ x, a = .atom x ∧ f x = y := by
  cases a with
  | atom x => exact ⟨x, rfl, atom.inj h⟩
  | _ => simp [mapAtoms] at h

theorem mapAtoms_eq_list {f : String → String} {items : List Sexp}
    (h : a.mapAtoms f = .list items) : ∃ es, a = .list es ∧ es.map (mapAtoms f) = items := by
  cases a with
  | list es => exact ⟨es, rfl, (mapAtomsList_eq_map f es).symm.trans (list.inj h)⟩
  | _ => simp [mapAtoms] at h

/-- A renaming makes no such equation: what it changes gets a mark. -/
theorem StatesPointer.of_term {r : Renaming} (h : (r.term a).StatesPointer) :
    a.StatesPointer := by
  have hfixed : ∀ {x y : String}, r.symbol x = y → '!' ∉ y.toList → x = y := by
    intro x y hxy hy
    unfold Renaming.symbol at hxy
    split at hxy
    · exact absurd (by simp [← hxy]) hy
    · exact hxy
  obtain ⟨f, x, n, h⟩ := h
  obtain ⟨items, rfl, hitems⟩ := mapAtoms_eq_list h
  obtain ⟨q, items, rfl, hq, hitems⟩ := List.map_eq_cons_iff.1 hitems
  obtain ⟨l, items, rfl, hl, hitems⟩ := List.map_eq_cons_iff.1 hitems
  obtain ⟨k, rfl, hk⟩ := List.map_eq_singleton_iff.1 hitems
  obtain ⟨q, rfl, hequals⟩ := mapAtoms_eq_atom hq
  obtain ⟨k, rfl, hnumber⟩ := mapAtoms_eq_atom hk
  obtain ⟨inner, rfl, hinner⟩ := mapAtoms_eq_list hl
  obtain ⟨g, inner, rfl, hg, hinner⟩ := List.map_eq_cons_iff.1 hinner
  obtain ⟨y, rfl, hy⟩ := List.map_eq_singleton_iff.1 hinner
  obtain ⟨g, rfl, -⟩ := mapAtoms_eq_atom hg
  obtain ⟨y, rfl, -⟩ := mapAtoms_eq_atom hy
  have hn : '!' ∉ (toString n).toList := fun hmem =>
    absurd ((Number.isNumeral_toString n).2 _ hmem) (by decide)
  rw [hfixed hequals (by decide), hfixed hnumber hn]
  exact ⟨g, y, n, rfl⟩

end Sexp

/-! ## operations -/

/-- The operations that instructions assert, or negate. -/
inductive Operation.IsTest : Operation → Prop where
  | equal (x : String) (a : Sexp) : IsTest (.equal (.atom x) a)
  | isTrue (x : String) : IsTest (.isTrue (.atom x))
  | isFalse (x : String) : IsTest (.isFalse (.atom x))
  | isNull (x : String) : IsTest (.isNull (.atom x))
  | isNotNull (x : String) : IsTest (.isNotNull (.atom x))
  | holdsLiteral (x : String) (l : Literal) : IsTest (.holdsLiteral (.atom x) l)
  | allocated (x : String) : IsTest (.allocated (.atom x))
  | hasExactType (x : String) (t : TypeRef) : IsTest (.hasExactType (.atom x) (.atom t.tag))
  | belowLowerBound (a index : Sexp) : IsTest (.belowLowerBound a index)
  | aboveUpperBound (a index : Sexp) : IsTest (.aboveUpperBound a index)
  | inRange (a index : Sexp) : IsTest (.inRange a index)

namespace Sentence

variable {s : Sentence} {op : Operation} {e : Sexp}

theorem apply_equal (s : Sentence) (a b : Sexp) : s.apply (.equal a b) = .ok (.eq a b) := by
  obtain ⟨type, shape, base, dependencies⟩ := s
  cases shape <;> rfl

/-- Tests state no pointer. -/
theorem not_statesPointer_of_apply (hop : op.IsTest) (h : s.apply op = .ok e) :
    ¬ e.StatesPointer := by
  cases hop with
  | equal x a =>
      rw [apply_equal] at h
      obtain rfl := Except.ok.inj h
      exact Sexp.not_statesPointer_eq_atom x a
  | holdsLiteral x l =>
      cases hs : s.shape <;> cases l <;>
        simp only [apply, hs, applyBool, applyInt, applyReal, applyNumeric, applyStr, applyObject,
          applyArray, applyComposite, applyReference, unsupported, reduceCtorEq,
          Except.ok.injEq] at h <;>
        grind [Sexp.not_statesPointer_eq_atom, Sexp.not_statesPointer_app, Sexp.and]
  | _ =>
      cases hs : s.shape <;>
        simp only [apply, hs, applyBool, applyInt, applyReal, applyNumeric, applyStr, applyObject,
          applyArray, applyComposite, applyReference, unsupported, reduceCtorEq,
          Except.ok.injEq] at h <;>
        grind [Sexp.not_statesPointer_atom, Sexp.not_statesPointer_eq_atom,
          Sexp.not_statesPointer_app, Sexp.not_statesPointer_tag, Sexp.and, Sexp.not]

/-- The length of an object is not read off the object itself. -/
theorem length_cases {x : String} (h : s.apply (.length (.atom x)) = .ok e) :
    ∃ f items, e = .app f [.list items] := by
  cases hs : s.shape <;>
    simp only [apply, hs, applyBool, applyInt, applyReal, applyNumeric, applyStr, applyObject,
      applyArray, applyComposite, applyReference, unsupported, reduceCtorEq, Except.ok.injEq] at h
  · exact ⟨_, _, h.symm⟩
  · exact ⟨_, _, h.symm⟩

end Sentence

/-! ## instructions -/

/-- A statement that says nothing about pointers. -/
def Statement.Silent (st : Statement) : Prop := ∀ a ∈ st.terms, ¬ a.StatesPointer

namespace Lowering

open MethodGraph (Instruction)

variable {c : Lowering} {i : Instruction} {s : Sentence} {op : Operation} {e : Sexp}
  {st : Statement} {checks : List FaultCheck} {l : Lowered}

theorem not_statesPointer_of_apply (hop : op.IsTest) (h : apply s op = .ok e) :
    ¬ e.StatesPointer :=
  Sentence.not_statesPointer_of_apply hop (mapError_eq_ok.1 h)

/-- Equations with variables state no pointer. -/
theorem not_statesPointer_of_equate {x : Variable} {a : Sexp} (h : c.equate x a = .ok e) :
    ¬ e.StatesPointer := by
  obtain ⟨s, -, h⟩ := bind_eq_ok.1 h
  exact not_statesPointer_of_apply (.equal _ _) h

theorem silent_of_nil (h : st.terms = []) : st.Silent := by
  simp [Statement.Silent, h]

theorem silent_of_singleton (h : st.terms = [e]) (he : ¬ e.StatesPointer) : st.Silent := by
  simpa [Statement.Silent, h] using he

theorem silent_mentioning (h : st.Silent) (type : TypeRef) : (st.mentioning type).Silent := by
  unfold Statement.mentioning
  split
  · exact h
  · exact h

/-- Defining a target is silent. -/
theorem silent_defining {a : Sexp} (h : c.defining i a = .ok st) : st.Silent := by
  simp only [defining, bind_eq_ok, pure_eq_ok] at h
  obtain ⟨x, -, e, he, rfl⟩ := h
  exact silent_of_singleton rfl (not_statesPointer_of_equate he)

/-- Checks for null are silent. -/
theorem silent_nullCheck {x : String} {check : FaultCheck}
    (h : nullCheck s (.atom x) = .ok check) :
    FaultCheck.All (¬ ·.StatesPointer) check := by
  simp only [nullCheck, bind_eq_ok, pure_eq_ok] at h
  obtain ⟨isNull, hnull, notNull, hnot, rfl⟩ := h
  exact ⟨not_statesPointer_of_apply (.isNull x) hnull,
    not_statesPointer_of_apply (.isNotNull x) hnot⟩

/-- Checks of elements are silent. -/
theorem silent_elementGuards {x : String} {index : Sexp} {normal : List Sexp}
    (h : elementGuards s (.atom x) index = .ok (normal, checks)) :
    (∀ a ∈ normal, ¬ a.StatesPointer) ∧
      ∀ check ∈ checks, FaultCheck.All (¬ ·.StatesPointer) check := by
  simp only [elementGuards, bind_eq_ok, pure_eq_ok] at h
  obtain ⟨below, hb, above, ha, notNull, hn, within, hw, check, hc, heq⟩ := h
  obtain ⟨rfl, rfl⟩ := Prod.mk.inj heq
  have hnot : ∀ e : Sexp, ¬ e.not.StatesPointer :=
    fun e => Sexp.not_statesPointer_app (by decide) [e]
  constructor
  · simpa using ⟨not_statesPointer_of_apply (.isNotNull x) hn,
      not_statesPointer_of_apply (.inRange _ _) hw⟩
  · simp only [List.forall_mem_cons]
    exact ⟨silent_nullCheck hc, ⟨not_statesPointer_of_apply (.belowLowerBound _ _) hb, hnot _⟩,
      ⟨not_statesPointer_of_apply (.aboveUpperBound _ _) ha, hnot _⟩, by simp⟩

/-- Faults add nothing about pointers. -/
theorem silent_faulting {offset : Nat} {normal : List Sexp}
    (hnormal : ∀ a ∈ normal, ¬ a.StatesPointer)
    (hchecks : ∀ check ∈ checks, FaultCheck.All (¬ ·.StatesPointer) check) (h : st.Silent) :
    ∀ st' ∈ (faulting offset normal checks [st]).statements, st'.Silent := by
  unfold faulting
  split
  · exact List.forall_mem_singleton.2 h
  · simp only [Lowered.statements, List.map_cons, List.cons_append, List.forall_mem_cons,
      List.forall_mem_append, List.forall_mem_map]
    refine ⟨hnormal, fun g hg => ?_, h, by simp⟩
    exact (all_faultGroups (X := fun _ => True) (by simp) hchecks g hg).terms

/-- Calls are silent. -/
theorem silent_lowerCall {callee : MethodRef} {virtualDispatch : Bool}
    (h : c.lowerCall i callee virtualDispatch = .ok l) : ∀ st ∈ l.statements, st.Silent := by
  have hcall : ∀ arguments, (c.callStatement i callee arguments).Silent :=
    fun _ => silent_of_nil rfl
  obtain ⟨arguments, -, rfl |
    ⟨-, receiver, s, checks, statement, -, -, hchecks, hstatement, rfl⟩⟩ := lowerCall_cases h
  · exact List.forall_mem_singleton.2 (hcall arguments)
  · have hsilent : ∀ check ∈ checks, FaultCheck.All (¬ ·.StatesPointer) check := by
      intro check hcheck
      cases hchecks check hcheck with
      | null h => exact silent_nullCheck h
      | missing _ h =>
          exact ⟨not_statesPointer_of_apply (.hasExactType _ _) h,
            Sexp.not_statesPointer_app (by decide) _⟩
    refine silent_faulting ?_ hsilent ?_
    · rw [List.forall_mem_map]
      exact fun check hcheck => (hsilent check hcheck).2
    · obtain rfl | ⟨-, rfl⟩ := hstatement
      · exact hcall arguments
      · exact silent_mentioning (hcall arguments) _

/-- Arrays get their length, not a pointer. -/
theorem silent_newArray {element : TypeRef} (hop : i.opcode = .newArray element)
    (h : c.lower i = .ok l) : ∀ st ∈ l.statements, st.Silent := by
  simp only [lower, hop, bind_eq_ok, pure_eq_ok] at h
  obtain ⟨x, -, length, -, s, -, notNull, hn, int, -, actual, ha, wanted, -, sized, hsized, exact,
    hexact, rfl⟩ := h
  refine List.forall_mem_singleton.2 (silent_mentioning (silent_mentioning ?_ _) _)
  have hsize : ¬ sized.StatesPointer := by
    obtain ⟨f, items, rfl⟩ := Sentence.length_cases (mapError_eq_ok.1 ha)
    rw [apply, mapError_eq_ok, Sentence.apply_equal] at hsized
    obtain rfl := Except.ok.inj hsized
    simp [Sexp.StatesPointer, Sexp.eq, Sexp.app]
  simp only [Statement.Silent, Statement.terms, Statement.withEffect, Statement.assertion,
    List.forall_mem_cons]
  exact ⟨not_statesPointer_of_apply (.isNotNull _) hn, hsize,
    not_statesPointer_of_apply (.hasExactType _ s.type) hexact, by simp⟩

/-- Branches test variables. -/
theorem isTest_branchTerms (x : String) (test : BranchTest) :
    (branchTerms (.atom x) test).1.IsTest ∧ (branchTerms (.atom x) test).2.IsTest := by
  cases test with
  | ifTrue => exact ⟨.isTrue x, .isFalse x⟩
  | ifFalse => exact ⟨.isFalse x, .isTrue x⟩
  | ifNull => exact ⟨.isNull x, .isNotNull x⟩
  | ifNotNull => exact ⟨.isNotNull x, .isNull x⟩

/-- **Instructions** assert nothing about pointers. -/
theorem silent_lower (h : c.lower i = .ok l) : ∀ st ∈ l.statements, st.Silent := by
  cases hop : i.opcode with
  | assign =>
      simp only [lower, hop, bind_eq_ok, pure_eq_ok] at h
      obtain ⟨x, -, y, -, value, -, e, he, rfl⟩ := h
      exact List.forall_mem_singleton.2
        (silent_of_singleton rfl (not_statesPointer_of_equate he))
  | constant literal =>
      simp only [lower, hop, bind_eq_ok, pure_eq_ok] at h
      obtain ⟨x, -, s, -, e, he, rfl⟩ := h
      exact List.forall_mem_singleton.2
        (silent_of_singleton rfl (not_statesPointer_of_apply (.holdsLiteral _ _) he))
  | branch test =>
      obtain ⟨a, s, taken, notTaken, -, -, ht, hn, rfl⟩ := lower_branch hop h
      obtain ⟨hyes, hno⟩ := isTest_branchTerms (c.symbol a) test
      simp only [Lowered.statements, List.forall_mem_cons]
      exact ⟨silent_of_singleton rfl (not_statesPointer_of_apply hyes ht),
        silent_of_singleton rfl (not_statesPointer_of_apply hno hn), by simp⟩
  | jump =>
      rw [lower, hop] at h
      obtain rfl := Except.ok.inj h
      simp [Lowered.statements]
  | call callee virtualDispatch =>
      rw [lower, hop] at h
      exact silent_lowerCall h
  | newObject constructor =>
      obtain ⟨x, s, allocated, arguments, -, -, ha, -, rfl⟩ := lower_newObject hop h
      exact List.forall_mem_singleton.2 (silent_mentioning
        (silent_of_singleton rfl (not_statesPointer_of_apply (.allocated _) ha)) _)
  | newArray element => exact silent_newArray hop h
  | arrayLength =>
      simp only [lower, hop, bind_eq_ok, pure_eq_ok] at h
      obtain ⟨array, -, s, -, length, -, semantics, hst, check, hc, notNull, hn, rfl⟩ := h
      exact silent_faulting
        (List.forall_mem_singleton.2 (not_statesPointer_of_apply (.isNotNull _) hn))
        (List.forall_mem_singleton.2 (silent_nullCheck hc)) (silent_defining hst)
  | loadElement =>
      simp only [lower, hop, bind_eq_ok, pure_eq_ok] at h
      obtain ⟨array, -, index, -, s, -, at_, -, e, -, semantics, hst, ⟨normal, checks⟩, hg, rfl⟩ :=
        h
      obtain ⟨hnormal, hchecks⟩ := silent_elementGuards hg
      exact silent_faulting hnormal hchecks (silent_defining hst)
  | storeElement =>
      simp only [lower, hop, bind_eq_ok, pure_eq_ok] at h
      obtain ⟨array, -, index, -, value, -, s, -, at_, -, stored, -, e, -, semantics, hst,
        ⟨normal, checks⟩, hg, rfl⟩ := h
      obtain ⟨hnormal, hchecks⟩ := silent_elementGuards hg
      exact silent_faulting hnormal hchecks (silent_defining hst)
  | binary op | compare op =>
      simp only [lower, hop, bind_eq_ok, pure_eq_ok] at h
      obtain ⟨a, -, b, -, s, -, b', -, e, -, st, hst, rfl⟩ := h
      exact List.forall_mem_singleton.2 (silent_defining hst)
  | not | loadField field =>
      simp only [lower, hop, bind_eq_ok, pure_eq_ok] at h
      obtain ⟨a, -, s, -, e, -, st, hst, rfl⟩ := h
      exact List.forall_mem_singleton.2 (silent_defining hst)
  | storeField field =>
      obtain ⟨object, value, s, f, stored, e, st, -, -, -, -, -, hst, rfl⟩ := lower_storeField hop h
      exact List.forall_mem_singleton.2 (silent_defining hst)
  | ret =>
      obtain ⟨value, rfl, -⟩ := lower_ret hop h
      exact List.forall_mem_singleton.2 (silent_of_nil rfl)
  | throw =>
      simp only [lower, hop, bind_eq_ok, pure_eq_ok] at h
      obtain ⟨v, -, rfl⟩ := h
      exact List.forall_mem_singleton.2 (silent_of_nil rfl)
  | convert type =>
      simp only [lower, hop, bind_eq_ok, pure_eq_ok] at h
      obtain ⟨v, -, e, -, st, hst, rfl⟩ := h
      exact List.forall_mem_singleton.2 (silent_mentioning (silent_defining hst) _)
  | isInstance type =>
      simp only [lower, hop, bind_eq_ok, pure_eq_ok] at h
      obtain ⟨v, -, s, -, e, -, st, hst, rfl⟩ := h
      exact List.forall_mem_singleton.2 (silent_mentioning (silent_defining hst) _)
  | unsupported name =>
      rw [lower, hop] at h
      contradiction

end Lowering

/-- **Forms** assert nothing about pointers. -/
theorem Form.silent_of_ofGraph {lookup : SentenceLookup} {g : MethodGraph} {f : Form}
    (h : Form.ofGraph lookup g = .ok f) : ∀ p ∈ f.statements, p.statement.Silent := by
  have hdeclares : ∀ {vs p}, (Lowering.mk g.method lookup).Declares vs p → p.statement.Silent := by
    rintro vs p ⟨v, -, offset, s, -, hst⟩
    exact Lowering.silent_of_nil (by rw [hst]; rfl)
  exact forall_statements_of_ofGraph (fun _ _ h => h) (fun _ hp => hdeclares hp)
    (fun _ _ _ _ => ⟨fun _ hp => hdeclares hp, fun _ hl => Lowering.silent_lower hl⟩) h

end Pathwise
