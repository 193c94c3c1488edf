import Pathwise.Proofs.Success
import Pathwise.Sentence.Operation

/-!
# Pathwise.Proofs.Wording.Term

What the terms of operations are made of. A term is `Made` from given ones if it is
put together from them by functions of the language and of some sentences, with
literals, nulls and tags. Every operation makes its term from those it is about
(`Sentence.made_apply`).

This is the only place that goes through the operations shape by shape. What is
true of all terms in a problem is shown by induction on how they are made.
-/

namespace Pathwise

/-! ## numerals -/

/-- A non-empty text of digits and points. -/
def IsNumeral (x : String) : Prop := x ≠ "" ∧ ∀ c ∈ x.toList, c.isDigit ∨ c = '.'

instance (x : String) : Decidable (IsNumeral x) :=
  decidable_of_iff (x ≠ "" ∧ x.toList.all fun c => c.isDigit || c = '.') (by simp [IsNumeral])

namespace Number

theorem isNumeral_toString (n : Nat) : IsNumeral (toString n) := by
  constructor
  · intro h
    have hnil := congrArg String.toList h
    simp at hnil
  · intro c hc
    rw [Nat.toString_eq_repr, Nat.toList_repr] at hc
    exact Or.inl (Nat.isDigit_of_mem_toDigits (by decide) (by decide) hc)

theorem isNumeral_withPoint (digits places : Nat) : IsNumeral (withPoint digits places) := by
  constructor
  · intro h
    have hnil := congrArg String.toList h
    simp [withPoint] at hnil
  · intro c hc
    have hdigits : ∀ k, ∀ c ∈ List.replicate k '0' ++ Nat.toDigits 10 digits, c.isDigit := by
      intro k c hc
      rw [List.mem_append] at hc
      cases hc with
      | inl hc => rw [List.eq_of_mem_replicate hc]; decide
      | inr hc => exact Nat.isDigit_of_mem_toDigits (by decide) (by decide) hc
    simp only [withPoint, String.toList_append, String.toList_ofList, List.mem_append] at hc
    obtain (hc | hc) | hc := hc
    · exact Or.inl (hdigits _ c (List.mem_of_mem_take hc))
    · exact Or.inr (List.mem_singleton.1 hc)
    · exact Or.inl (hdigits _ c (List.mem_of_mem_drop hc))

/-- Magnitudes are numerals. -/
theorem isNumeral_magnitudeText (m : Nat) (e : Int) : IsNumeral (Double.magnitudeText m e) := by
  have hpoint : ∀ n : Nat, IsNumeral (toString n ++ ".0") := by
    intro n
    refine ⟨by simp, fun c hc => ?_⟩
    rw [String.toList_append, List.mem_append] at hc
    cases hc with
    | inl hc => exact (isNumeral_toString n).2 c hc
    | inr hc => exact (by decide : IsNumeral ".0").2 c hc
  have hshortest : ∀ k fuel places, IsNumeral (shortestFrom m k fuel places) := by
    intro k fuel places
    fun_induction shortestFrom m k fuel places with
    | case1 places => exact isNumeral_withPoint _ _
    | case2 fuel places digits _ => exact isNumeral_withPoint _ _
    | case3 fuel places _ ih => exact ih
  unfold Double.magnitudeText
  split
  · exact hpoint _
  · dsimp only
    split
    · exact hpoint _
    · exact hshortest _ _ _

end Number

/-! ## made terms -/

/-- Functions that every sentence can use: those of the language, of arrays, and the constructor
that a reference becomes an `Object` by. -/
def Sentence.commonFunctions : List String :=
  ["=", "not", "and", "ite", "<", "<=", ">", ">=", "+", "-", "*", "to_real", "to_int", "subtype",
    "str.len", "seq.len", "seq.nth", "seq.update", "seq.unit", SeqArray.ctor, SeqArray.pointer,
    SeqArray.type, "Object_ctor"]

/-- Functions that come with the datatype of a sentence. -/
inductive Sentence.Provides (s : Sentence) : String → Prop where
  | own {part : String} (h : part ∈ ["_ptr", "_type", "_value", "_ctor"]) :
      Provides s (s.name ++ part)
  | accessor {fields : List FieldAccessor} {isValueType : Bool} {f : FieldAccessor}
      (hshape : s.shape = .composite fields isValueType) (hf : f ∈ fields) :
      Provides s f.accessor.name

namespace Sexp

/-- Terms made from given ones with the sentences of a family. -/
inductive Made (S : Sentence → Prop) (B : Sexp → Prop) : Sexp → Prop where
  | given {a : Sexp} (h : B a) : Made S B a
  | text (t : String) : Made S B (.quoted t)
  | truth {s : Sentence} (hs : S s) (b : Bool) : Made S B (.atom (toString b))
  | numeral {s : Sentence} (hs : S s) {x : String} (h : IsNumeral x) : Made S B (.atom x)
  | objectNull {s : Sentence} (hs : S s) : Made S B (.atom "Object_null")
  | null {s : Sentence} (hs : S s) : Made S B (.atom (s.name ++ "_null"))
  | tag {s : Sentence} (hs : S s) : Made S B (.atom s.tag)
  | common {f : String} {args : List Sexp} (hf : f ∈ Sentence.commonFunctions)
      (h : ∀ a ∈ args, Made S B a) : Made S B (.app f args)
  | provided {s : Sentence} {f : String} {args : List Sexp} (hs : S s) (hf : s.Provides f)
      (h : ∀ a ∈ args, Made S B a) : Made S B (.app f args)
  | arrayNull (element : TypeRef) :
      Made S B (.app "as" [.atom SeqArray.null, SeqArray.sort element.sort])
  | contents (element : TypeRef) {a : Sexp} (h : Made S B a) : Made S B (.contents element.sort a)

namespace Made

variable {S : Sentence → Prop} {B : Sexp → Prop} {a b c : Sexp} {f : String} {s : Sentence}

theorem common₁ (hf : f ∈ Sentence.commonFunctions) (ha : Made S B a) : Made S B (.app f [a]) :=
  .common hf (by simpa using ha)

theorem common₂ (hf : f ∈ Sentence.commonFunctions) (ha : Made S B a) (hb : Made S B b) :
    Made S B (.app f [a, b]) :=
  .common hf (by simpa using ⟨ha, hb⟩)

theorem common₃ (hf : f ∈ Sentence.commonFunctions) (ha : Made S B a) (hb : Made S B b)
    (hc : Made S B c) : Made S B (.app f [a, b, c]) :=
  .common hf (by simpa using ⟨ha, hb, hc⟩)

theorem eq (ha : Made S B a) (hb : Made S B b) : Made S B (.eq a b) := common₂ (by decide) ha hb

theorem not (ha : Made S B a) : Made S B a.not := common₁ (by decide) ha

theorem and (ha : Made S B a) (hb : Made S B b) : Made S B (.and a b) := common₂ (by decide) ha hb

theorem ite (ha : Made S B a) (hb : Made S B b) (hc : Made S B c) : Made S B (.ite a b c) :=
  common₃ (by decide) ha hb hc

theorem nat (hs : S s) (n : Nat) : Made S B (.nat n) :=
  .numeral hs (Number.isNumeral_toString n)

theorem int (hs : S s) (i : Int) : Made S B (.int i) := by
  unfold Sexp.int
  split
  · exact common₁ (by decide) (nat hs _)
  · exact nat hs _

theorem real (hs : S s) (negative : Bool) (m : Nat) (exponent : Int) :
    Made S B (.real negative m exponent) := by
  have htext : Made S B (.atom (Number.Double.magnitudeText m exponent)) :=
    .numeral hs (Number.isNumeral_magnitudeText m exponent)
  unfold Sexp.real
  dsimp only
  split
  · exact common₁ (by decide) htext
  · exact htext

theorem of_ok {ε : Type} (h : (Except.ok a : Except ε Sexp) = .ok b) (ha : Made S B a) :
    Made S B b := by
  rwa [← Except.ok.inj h]

end Made

end Sexp

/-! ## operations -/

/-- The terms that an operation is about. -/
def Operation.terms : Operation → List Sexp
  | .equal a b | .notEqual a b | .compare _ a b | .arithmetic _ a b => [a, b]
  | .isNull a | .isNotNull a | .isTrue a | .isFalse a | .not a | .length a | .typeOf a
  | .allocated a => [a]
  | .elementAt array index | .belowLowerBound array index | .aboveUpperBound array index
  | .inRange array index => [array, index]
  | .storeElement array index value => [array, index, value]
  | .loadField object _ => [object]
  | .storeField object _ value => [object, value]
  | .instanceOf value tag | .hasExactType value tag => [value, tag]
  | .convert value _ | .holdsLiteral value _ | .hasPointer value _ => [value]

namespace Sentence

variable {S : Sentence → Prop} {B : Sexp → Prop} {s : Sentence} {op : Operation} {e : Sexp}

open Sexp (Made)

/-- Booleans are made of operands. -/
theorem made_applyBool (hs : S s) (hop : ∀ a ∈ op.terms, Made S B a)
    (h : s.applyBool op = .ok e) : Made S B e := by
  unfold applyBool at h
  split at h <;> simp only [Operation.terms, List.forall_mem_cons] at hop
  · exact .of_ok h (.eq hop.1 hop.2.1)
  · exact .of_ok h (.eq hop.1 hop.2.1)
  · exact .of_ok h (.not (.eq hop.1 hop.2.1))
  · exact .of_ok h (.not (.eq hop.1 hop.2.1))
  · exact .of_ok h hop.1
  · exact .of_ok h (.not hop.1)
  · exact .of_ok h (.not hop.1)
  · next value b =>
      refine .of_ok h (.eq hop.1 ?_)
      cases b with
      | true => exact .truth hs true
      | false => exact .truth hs false
  · exact .of_ok h hop.1
  · exact .of_ok h (.ite hop.1 (.nat hs 1) (.nat hs 0))
  · exact .of_ok h (.ite hop.1 (.numeral hs (by decide)) (.numeral hs (by decide)))
  · contradiction

/-- Numbers are made of operands. -/
theorem made_applyNumeric (hs : S s) {zero : Sexp} (hzero : Made S B zero)
    (hop : ∀ a ∈ op.terms, Made S B a)
    (h : s.applyNumeric zero op = .ok e) : Made S B e := by
  unfold applyNumeric at h
  split at h <;> simp only [Operation.terms, List.forall_mem_cons] at hop
  · exact .of_ok h (.eq hop.1 hop.2.1)
  · exact .of_ok h (.not (.eq hop.1 hop.2.1))
  · next c a b =>
      refine .of_ok h ?_
      cases c with
      | eq => exact .eq hop.1 hop.2.1
      | ne => exact .not (.eq hop.1 hop.2.1)
      | _ => exact .common₂ (by decide) hop.1 hop.2.1
  · next o a b =>
      refine .of_ok h ?_
      cases o <;> exact .common₂ (by decide) hop.1 hop.2.1
  · exact .of_ok h (.not (.eq hop.1 hzero))
  · exact .of_ok h (.eq hop.1 hzero)
  · exact .of_ok h (.ite (.eq hop.1 hzero) (.truth hs false) (.truth hs true))
  · contradiction

theorem made_applyInt (hs : S s) (hop : ∀ a ∈ op.terms, Made S B a)
    (h : s.applyInt op = .ok e) : Made S B e := by
  unfold applyInt at h
  split at h
  · exact .of_ok h (.eq (hop _ List.mem_cons_self) (.int hs _))
  · exact .of_ok h (hop _ List.mem_cons_self)
  · exact .of_ok h (.common₁ (by decide) (hop _ List.mem_cons_self))
  · exact made_applyNumeric hs (.nat hs 0) hop h

theorem made_applyReal (hs : S s) (hop : ∀ a ∈ op.terms, Made S B a)
    (h : s.applyReal op = .ok e) : Made S B e := by
  unfold applyReal at h
  split at h
  · exact .of_ok h (.eq (hop _ List.mem_cons_self) (.real hs _ _ _))
  · exact .of_ok h (.eq (hop _ List.mem_cons_self) (.real hs _ _ _))
  · exact .of_ok h (hop _ List.mem_cons_self)
  · exact .of_ok h (.common₁ (by decide) (hop _ List.mem_cons_self))
  · exact made_applyNumeric hs (.numeral hs (by decide)) hop h

/-! ## operations on references -/

theorem made_pointer (hs : S s) {a : Sexp} (ha : Made S B a) :
    Made S B (.app s.pointerAccessor [a]) := by
  unfold pointerAccessor
  split
  · exact .common₁ (by decide) ha
  · exact .provided hs (.own (by decide)) (by simpa using ha)

theorem made_type (hs : S s) {a : Sexp} (ha : Made S B a) :
    Made S B (.app s.typeAccessor [a]) := by
  unfold typeAccessor
  split
  · exact .common₁ (by decide) ha
  · exact .provided hs (.own (by decide)) (by simpa using ha)

/-- References are made of operands. -/
theorem made_applyReference (hs : S s) {null : Sexp} (hnull : Made S B null)
    (hop : ∀ a ∈ op.terms, Made S B a) (h : s.applyReference null op = .ok e) : Made S B e := by
  have hnullable : ∀ {a}, Made S B a →
      (if s.isNullable then .ok a else s.unsupported op) = .ok e → Made S B e := by
    intro a ha h
    split at h
    · exact .of_ok h ha
    · contradiction
  unfold applyReference at h
  dsimp only at h
  split at h <;> simp only [Operation.terms, List.forall_mem_cons] at hop
  · exact .of_ok h (.eq hop.1 hop.2.1)
  · exact .of_ok h (.eq hop.1 hop.2.1)
  · exact .of_ok h (.not (.eq hop.1 hop.2.1))
  · exact .of_ok h (.not (.eq hop.1 hop.2.1))
  · exact hnullable (.eq hop.1 hnull) h
  · exact hnullable (.eq hop.1 hnull) h
  · exact hnullable (.eq hop.1 hnull) h
  · exact hnullable (.not (.eq hop.1 hnull)) h
  · exact hnullable (.not (.eq hop.1 hnull)) h
  · exact .of_ok h (made_type hs hop.1)
  · exact .of_ok h (.and (.not (.eq hop.1 hnull))
      (.common₂ (by decide) (made_type hs hop.1) hop.2.1))
  · exact .of_ok h (.eq (made_type hs hop.1) hop.2.1)
  · exact .of_ok h (.and (.not (.eq hop.1 hnull))
      (.eq (made_type hs hop.1) (.tag hs)))
  · exact .of_ok h (.eq (made_pointer hs hop.1) (.nat hs _))
  · next value target =>
      split at h
      · exact .of_ok h (.ite (.eq hop.1 hnull) (.objectNull hs)
          (.common₂ (by decide) (made_pointer hs hop.1) (made_type hs hop.1)))
      · split at h
        · exact .of_ok h hop.1
        · contradiction
  · contradiction

theorem made_applyObject (hs : S s) (hop : ∀ a ∈ op.terms, Made S B a)
    (h : s.applyObject op = .ok e) : Made S B e :=
  made_applyReference hs (.null hs) hop h

theorem made_applyStr (hs : S s) (hop : ∀ a ∈ op.terms, Made S B a)
    (h : s.applyStr op = .ok e) : Made S B e := by
  have hvalue : ∀ {a}, Made S B a → Made S B (.app (s.name ++ "_value") [a]) :=
    fun ha => .provided hs (.own (by decide)) (by simpa using ha)
  unfold applyStr at h
  split at h
  · exact .of_ok h (.common₁ (by decide) (hvalue (hop _ List.mem_cons_self)))
  · have ha := hop _ List.mem_cons_self
    exact .of_ok h (.and (.not (.eq ha (.null hs)))
      (.eq (hvalue ha) (.text _)))
  · exact made_applyObject hs hop h

theorem made_applyArray (hs : S s) {element : TypeRef} (hop : ∀ a ∈ op.terms, Made S B a)
    (h : s.applyArray element.sort op = .ok e) : Made S B e := by
  have hlength : ∀ {a}, Made S B a → Made S B (.app "seq.len" [.contents element.sort a]) :=
    fun ha => .common₁ (by decide) (.contents element ha)
  unfold applyArray at h
  dsimp only at h
  split at h
  · exact .of_ok h (hlength (hop _ List.mem_cons_self))
  · simp only [Operation.terms, List.forall_mem_cons] at hop
    exact .of_ok h (.common₂ (by decide) (.contents element hop.1) hop.2.1)
  · simp only [Operation.terms, List.forall_mem_cons] at hop
    exact .of_ok h (.common₃ (by decide) (.common₁ (by decide) hop.1) (.common₁ (by decide) hop.1)
      (.common₃ (by decide) (.contents element hop.1) hop.2.1 (.common₁ (by decide) hop.2.2.1)))
  · simp only [Operation.terms, List.forall_mem_cons] at hop
    exact .of_ok h (.common₂ (by decide) hop.2.1 (.nat hs 0))
  · simp only [Operation.terms, List.forall_mem_cons] at hop
    exact .of_ok h (.common₂ (by decide) hop.2.1 (hlength hop.1))
  · simp only [Operation.terms, List.forall_mem_cons] at hop
    exact .of_ok h (.and (.common₂ (by decide) (.nat hs 0) hop.2.1)
      (.common₂ (by decide) hop.2.1 (hlength hop.1)))
  · exact made_applyReference hs (.arrayNull element) hop h

theorem made_applyComposite (hs : S s) {fields : List FieldAccessor} {isValueType : Bool}
    (hshape : s.shape = .composite fields isValueType) (hop : ∀ a ∈ op.terms, Made S B a)
    (h : s.applyComposite fields op = .ok e) : Made S B e := by
  have hload : ∀ {f a}, f ∈ fields → Made S B a → Made S B (.app f.accessor.name [a]) :=
    fun hf ha => .provided hs (.accessor hshape hf) (by simpa using ha)
  unfold applyComposite at h
  split at h
  · split at h
    · next f hf =>
        exact .of_ok h (hload (List.mem_of_find?_eq_some hf) (hop _ List.mem_cons_self))
    · contradiction
  · next object field value =>
      simp only [Operation.terms, List.forall_mem_cons] at hop
      split at h
      · refine .of_ok h (.provided hs (.own (by decide)) ?_)
        simp only [List.forall_mem_cons, List.forall_mem_map]
        refine ⟨made_pointer hs hop.1, made_type hs hop.1, fun f hf => ?_⟩
        split
        · exact hop.2.1
        · exact hload hf hop.1
      · contradiction
  · exact made_applyObject hs hop h

/-- **Operations** make their terms from those they are about. -/
theorem made_apply (hs : S s) (hop : ∀ a ∈ op.terms, Made S B a) (h : s.apply op = .ok e) :
    Made S B e := by
  unfold apply at h
  split at h
  · exact made_applyBool hs hop h
  · exact made_applyInt hs hop h
  · exact made_applyReal hs hop h
  · exact made_applyStr hs hop h
  · exact made_applyObject hs hop h
  · exact made_applyObject hs hop h
  · exact made_applyArray hs hop h
  · next hshape => exact made_applyComposite hs hshape hop h

end Sentence

end Pathwise
