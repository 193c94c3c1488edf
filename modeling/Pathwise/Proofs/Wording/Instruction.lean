import Pathwise.Proofs.Guards
import Pathwise.Proofs.Reference
import Pathwise.Proofs.Wording.Term

/-!
# Pathwise.Proofs.Wording.Instruction

What an instruction becomes is made from its own variables and the tags of the
types it names (`Lowering.all_lower`): the terms it asserts, and those in the
effects that a path acts on. What a path adds for an effect is made from the
renamed constants of the effect (`Reference.made_extraLines`, `Run.all_call`).
-/

namespace Pathwise

/-! ## statements of terms -/

/-- The terms of an effect that a path uses have one property, and its targets another. -/
def Effect.All (T : Sexp → Prop) (X : String → Prop) : Effect → Prop
  | .call _ arguments target => (∀ a ∈ arguments, T a) ∧ ∀ x ∈ target, X x
  | .allocate _ target => X target
  | .construct _ target _ arguments => X target ∧ ∀ a ∈ arguments, T a
  | .ret value => ∀ a ∈ value, T a
  | .assign source target => T source ∧ X target
  | .none | .throw _ => True

/-- A statement that asserts terms with a property. -/
structure Statement.All (T : Sexp → Prop) (X : String → Prop) (s : Statement) : Prop where
  asserts : s.isDeclaration = false
  terms : ∀ e ∈ s.terms, T e
  effect : s.effect.All T X

/-- All statements of an instruction have a property. -/
def Lowered.All (T : Sexp → Prop) (X : String → Prop) : Lowered → Prop
  | .plain statements => ∀ s ∈ statements, s.All T X
  | .faulting groups semantics => (∀ g ∈ groups, g.2.All T X) ∧ ∀ s ∈ semantics, s.All T X
  | .branch taken notTaken => taken.All T X ∧ notTaken.All T X

theorem Effect.All.imp {T T' : Sexp → Prop} {X X' : String → Prop} (hT : ∀ e, T e → T' e)
    (hX : ∀ x, X x → X' x) {effect : Effect} (h : effect.All T X) : effect.All T' X' := by
  cases effect with
  | call _ arguments target => exact ⟨fun a ha => hT a (h.1 a ha), fun x hx => hX x (h.2 x hx)⟩
  | allocate _ target => exact hX target h
  | construct _ target _ arguments => exact ⟨hX target h.1, fun a ha => hT a (h.2 a ha)⟩
  | ret value => exact fun a ha => hT a (h a ha)
  | assign source target => exact ⟨hT source h.1, hX target h.2⟩
  | _ => trivial

namespace Statement.All

variable {T T' : Sexp → Prop} {X X' : String → Prop} {s : Statement}

theorem imp (hT : ∀ e, T e → T' e) (hX : ∀ x, X x → X' x) (h : s.All T X) : s.All T' X' where
  asserts := h.asserts
  terms e he := hT e (h.terms e he)
  effect := h.effect.imp hT hX

theorem assertion {offset : Nat} {terms : List Sexp} (h : ∀ e ∈ terms, T e) :
    (Statement.assertion offset terms).All T X := ⟨rfl, h, trivial⟩

theorem withEffect {offset : Nat} {terms : List Sexp} {effect : Effect} (h : ∀ e ∈ terms, T e)
    (heffect : effect.All T X) :
    ((Statement.assertion offset terms).withEffect effect).All T X := ⟨rfl, h, heffect⟩

theorem mentioning (h : s.All T X) (type : TypeRef) : (s.mentioning type).All T X := by
  unfold Statement.mentioning
  split
  · exact h
  · exact ⟨h.asserts, h.terms, h.effect⟩

end Statement.All

/-- The statements that an instruction becomes, without their order. -/
theorem Lowered.All.statements {T : Sexp → Prop} {X : String → Prop} {l : Lowered}
    (h : l.All T X) : ∀ st ∈ l.statements, st.All T X := by
  cases l with
  | plain statements => exact h
  | faulting groups semantics =>
      simp only [Lowered.statements, List.forall_mem_append, List.forall_mem_map]
      exact h
  | branch taken notTaken =>
      simp only [Lowered.statements, List.forall_mem_cons]
      exact ⟨h.1, h.2, by simp⟩

/-! ## instructions -/

namespace Lowering

open MethodGraph (Instruction)
open Sexp (Made)

variable {S : Sentence → Prop} {B : Sexp → Prop} {X : String → Prop} {c : Lowering}
  {i : Instruction} {l : Lowered}

/-- What the terms of an instruction can be made from: sentences, constants and tags. -/
structure Words (c : Lowering) (i : Instruction) (S : Sentence → Prop) (B : Sexp → Prop)
    (X : String → Prop) : Prop where
  sentences : ∀ t s, c.lookup t = .ok s → S s
  symbols : ∀ x ∈ i.variables, X (c.symbol x)
  constants : ∀ x, X x → B (.atom x)
  tags : ∀ t ∈ i.namedTypes, B (.atom t.tag)

namespace Words

variable {x : Variable} {t : TypeRef} {op : Operation} {s : Sentence} {e : Sexp} {k : Nat}

theorem term (hw : c.Words i S B X) (hx : x ∈ i.variables) :
    Made S B (c.term x) :=
  .given (hw.constants _ (hw.symbols x hx))

theorem mem_of_operand (h : c.operand i k = .ok x) : x ∈ i.variables :=
  List.mem_append_left _ (List.mem_of_getElem? (operand_eq_ok h))

theorem mem_of_target (h : c.target i = .ok x) : x ∈ i.variables := by
  refine List.mem_append_right _ ?_
  rw [target_eq_ok h]
  exact List.mem_singleton_self x

variable (hw : c.Words i S B X)

include hw

theorem operand (h : c.operand i k = .ok x) : Made S B (c.term x) :=
  hw.term (mem_of_operand h)

theorem target (h : c.target i = .ok x) : Made S B (c.term x) :=
  hw.term (mem_of_target h)

theorem symbol_target (h : c.target i = .ok x) : X (c.symbol x) :=
  hw.symbols x (mem_of_target h)

/-- An operation with the sentence of some type. -/
theorem apply (hs : c.lookup t = .ok s) (hop : ∀ a ∈ op.terms, Made S B a)
    (h : Lowering.apply s op = .ok e) : Made S B e :=
  Sentence.made_apply (hw.sentences t s hs) hop (mapError_eq_ok.1 h)

theorem apply₁ {a e : Sexp} (hs : c.lookup t = .ok s) (h : Lowering.apply s op = .ok e)
    (ha : Made S B a) (hop : op.terms = [a]) : Made S B e :=
  hw.apply hs (by simpa [hop] using ha) h

theorem apply₂ {a b e : Sexp} (hs : c.lookup t = .ok s) (h : Lowering.apply s op = .ok e)
    (ha : Made S B a) (hb : Made S B b) (hop : op.terms = [a, b]) : Made S B e :=
  hw.apply hs (by simpa [hop] using ⟨ha, hb⟩) h

/-- Converted variables are made. -/
theorem coerce (hx : x ∈ i.variables) (h : c.coerce x t = .ok e) :
    Made S B e := by
  unfold Lowering.coerce at h
  split at h
  · exact .of_ok h (hw.term hx)
  · obtain ⟨s, hs, h⟩ := bind_eq_ok.1 h
    exact hw.apply₁ hs h (hw.term hx) rfl

theorem coerce_operand (hx : c.operand i k = .ok x) (h : c.coerce x t = .ok e) :
    Made S B e :=
  hw.coerce (mem_of_operand hx) h

theorem equate {a e : Sexp} (hx : c.target i = .ok x) (ha : Made S B a) (h : c.equate x a = .ok e) :
    Made S B e := by
  obtain ⟨s, hs, h⟩ := bind_eq_ok.1 h
  exact hw.apply₂ hs h (hw.target hx) ha rfl

/-- Definitions are made. -/
theorem defining {a : Sexp} {st : Statement} (ha : Made S B a) (h : c.defining i a = .ok st) :
    st.All (Made S B) X := by
  simp only [Lowering.defining, bind_eq_ok, pure_eq_ok] at h
  obtain ⟨x, hx, e, he, rfl⟩ := h
  exact .assertion (by simpa using hw.equate hx ha he)

/-- The arguments of a call are operands. -/
theorem arguments {types : List TypeRef} {arguments : List Sexp}
    (h : c.arguments (i.operands.zip types) = .ok arguments) :
    ∀ a ∈ arguments, Made S B a := by
  have hbound : ∀ b ∈ i.operands.zip types, b.1 ∈ i.variables := fun b hb =>
    List.mem_append_left _ (List.of_mem_zip hb).1
  generalize i.operands.zip types = bound at h hbound
  induction bound generalizing arguments with
  | nil =>
      obtain rfl := Except.ok.inj h
      simp
  | cons b bound ih =>
      rw [List.forall_mem_cons] at hbound
      simp only [Lowering.arguments, bind_eq_ok, pure_eq_ok] at h
      obtain ⟨first, hfirst, others, hothers, rfl⟩ := h
      rw [List.forall_mem_cons]
      exact ⟨hw.coerce hbound.1 hfirst, ih hothers hbound.2⟩

end Words

/-! ## faults -/

/-- Both sides of a check. -/
def FaultCheck.All (T : Sexp → Prop) (check : FaultCheck) : Prop := T check.occurs ∧ T check.absent

theorem Words.nullCheck (hw : c.Words i S B X) {t : TypeRef} {s : Sentence} {a : Sexp}
    {check : FaultCheck} (hs : c.lookup t = .ok s) (ha : Made S B a)
    (h : nullCheck s a = .ok check) : FaultCheck.All (Made S B) check := by
  simp only [Lowering.nullCheck, bind_eq_ok, pure_eq_ok] at h
  obtain ⟨isNull, hnull, notNull, hnot, rfl⟩ := h
  exact ⟨hw.apply₁ hs hnull ha rfl, hw.apply₁ hs hnot ha rfl⟩

theorem Words.elementGuards (hw : c.Words i S B X) {t : TypeRef} {s : Sentence}
    {array index : Sexp} {normal : List Sexp} {checks : List FaultCheck}
    (hs : c.lookup t = .ok s) (ha : Made S B array) (hi : Made S B index)
    (h : elementGuards s array index = .ok (normal, checks)) :
    (∀ e ∈ normal, Made S B e) ∧ ∀ check ∈ checks, FaultCheck.All (Made S B) check := by
  simp only [Lowering.elementGuards, bind_eq_ok, pure_eq_ok] at h
  obtain ⟨below, hb, above, hab, notNull, hn, within, hw', check, hc, heq⟩ := h
  obtain ⟨rfl, rfl⟩ := Prod.mk.inj heq
  have hbelow := hw.apply₂ hs hb ha hi rfl
  have habove := hw.apply₂ hs hab ha hi rfl
  have hnotNull := hw.apply₁ hs hn ha rfl
  have hwithin := hw.apply₂ hs hw' ha hi rfl
  constructor
  · simpa using ⟨hnotNull, hwithin⟩
  · simp only [List.forall_mem_cons]
    exact ⟨hw.nullCheck hs ha hc, ⟨hbelow, .not hbelow⟩, ⟨habove, .not habove⟩, by simp⟩

section

variable {T : Sexp → Prop} {X : String → Prop} {checks : List FaultCheck}

/-- Guards hold what checks hold. -/
theorem all_faultGroups {offset ordinal : Nat} {absent : List Sexp} (habsent : ∀ e ∈ absent, T e)
    (hchecks : ∀ check ∈ checks, FaultCheck.All T check) :
    ∀ g ∈ faultGroups offset absent ordinal checks, g.2.All T X := by
  induction checks generalizing absent ordinal with
  | nil => simp [faultGroups]
  | cons check checks ih =>
      rw [List.forall_mem_cons] at hchecks
      rw [faultGroups, List.forall_mem_cons]
      refine ⟨.assertion ?_, ih ?_ hchecks.2⟩
      · exact List.forall_mem_append.2 ⟨habsent, List.forall_mem_singleton.2 hchecks.1.1⟩
      · exact List.forall_mem_append.2 ⟨habsent, List.forall_mem_singleton.2 hchecks.1.2⟩

theorem all_faulting {offset : Nat} {normal : List Sexp} {semantics : List Statement}
    (hnormal : ∀ e ∈ normal, T e) (hchecks : ∀ check ∈ checks, FaultCheck.All T check)
    (hsemantics : ∀ s ∈ semantics, s.All T X) :
    (faulting offset normal checks semantics).All T X := by
  unfold faulting
  split
  · exact hsemantics
  · refine ⟨?_, hsemantics⟩
    rw [List.forall_mem_cons]
    exact ⟨.assertion hnormal, all_faultGroups (by simp) hchecks⟩

end

/-! ## all instructions -/

theorem Words.callStatement (hw : c.Words i S B X) {callee : MethodRef} {types : List TypeRef}
    {arguments : List Sexp} (h : c.arguments (i.operands.zip types) = .ok arguments) :
    (c.callStatement i callee arguments).All (Made S B) X := by
  refine .withEffect (by simp) ⟨hw.arguments h, fun x hx => ?_⟩
  split at hx
  · obtain ⟨v, hv, rfl⟩ := Option.map_eq_some_iff.1 hx
    exact hw.symbols v (List.mem_append_right _ (by rw [hv]; exact List.mem_singleton_self v))
  · contradiction

/-- Calls are made of their variables. -/
theorem all_lowerCall (hw : c.Words i S B X) {callee : MethodRef} {virtualDispatch : Bool}
    (hnamed : virtualDispatch = true → callee.isAbstract = true → B (.atom callee.declaring.tag))
    (h : c.lowerCall i callee virtualDispatch = .ok l) : l.All (Made S B) X := by
  obtain ⟨arguments, hargs, rfl | ⟨hvirtual, receiver, s, checks, statement, hr, hs, hchecks,
    hstatement, rfl⟩⟩ := lowerCall_cases h
  · exact List.forall_mem_singleton.2 (hw.callStatement hargs)
  · have hreceiver := hw.operand hr
    have hmade : ∀ check ∈ checks, FaultCheck.All (Made S B) check := by
      intro check hcheck
      cases hchecks check hcheck with
      | null h => exact hw.nullCheck hs hreceiver h
      | missing habstract h =>
          have hexact := hw.apply₂ hs h hreceiver (.given (hnamed hvirtual habstract)) rfl
          exact ⟨hexact, .not hexact⟩
    refine all_faulting ?_ hmade ?_
    · rw [List.forall_mem_map]
      exact fun check hcheck => (hmade check hcheck).2
    · have hcall : (c.callStatement i callee arguments).All (Made S B) X := hw.callStatement hargs
      rw [List.forall_mem_singleton]
      obtain rfl | ⟨-, rfl⟩ := hstatement
      · exact hcall
      · exact hcall.mentioning _

theorem branchTerms_terms (a : Sexp) (test : BranchTest) :
    (branchTerms a test).1.terms = [a] ∧ (branchTerms a test).2.terms = [a] := by
  cases test <;> exact ⟨rfl, rfl⟩

theorem all_newArray (hw : c.Words i S B X) {element : TypeRef} (hop : i.opcode = .newArray element)
    (h : c.lower i = .ok l) : l.All (Made S B) X := by
  simp only [lower, hop, bind_eq_ok, pure_eq_ok] at h
  obtain ⟨target, ht, length, hlength, s, hs, notNull, hn, int, hint, actual, ha, wanted, hwanted,
    sized, hsized, exact, hexact, rfl⟩ := h
  have htarget := hw.target ht
  have hnotNull := hw.apply₁ hs hn htarget rfl
  have hactual := hw.apply₁ hs ha htarget rfl
  have hsize := hw.apply₂ hint hsized hactual (hw.coerce_operand hlength hwanted) rfl
  have htype := hw.apply₂ hs hexact htarget (.tag (hw.sentences _ _ hs)) rfl
  refine List.forall_mem_singleton.2 (.mentioning (.mentioning (.withEffect ?_ ?_) _) _)
  · simpa using ⟨hnotNull, hsize, htype⟩
  · exact hw.symbol_target ht

/-- **Instructions**: what one becomes is made from its variables and the tags it names. -/
theorem all_lower (hw : c.Words i S B X) (h : c.lower i = .ok l) :
    l.All (Made S B) X := by
  cases hop : i.opcode with
  | assign =>
      simp only [lower, hop, bind_eq_ok, pure_eq_ok] at h
      obtain ⟨x, hx, y, hy, value, hvalue, e, he, rfl⟩ := h
      have hequation := hw.equate hx (hw.coerce_operand hy hvalue) he
      exact List.forall_mem_singleton.2
        (.withEffect (List.forall_mem_singleton.2 hequation) ⟨hw.operand hy, hw.symbol_target hx⟩)
  | constant literal =>
      simp only [lower, hop, bind_eq_ok, pure_eq_ok] at h
      obtain ⟨x, hx, s, hs, e, he, rfl⟩ := h
      have hholds := hw.apply₁ hs he (hw.target hx) rfl
      exact List.forall_mem_singleton.2 (.assertion (List.forall_mem_singleton.2 hholds))
  | binary op | compare op =>
      simp only [lower, hop, bind_eq_ok, pure_eq_ok] at h
      obtain ⟨a, ha, b, hb, s, hs, b', hb', e, he, st, hst, rfl⟩ := h
      have hvalue := hw.apply₂ hs he (hw.operand ha) (hw.coerce_operand hb hb') rfl
      exact List.forall_mem_singleton.2 (hw.defining hvalue hst)
  | not =>
      simp only [lower, hop, bind_eq_ok, pure_eq_ok] at h
      obtain ⟨a, ha, s, hs, e, he, st, hst, rfl⟩ := h
      exact List.forall_mem_singleton.2
        (hw.defining (hw.apply₁ hs he (hw.operand ha) rfl) hst)
  | branch test =>
      obtain ⟨a, s, taken, notTaken, ha, hs, ht, hn, rfl⟩ := lower_branch hop h
      obtain ⟨hyes, hno⟩ := branchTerms_terms (c.term a) test
      have htaken := hw.apply₁ hs ht (hw.operand ha) hyes
      have hnotTaken := hw.apply₁ hs hn (hw.operand ha) hno
      exact ⟨⟨rfl, List.forall_mem_singleton.2 htaken, trivial⟩,
        .assertion (List.forall_mem_singleton.2 hnotTaken)⟩
  | jump =>
      rw [lower, hop] at h
      obtain rfl := Except.ok.inj h
      exact fun s hs => absurd hs (by simp)
  | call callee virtualDispatch =>
      rw [lower, hop] at h
      refine all_lowerCall hw (fun hvirtual habstract => hw.tags _ ?_) h
      simp [Instruction.namedTypes, hop, hvirtual, habstract]
  | newObject constructor =>
      obtain ⟨x, s, allocated, arguments, hx, hs, ha, hargs, rfl⟩ := lower_newObject hop h
      have hallocated := hw.apply₁ hs ha (hw.target hx) rfl
      refine List.forall_mem_singleton.2
        (.mentioning (.withEffect (List.forall_mem_singleton.2 hallocated) ?_) _)
      exact ⟨hw.symbol_target hx, List.forall_mem_cons.2 ⟨hw.target hx, hw.arguments hargs⟩⟩
  | newArray element => exact all_newArray hw hop h
  | arrayLength =>
      simp only [lower, hop, bind_eq_ok, pure_eq_ok] at h
      obtain ⟨array, ha, s, hs, e, he, st, hst, check, hc, notNull, hn, rfl⟩ := h
      have hlength := hw.apply₁ hs he (hw.operand ha) rfl
      have hnotNull := hw.apply₁ hs hn (hw.operand ha) rfl
      exact all_faulting (List.forall_mem_singleton.2 hnotNull)
        (List.forall_mem_singleton.2 (hw.nullCheck hs (hw.operand ha) hc))
        (List.forall_mem_singleton.2 (hw.defining hlength hst))
  | loadElement =>
      simp only [lower, hop, bind_eq_ok, pure_eq_ok] at h
      obtain ⟨array, ha, index, hi, s, hs, at_, hat, e, he, st, hst, ⟨normal, checks⟩, hg, rfl⟩ := h
      have hindex := hw.coerce_operand hi hat
      have helement := hw.apply₂ hs he (hw.operand ha) hindex rfl
      obtain ⟨hnormal, hchecks⟩ := hw.elementGuards hs (hw.operand ha) hindex hg
      exact all_faulting hnormal hchecks
        (List.forall_mem_singleton.2 (hw.defining helement hst))
  | storeElement =>
      simp only [lower, hop, bind_eq_ok, pure_eq_ok] at h
      obtain ⟨array, ha, index, hi, value, hv, s, hs, at_, hat, stored, hstored, e, he, st, hst,
        ⟨normal, checks⟩, hg, rfl⟩ := h
      have harray := hw.operand ha
      have hindex := hw.coerce_operand hi hat
      have hvalue := hw.coerce_operand hv hstored
      have hupdate := hw.apply hs (by simpa [Operation.terms] using ⟨harray, hindex, hvalue⟩) he
      obtain ⟨hnormal, hchecks⟩ := hw.elementGuards hs harray hindex hg
      exact all_faulting hnormal hchecks
        (List.forall_mem_singleton.2 (hw.defining hupdate hst))
  | loadField field =>
      simp only [lower, hop, bind_eq_ok, pure_eq_ok] at h
      obtain ⟨object, ho, s, hs, e, he, st, hst, rfl⟩ := h
      exact List.forall_mem_singleton.2
        (hw.defining (hw.apply₁ hs he (hw.operand ho) rfl) hst)
  | storeField field =>
      obtain ⟨object, value, s, f, stored, e, st, ho, hv, hs, hstored, he, hst, rfl⟩ :=
        lower_storeField hop h
      have hupdate := hw.apply₂ hs he (hw.operand ho) (hw.coerce_operand hv hstored) rfl
      exact List.forall_mem_singleton.2 (hw.defining hupdate hst)
  | ret =>
      obtain ⟨value, rfl, hvalue⟩ := lower_ret hop h
      refine List.forall_mem_singleton.2 (.withEffect (by simp) fun a ha => ?_)
      obtain rfl | ⟨v, e, hv, he, rfl⟩ := hvalue
      · contradiction
      · obtain rfl := Option.some.inj ha
        exact hw.coerce_operand hv he
  | throw =>
      simp only [lower, hop, bind_eq_ok, pure_eq_ok] at h
      obtain ⟨v, -, rfl⟩ := h
      exact List.forall_mem_singleton.2 (.withEffect (by simp) trivial)
  | convert type =>
      simp only [lower, hop, bind_eq_ok, pure_eq_ok] at h
      obtain ⟨v, hv, converted, hconverted, st, hst, rfl⟩ := h
      exact List.forall_mem_singleton.2
        ((hw.defining (hw.coerce_operand hv hconverted) hst).mentioning _)
  | isInstance type =>
      simp only [lower, hop, bind_eq_ok, pure_eq_ok] at h
      obtain ⟨v, hv, s, hs, e, he, st, hst, rfl⟩ := h
      have htag : Made S B (.atom type.tag) :=
        .given (hw.tags type (by simp [Instruction.namedTypes, hop]))
      have htest := hw.apply₂ hs he (hw.operand hv) htag rfl
      exact List.forall_mem_singleton.2 ((hw.defining htest hst).mentioning _)
  | unsupported name =>
      rw [lower, hop] at h
      contradiction

end Lowering

/-! ## effects on a path -/

section

variable {T T' : Sexp → Prop} {X X' : String → Prop} {r : Renaming}

/-- What an effect asks to be run is given its terms, renamed, and its value goes to its target. -/
theorem Run.all_call (hT : ∀ a, T a → T' (r.term a)) (hX : ∀ x, X x → X' (r.symbol x))
    {effect : Effect} (h : effect.All T X) {callee : MethodRef} {arguments : List Sexp}
    {target : Option String}
    (hcall : (Run.demand r effect).call = some (callee, arguments, target)) :
    (∀ a ∈ arguments, T' a) ∧ ∀ x ∈ target, X' x := by
  have harguments {as : List Sexp} (has : ∀ a ∈ as, T a) : ∀ a ∈ as.map r.term, T' a :=
    List.forall_mem_map.2 fun a ha => hT a (has a ha)
  cases effect with
  | call m as x =>
      simp only [Run.demand, Option.some.injEq, Prod.mk.injEq] at hcall
      obtain ⟨-, rfl, rfl⟩ := hcall
      refine ⟨harguments h.1, fun y hy => ?_⟩
      obtain ⟨z, hz, rfl⟩ := Option.map_eq_some_iff.1 hy
      exact hX z (h.2 z hz)
  | construct type x m as =>
      simp only [Run.demand, Option.some.injEq, Prod.mk.injEq] at hcall
      obtain ⟨-, rfl, rfl⟩ := hcall
      exact ⟨harguments h.2, by simp⟩
  | _ => simp [Run.demand] at hcall

variable {e : Engine} {S : Sentence → Prop} {B : Sexp → Prop}

theorem Reference.made_pointerLines (hS : ∀ t s, e.types.find? t = some s → S s) (c : Context)
    (site : Site) (offset : Nat) (type : TypeRef) {x : String} (hx : B (.atom x)) :
    ∃ terms : List Sexp, pointerLines e c site offset type x = terms.map .assert ∧
      ∀ t ∈ terms, t.Made S B := by
  unfold pointerLines
  cases hfind : e.types.find? type with
  | none => exact ⟨[], rfl, by simp⟩
  | some s =>
      dsimp only
      split
      · next term hterm =>
          refine ⟨[term], rfl, List.forall_mem_singleton.2 ?_⟩
          refine Sentence.made_apply (hS type s hfind) ?_ hterm
          simpa [Operation.terms] using Sexp.Made.given hx
      · exact ⟨[], rfl, by simp⟩

/-- The pointer of a new object is asserted of its constant. -/
theorem Reference.made_extraLines (hS : ∀ t s, e.types.find? t = some s → S s)
    (hX : ∀ x, X x → B (.atom (r.symbol x))) (c : Context) (site : Site) {p : Placed}
    (h : p.statement.effect.All T X) :
    ∃ terms : List Sexp, extraLines e c r site p = terms.map .assert ∧
      ∀ t ∈ terms, t.Made S B := by
  unfold extraLines
  cases heffect : p.statement.effect with
  | allocate type target =>
      rw [heffect] at h
      exact made_pointerLines hS c site _ type (hX target h)
  | construct type target constructor arguments =>
      rw [heffect] at h
      exact made_pointerLines hS c site _ type (hX target h.1)
  | _ => exact ⟨[], rfl, by simp⟩

end

end Pathwise
