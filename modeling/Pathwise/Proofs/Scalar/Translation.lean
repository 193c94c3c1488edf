import Pathwise.Proofs.Filled
import Pathwise.Proofs.Guards
import Pathwise.Proofs.Scalar.Reading

/-!
# Pathwise.Proofs.Scalar.Translation

What the encoding of one scalar instruction says. `translated_lower` sums up:
the term of an instruction with a result is true exactly if its target has the
value that the instruction computes from its operands; the two sides of a branch
say which way its test goes; jumps and returns assert nothing.
-/

namespace Pathwise

open MethodGraph (Instruction)
open Sexp (IsAtom)

namespace Scalar

/-! ## instructions -/

section Instructions

variable {p : Program} {exceptionBase : Option TypeRef} {lookup : SentenceLookup}
  {m : MethodRef} {v : Valuation} {x : Variable} {i : Instruction}

/-- The value a valuation gives a variable of a method. -/
def value (m : MethodRef) (v : Valuation) (x : Variable) : Scalar := v (m.slotSymbol x.slot)

/-- What a scalar instruction becomes: an equation for the value that it computes, the two sides
of a test, or nothing that is asserted. -/
inductive Translated (m : MethodRef) (v : Valuation) (i : Instruction) : Lowered → Prop where
  | computes {x : Variable} {a : Scalar} {e : Sexp} {s : Statement} (hx : i.result? = some x)
      (ha : compute i.opcode (i.operands.map (value m v)) = some a) (hs : s.terms = [e])
      (hreadable : e.Readable) (he : eval v e = some (.bool (value m v x = a))) :
      Translated m v i (.plain [s])
  | branches {t : BranchTest} {x : Variable} {b : Bool} {e e' : Sexp}
      (ht : i.opcode = .branch t) (hx : i.operands.head? = some x)
      (hb : test t (value m v x) = some b) (hreadable : e.Readable)
      (hreadable' : e'.Readable) (he : eval v e = some (.bool b))
      (he' : eval v e' = some (.bool !b)) :
      Translated m v i (.branch (.branch i.offset e) (.assertion i.offset [e']))
  | leaves {statements : List Statement} (hjump : i.opcode = .jump ∨ i.opcode = .ret)
      (hs : ∀ s ∈ statements, s.terms = []) : Translated m v i (.plain statements)

/-- The sentence of a variable with a scalar value. -/
theorem sentence_cases (hl : p.Encodes exceptionBase lookup) {s : Sentence}
    (hx : (value m v x).type = x.type) (hs : lookup x.type = .ok s) :
    (∃ b, value m v x = .bool b ∧ x.type = .bool ∧ s.shape = .bool) ∨
    (∃ n, value m v x = .int n ∧ x.type = .int32 ∧ s.shape = .int) := by
  have hencode := hl _ _ hs
  cases hvalue : value m v x with
  | bool b =>
      rw [hvalue] at hx
      rw [← hx] at hencode
      obtain rfl := Except.ok.inj hencode
      exact Or.inl ⟨b, rfl, hx.symm, rfl⟩
  | int n =>
      rw [hvalue] at hx
      rw [← hx] at hencode
      obtain rfl := Except.ok.inj hencode
      exact Or.inr ⟨n, rfl, hx.symm, rfl⟩

@[simp]
theorem eval_term (x : Variable) :
    eval v ((Lowering.mk m lookup).term x) = some (value m v x) := by
  simp [Lowering.term, Lowering.symbol, value]

theorem readable_term (c : Lowering) (x : Variable) : (c.term x).Readable := by
  rw [Lowering.term, Lowering.symbol, MethodRef.variableSymbol_eq]
  exact Sexp.readable_slotSymbol c.method x.slot

/-- An equation for a variable says that it has the value of the other side. -/
theorem equate_eq_ok (hl : p.Encodes exceptionBase lookup) {e term : Sexp} {a : Scalar}
    (hx : (value m v x).type = x.type) (hreadable : e.Readable) (he : eval v e = some a)
    (ha : a.type = x.type) (h : (Lowering.mk m lookup).equate x e = .ok term) :
    term.Readable ∧ eval v term = some (.bool (value m v x = a)) := by
  simp only [Lowering.equate, Lowering.apply, bind_eq_ok, mapError_eq_ok] at h
  obtain ⟨s, hs, h⟩ := h
  obtain rfl : Sexp.eq ((Lowering.mk m lookup).term x) e = term := by
    obtain ⟨b, -, -, hshape⟩ | ⟨n, -, -, hshape⟩ := sentence_cases hl hx hs
    · rw [Sentence.apply, hshape] at h
      exact Except.ok.inj h
    · rw [Sentence.apply, hshape] at h
      exact Except.ok.inj h
  refine ⟨Sexp.readable_app (by decide) (by simp [readable_term, hreadable]), ?_⟩
  simp [Sexp.eq, he, operate, hx, ha]

theorem operands_eq_cons (h : (Lowering.mk m lookup).operand i 0 = .ok x) :
    ∃ xs, i.operands = x :: xs := by
  have hx := Lowering.operand_eq_ok h
  cases hops : i.operands with
  | nil => simp [hops] at hx
  | cons y ys =>
      simp only [hops, List.getElem?_cons_zero, Option.some.injEq] at hx
      exact ⟨ys, by rw [hx]⟩

theorem operands_eq_cons_cons {x y : Variable} (hx : (Lowering.mk m lookup).operand i 0 = .ok x)
    (hy : (Lowering.mk m lookup).operand i 1 = .ok y) : ∃ xs, i.operands = x :: y :: xs := by
  obtain ⟨xs, hops⟩ := operands_eq_cons hx
  have hsecond := Lowering.operand_eq_ok hy
  cases xs with
  | nil => simp [hops] at hsecond
  | cons z zs =>
      simp only [hops, List.getElem?_cons_succ, List.getElem?_cons_zero,
        Option.some.injEq] at hsecond
      exact ⟨zs, by rw [hops, hsecond]⟩

/-- A variable of the right type is not converted. -/
theorem coerce_eq_ok {t : TypeRef} {e : Sexp} (ht : x.type = t)
    (h : (Lowering.mk m lookup).coerce x t = .ok e) : e = (Lowering.mk m lookup).term x := by
  rw [Lowering.coerce, if_pos ht] at h
  exact (Except.ok.inj h).symm

/-- An instruction that defines its target by a term with the value that it computes. -/
theorem translated_defining (hl : p.Encodes exceptionBase lookup)
    (hfits : ∀ x ∈ i.variables, (value m v x).type = x.type) {a : Scalar} {e : Sexp} {s : Statement}
    (hresult : i.result? = i.target) (ha : compute i.opcode (i.operands.map (value m v)) = some a)
    (htype : ∀ x ∈ i.target, x.type = a.type) (hreadable : e.Readable) (he : eval v e = some a)
    (h : (Lowering.mk m lookup).defining i e = .ok s) :
    Translated m v i (.plain [s]) := by
  simp only [Lowering.defining, bind_eq_ok, pure_eq_ok] at h
  obtain ⟨x, hx, term, hterm, rfl⟩ := h
  have htarget := Lowering.target_eq_ok hx
  have hmem : x ∈ i.variables := by simp [Instruction.variables, htarget]
  obtain ⟨hr, hvalue⟩ := equate_eq_ok hl (hfits x hmem) hreadable he (htype x htarget).symm hterm
  exact .computes (hresult.trans htarget) ha rfl hr hvalue

variable {i : Instruction} {l : Lowered}

theorem translated_assign (hl : p.Encodes exceptionBase lookup) (hop : i.opcode = .assign)
    (hi : i.IsScalar) (hfits : ∀ x ∈ i.variables, (value m v x).type = x.type)
    (h : (Lowering.mk m lookup).lower i = .ok l) : Translated m v i l := by
  simp only [Lowering.lower, hop, bind_eq_ok, pure_eq_ok] at h
  obtain ⟨x, hx, y, hy, e, he, term, hterm, rfl⟩ := h
  have hsides : ∀ y ∈ i.operands, ∀ x ∈ i.target, y.type = x.type := by
    simpa only [hop] using hi.2
  have htarget := Lowering.target_eq_ok hx
  obtain ⟨ys, hops⟩ := operands_eq_cons hy
  have hxy : y.type = x.type := hsides y (by simp [hops]) x htarget
  obtain rfl := coerce_eq_ok hxy he
  have hxfits := hfits x (by simp [Instruction.variables, htarget])
  have hyfits := hfits y (by simp [Instruction.variables, hops])
  obtain ⟨hr, hvalue⟩ :=
    equate_eq_ok hl hxfits (readable_term _ y) (eval_term y) (hyfits.trans hxy) hterm
  exact .computes (by simp [Instruction.result?, hop, htarget]) (by simp [hop, hops, compute])
    rfl hr hvalue

theorem translated_constant (hl : p.Encodes exceptionBase lookup) {literal : Literal}
    (hop : i.opcode = .constant literal)
    (hfits : ∀ x ∈ i.variables, (value m v x).type = x.type)
    (h : (Lowering.mk m lookup).lower i = .ok l) : Translated m v i l := by
  simp only [Lowering.lower, hop, Lowering.apply, bind_eq_ok, pure_eq_ok, mapError_eq_ok] at h
  obtain ⟨x, hx, s, hs, e, he, rfl⟩ := h
  have htarget := Lowering.target_eq_ok hx
  have hresult : i.result? = some x := by simp [Instruction.result?, hop, htarget]
  have hxfits := hfits x (by simp [Instruction.variables, htarget])
  obtain ⟨b, hb, -, hshape⟩ | ⟨n, hn, -, hshape⟩ := sentence_cases hl hxfits hs
  · rw [Sentence.apply, hshape] at he
    cases literal with
    | bool c =>
        obtain rfl := Except.ok.inj he
        have hcompute : compute i.opcode (i.operands.map (value m v)) = some (.bool c) := by
          simp [hop, compute]
        refine .computes hresult hcompute rfl ?_ ?_
        · refine Sexp.readable_app (by decide) ?_
          cases c <;> simp [readable_term, Sexp.Readable] <;> decide
        · cases c <;> simp [Sexp.eq, eval, literal?, operate, hb, type]
    | _ => contradiction
  · rw [Sentence.apply, hshape] at he
    cases literal with
    | int k =>
        obtain rfl := Except.ok.inj he
        have hcompute : compute i.opcode (i.operands.map (value m v)) = some (.int k) := by
          simp [hop, compute]
        refine .computes hresult hcompute rfl ?_ ?_
        · exact Sexp.readable_app (by decide) (by simp [readable_term, Sexp.readable_int])
        · simp [Sexp.eq, operate, hn, type]
    | _ => contradiction

theorem int_of_type (hfits : (value m v x).type = x.type) (hx : x.type = .int32) :
    ∃ n, value m v x = .int n := by
  rw [hx] at hfits
  cases hvalue : value m v x with
  | bool b =>
      rw [hvalue] at hfits
      simp [type] at hfits
  | int n => exact ⟨n, rfl⟩

theorem bool_of_type (hfits : (value m v x).type = x.type) (hx : x.type = .bool) :
    ∃ b, value m v x = .bool b := by
  rw [hx] at hfits
  cases hvalue : value m v x with
  | bool b => exact ⟨b, rfl⟩
  | int n =>
      rw [hvalue] at hfits
      simp [type] at hfits

theorem translated_binary (hl : p.Encodes exceptionBase lookup) {op : BinaryOp}
    (hop : i.opcode = .binary op) (hi : i.IsScalar)
    (hfits : ∀ x ∈ i.variables, (value m v x).type = x.type)
    (h : (Lowering.mk m lookup).lower i = .ok l) : Translated m v i l := by
  simp only [Lowering.lower, hop, Lowering.apply, bind_eq_ok, pure_eq_ok, mapError_eq_ok] at h
  obtain ⟨a, ha, b, hb, s, hs, e', he', e, he, st, hst, rfl⟩ := h
  have htarget : ∀ x ∈ i.target, x.type = .int32 := by simpa only [hop] using hi.2
  obtain ⟨xs, hops⟩ := operands_eq_cons_cons ha hb
  have hba : b.type = a.type := hi.1 b (by simp [hops]) a (by simp [hops])
  obtain rfl := coerce_eq_ok hba he'
  have hafits := hfits a (by simp [Instruction.variables, hops])
  have hbfits := hfits b (by simp [Instruction.variables, hops])
  obtain ⟨c, -, -, hshape⟩ | ⟨n, hn, htype, hshape⟩ := sentence_cases hl hafits hs
  · rw [Sentence.apply, hshape] at he
    contradiction
  · rw [Sentence.apply, hshape] at he
    obtain rfl := Except.ok.inj he
    obtain ⟨k, hk⟩ := int_of_type hbfits (hba.trans htype)
    have hcompute : compute i.opcode (i.operands.map (value m v)) =
        some (.int (arithmetic op n k)) := by simp [hop, hops, compute, hn, hk]
    refine translated_defining hl hfits (by simp [Instruction.result?, hop]) hcompute htarget
      ?_ ?_ hst
    · cases op <;> exact Sexp.readable_app (by decide) (by simp [readable_term])
    · cases op <;> simp [Sexp.arithmetic, hn, hk, operate, arithmetic]

theorem readable_comparison (op : Comparison) {a b : Sexp} (ha : a.Readable) (hb : b.Readable) :
    (Sexp.comparison op a b).Readable := by
  have happ : ∀ op, IsAtom op → (Sexp.app op [a, b]).Readable := fun op hop =>
    Sexp.readable_app hop (by simp [ha, hb])
  cases op with
  | ne => exact Sexp.readable_app (by decide) (by simp [Sexp.eq, happ "=" (by decide)])
  | _ => exact happ _ (by decide)

theorem translated_compare (hl : p.Encodes exceptionBase lookup) {op : Comparison}
    (hop : i.opcode = .compare op) (hi : i.IsScalar)
    (hfits : ∀ x ∈ i.variables, (value m v x).type = x.type)
    (h : (Lowering.mk m lookup).lower i = .ok l) : Translated m v i l := by
  simp only [Lowering.lower, hop, Lowering.apply, bind_eq_ok, pure_eq_ok, mapError_eq_ok] at h
  obtain ⟨a, ha, b, hb, s, hs, e', he', e, he, st, hst, rfl⟩ := h
  have htarget : ∀ x ∈ i.target, x.type = .bool := by simpa only [hop] using hi.2
  obtain ⟨xs, hops⟩ := operands_eq_cons_cons ha hb
  have hba : b.type = a.type := hi.1 b (by simp [hops]) a (by simp [hops])
  obtain rfl := coerce_eq_ok hba he'
  have hafits := hfits a (by simp [Instruction.variables, hops])
  have hbfits := hfits b (by simp [Instruction.variables, hops])
  have hresult : i.result? = i.target := by simp [Instruction.result?, hop]
  obtain ⟨c, hc, htype, hshape⟩ | ⟨n, hn, htype, hshape⟩ := sentence_cases hl hafits hs
  · rw [Sentence.apply, hshape] at he
    obtain ⟨d, hd⟩ := bool_of_type hbfits (hba.trans htype)
    have hreadable := readable_comparison op (readable_term ⟨m, lookup⟩ a)
      (readable_term ⟨m, lookup⟩ b)
    cases op with
    | eq =>
        obtain rfl := Except.ok.inj he
        have hcompute : compute i.opcode (i.operands.map (value m v)) =
            some (.bool (c = d)) := by simp [hop, hops, compute, hc, hd]
        refine translated_defining hl hfits hresult hcompute htarget hreadable ?_ hst
        simp [Sexp.comparison, Sexp.eq, hc, hd, operate, type]
    | ne =>
        obtain rfl := Except.ok.inj he
        have hcompute : compute i.opcode (i.operands.map (value m v)) =
            some (.bool (c ≠ d)) := by simp [hop, hops, compute, hc, hd]
        refine translated_defining hl hfits hresult hcompute htarget hreadable ?_ hst
        simp [Sexp.comparison, Sexp.eq, Sexp.not, hc, hd, operate, type]
    | _ => contradiction
  · rw [Sentence.apply, hshape] at he
    obtain rfl := Except.ok.inj he
    obtain ⟨k, hk⟩ := int_of_type hbfits (hba.trans htype)
    have hcompute : compute i.opcode (i.operands.map (value m v)) =
        some (.bool (ordered op n k)) := by simp [hop, hops, compute, hn, hk]
    refine translated_defining hl hfits hresult hcompute htarget ?_ ?_ hst
    · exact readable_comparison op (readable_term _ a) (readable_term _ b)
    · cases op <;> simp [Sexp.comparison, Sexp.eq, Sexp.not, hn, hk, operate, ordered, type]

theorem translated_not (hl : p.Encodes exceptionBase lookup) (hop : i.opcode = .not)
    (hi : i.IsScalar) (hfits : ∀ x ∈ i.variables, (value m v x).type = x.type)
    (h : (Lowering.mk m lookup).lower i = .ok l) : Translated m v i l := by
  simp only [Lowering.lower, hop, Lowering.apply, bind_eq_ok, pure_eq_ok, mapError_eq_ok] at h
  obtain ⟨a, ha, s, hs, e, he, st, hst, rfl⟩ := h
  have htarget : ∀ x ∈ i.target, x.type = .bool := by simpa only [hop] using hi.2
  obtain ⟨xs, hops⟩ := operands_eq_cons ha
  have hafits := hfits a (by simp [Instruction.variables, hops])
  obtain ⟨c, hc, -, hshape⟩ | ⟨n, -, -, hshape⟩ := sentence_cases hl hafits hs
  · rw [Sentence.apply, hshape] at he
    obtain rfl := Except.ok.inj he
    have hcompute : compute i.opcode (i.operands.map (value m v)) = some (.bool !c) := by
      simp [hop, hops, compute, hc]
    refine translated_defining hl hfits (by simp [Instruction.result?, hop]) hcompute htarget
      ?_ ?_ hst
    · exact Sexp.readable_app (by decide) (by simp [readable_term])
    · simp [Sexp.not, hc, operate]
  · rw [Sentence.apply, hshape] at he
    contradiction

theorem translated_branch (hl : p.Encodes exceptionBase lookup) {t : BranchTest}
    (hop : i.opcode = .branch t) (hfits : ∀ x ∈ i.variables, (value m v x).type = x.type)
    (h : (Lowering.mk m lookup).lower i = .ok l) : Translated m v i l := by
  obtain ⟨x, s, e, e', hx, hs, he, he', rfl⟩ := Lowering.lower_branch hop h
  simp only [Lowering.apply, mapError_eq_ok] at he he'
  obtain ⟨xs, hops⟩ := operands_eq_cons hx
  have hhead : i.operands.head? = some x := by simp [hops]
  have hterm := readable_term ⟨m, lookup⟩ x
  have hnot : ∀ {a : Sexp}, a.Readable → a.not.Readable := fun ha =>
    Sexp.readable_app (by decide) (by simp [ha])
  have hxfits := hfits x (by simp [Instruction.variables, hops])
  obtain ⟨b, hb, -, hshape⟩ | ⟨n, hn, -, hshape⟩ := sentence_cases hl hxfits hs
  · rw [Sentence.apply, hshape] at he he'
    cases t with
    | ifTrue =>
        obtain rfl := Except.ok.inj he
        obtain rfl := Except.ok.inj he'
        refine .branches hop hhead (b := b) (by simp [hb, test]) hterm (hnot hterm)
          (by simp [hb]) (by simp [Sexp.not, hb, operate])
    | ifFalse =>
        obtain rfl := Except.ok.inj he
        obtain rfl := Except.ok.inj he'
        refine .branches hop hhead (b := !b) (by simp [hb, test]) (hnot hterm) hterm
          (by simp [Sexp.not, hb, operate]) (by simp [hb])
    | _ => contradiction
  · have hzero : (Sexp.eq ((Lowering.mk m lookup).term x) (.nat 0)).Readable :=
      Sexp.readable_app (by decide) (by simp [hterm, Sexp.readable_nat])
    rw [Sentence.apply, hshape] at he he'
    cases t with
    | ifTrue =>
        obtain rfl := Except.ok.inj he
        obtain rfl := Except.ok.inj he'
        refine .branches hop hhead (b := n ≠ 0) (by simp [hn, test]) (hnot hzero) hzero
          (by simp [Sexp.not, Sexp.eq, hn, operate, type]) (by simp [Sexp.eq, hn, operate, type])
    | ifFalse =>
        obtain rfl := Except.ok.inj he
        obtain rfl := Except.ok.inj he'
        refine .branches hop hhead (b := n = 0) (by simp [hn, test]) hzero (hnot hzero)
          (by simp [Sexp.eq, hn, operate, type]) (by simp [Sexp.not, Sexp.eq, hn, operate, type])
    | _ => contradiction

/-- **Scalar instructions**: what is asserted for one is that its target has the value it computes,
or which way its test goes. -/
theorem translated_lower (hl : p.Encodes exceptionBase lookup) (hi : i.IsScalar)
    (hfits : ∀ x ∈ i.variables, (value m v x).type = x.type)
    (h : (Lowering.mk m lookup).lower i = .ok l) : Translated m v i l := by
  cases hop : i.opcode with
  | assign => exact translated_assign hl hop hi hfits h
  | constant literal => exact translated_constant hl hop hfits h
  | binary op => exact translated_binary hl hop hi hfits h
  | compare op => exact translated_compare hl hop hi hfits h
  | not => exact translated_not hl hop hi hfits h
  | branch t => exact translated_branch hl hop hfits h
  | jump =>
      simp only [Lowering.lower, hop] at h
      obtain rfl := Except.ok.inj h
      exact .leaves (Or.inl hop) (by simp)
  | ret =>
      obtain ⟨value, rfl, -⟩ := Lowering.lower_ret hop h
      exact .leaves (Or.inr hop)
        (by simp [Statement.terms, Statement.withEffect, Statement.assertion])
  | _ => simp [Instruction.IsScalar, hop] at hi

end Instructions

end Scalar
end Pathwise
