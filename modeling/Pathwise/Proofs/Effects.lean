import Pathwise.Proofs.Guards

/-!
# Pathwise.Proofs.Effects

What the statements of an instruction do beyond what they assert.
`Lowering.Emits` says it once for all opcodes (`Lowering.emits_lower`): the types
and methods that a statement notes, what it allocates, and what it assigns.

That a form refers only to what its graph mentions, that what it allocates has a
sentence of references, and that it asserts what it assigns are read off this,
without another look at the opcodes.
-/

namespace Pathwise

/-- The method that an instruction runs. -/
def MethodGraph.Instruction.callee? (i : MethodGraph.Instruction) : Option MethodRef :=
  match i.opcode with
  | .call callee _ => some callee
  | .newObject constructor => some constructor
  | _ => none

/-- The type of the object that an effect allocates. -/
def Effect.allocated? : Effect → Option TypeRef
  | .allocate type _ | .construct type .. => some type
  | _ => Option.none

/-! ## references -/

namespace Sentence

variable {s : Sentence} {a term : Sexp}

/-- Only references can be allocated, and told from null. -/
theorem isReference_of_apply {op : Operation} (hop : op = .allocated a ∨ op = .isNotNull a)
    (h : s.apply op = .ok term) : s.isReference = true := by
  unfold apply at h
  unfold isReference
  cases hs : s.shape with
  | bool => obtain rfl | rfl := hop <;> simp [hs, applyBool, unsupported] at h
  | int => obtain rfl | rfl := hop <;> simp [hs, applyInt, applyNumeric, unsupported] at h
  | real => obtain rfl | rfl := hop <;> simp [hs, applyReal, applyNumeric, unsupported] at h
  | _ => rfl

end Sentence

/-! ## statements of an instruction -/

namespace Lowering

open MethodGraph (Instruction)

/-- What an effect of an instruction refers to, beside the terms of its statement. -/
structure Performs (c : Lowering) (i : Instruction) (terms : List Sexp) (effect : Effect) :
    Prop where
  /-- It runs the method that the instruction names. -/
  callee : ∀ m ∈ effect.callee?, i.callee? = some m
  /-- What it allocates has a sentence of references. -/
  allocated : ∀ t ∈ effect.allocated?, ∃ s, c.lookup t = .ok s ∧ s.isReference = true
  /-- It assigns a variable whose value, converted to the type of the target, equals the target. -/
  assigned : ∀ source target, effect = .assign source target → ∃ x y value e,
    target = c.symbol x ∧ source = c.term y ∧ c.coerce y x.type = .ok value ∧
      c.equate x value = .ok e ∧ terms = [e]

/-- What a statement of an instruction does. -/
structure Emits (c : Lowering) (i : Instruction) (st : Statement) : Prop where
  /-- It needs types that the instruction mentions. -/
  types : ∀ t ∈ st.types, (∃ v ∈ i.variables, v.type = t) ∨ t ∈ i.namedTypes
  /-- It notes the method that it runs. -/
  methods : st.methods = st.effect.callee?.toList
  performs : c.Performs i st.terms st.effect

variable {c : Lowering} {i : Instruction} {st : Statement} {l : Lowered}

theorem performs_none (terms : List Sexp) : c.Performs i terms .none where
  callee _ h := by simp [Effect.callee?] at h
  allocated _ h := by simp [Effect.allocated?] at h
  assigned _ _ h := by contradiction

namespace Emits

theorem assertion (offset : Nat) (terms : List Sexp) : c.Emits i (.assertion offset terms) where
  types _ h := absurd h List.not_mem_nil
  methods := rfl
  performs := performs_none terms

theorem branch (offset : Nat) (condition : Sexp) : c.Emits i (.branch offset condition) where
  types _ h := absurd h List.not_mem_nil
  methods := rfl
  performs := performs_none [condition]

theorem withEffect {offset : Nat} {terms : List Sexp} {effect : Effect}
    (h : c.Performs i terms effect) :
    c.Emits i ((Statement.assertion offset terms).withEffect effect) where
  types _ h := absurd h List.not_mem_nil
  methods := List.nil_append _
  performs := h

theorem mentioning (h : c.Emits i st) {type : TypeRef}
    (htype : (∃ v ∈ i.variables, v.type = type) ∨ type ∈ i.namedTypes) :
    c.Emits i (st.mentioning type) := by
  unfold Statement.mentioning
  split
  · exact h
  · refine ⟨fun t ht => ?_, h.methods, h.performs⟩
    obtain ht | ht := List.mem_append.1 ht
    · exact h.types t ht
    · rwa [List.mem_singleton.1 ht]

theorem defining {e : Sexp} (h : c.defining i e = .ok st) : c.Emits i st := by
  simp only [Lowering.defining, bind_eq_ok, pure_eq_ok] at h
  obtain ⟨x, -, e, -, rfl⟩ := h
  exact assertion i.offset [e]

end Emits

/-! ## instructions -/

theorem emits_plain (h : c.Emits i st) : ∀ st' ∈ (Lowered.plain [st]).statements, c.Emits i st' :=
  List.forall_mem_singleton.2 h

theorem emits_faulting {offset : Nat} {normal : List Sexp} {checks : List FaultCheck}
    (h : c.Emits i st) :
    ∀ st' ∈ (faulting offset normal checks [st]).statements, c.Emits i st' := by
  unfold faulting
  split
  · exact emits_plain h
  · simp only [Lowered.statements, List.map_cons, List.cons_append, List.forall_mem_cons,
      List.forall_mem_append, List.forall_mem_map]
    refine ⟨.assertion _ _, fun g hg => ?_, h, by simp⟩
    obtain ⟨terms, hterms⟩ := assertion_of_mem_faultGroups hg
    rw [hterms]
    exact .assertion _ _

theorem emits_call {callee : MethodRef} {virtualDispatch : Bool}
    (hop : i.opcode = .call callee virtualDispatch) (h : c.lower i = .ok l) :
    ∀ st ∈ l.statements, c.Emits i st := by
  have hcall : ∀ arguments, c.Emits i (c.callStatement i callee arguments) := fun arguments =>
    .withEffect
      { callee := fun m hm => by
          obtain rfl := Option.some.inj hm
          simp [Instruction.callee?, hop]
        allocated := fun t ht => by simp [Effect.allocated?] at ht
        assigned := fun _ _ heq => by contradiction }
  rw [lower, hop] at h
  obtain ⟨arguments, -, rfl |
    ⟨hvirtual, receiver, s, checks, statement, -, -, -, hstatement, rfl⟩⟩ := lowerCall_cases h
  · exact emits_plain (hcall arguments)
  · refine emits_faulting ?_
    obtain rfl | ⟨habstract, rfl⟩ := hstatement
    · exact hcall arguments
    · have hnamed : callee.declaring ∈ i.namedTypes := by
        simp [Instruction.namedTypes, hop, hvirtual, habstract]
      exact (hcall arguments).mentioning (Or.inr hnamed)

theorem emits_newObject {constructor : MethodRef} (hop : i.opcode = .newObject constructor)
    (h : c.lower i = .ok l) : ∀ st ∈ l.statements, c.Emits i st := by
  obtain ⟨x, s, allocated, arguments, -, hs, ha, -, rfl⟩ := lower_newObject hop h
  have hnamed : constructor.declaring ∈ i.namedTypes := by simp [Instruction.namedTypes, hop]
  refine emits_plain (.mentioning (.withEffect ?_) (Or.inr hnamed))
  exact
    { callee := fun m hm => by
        obtain rfl := Option.some.inj hm
        simp [Instruction.callee?, hop]
      allocated := fun t ht => by
        obtain rfl := Option.some.inj ht
        exact ⟨s, hs, Sentence.isReference_of_apply (Or.inl rfl) (mapError_eq_ok.1 ha)⟩
      assigned := fun _ _ heq => by contradiction }

theorem emits_newArray {element : TypeRef} (hop : i.opcode = .newArray element)
    (h : c.lower i = .ok l) : ∀ st ∈ l.statements, c.Emits i st := by
  simp only [lower, hop, bind_eq_ok, pure_eq_ok] at h
  obtain ⟨x, hx, length, -, s, hs, notNull, hn, -, -, -, -, -, -, -, -, -, -, rfl⟩ := h
  have hnamed : element ∈ i.namedTypes := by simp [Instruction.namedTypes, hop]
  have htarget : x ∈ i.variables := List.mem_append_right _ (by simp [target_eq_ok hx])
  refine emits_plain
    (.mentioning (.mentioning (.withEffect ?_) (Or.inr hnamed)) (Or.inl ⟨x, htarget, rfl⟩))
  exact
    { callee := fun m hm => by simp [Effect.callee?] at hm
      allocated := fun t ht => by
        obtain rfl := Option.some.inj ht
        exact ⟨s, hs, Sentence.isReference_of_apply (Or.inr rfl) (mapError_eq_ok.1 hn)⟩
      assigned := fun _ _ heq => by contradiction }

/-- **What instructions become**, beyond the terms that are asserted. -/
theorem emits_lower (h : c.lower i = .ok l) : ∀ st ∈ l.statements, c.Emits i st := by
  cases hop : i.opcode with
  | assign =>
      simp only [lower, hop, bind_eq_ok, pure_eq_ok] at h
      obtain ⟨x, -, y, -, value, hvalue, e, he, rfl⟩ := h
      refine emits_plain (.withEffect ⟨?_, ?_, fun source target heffect => ?_⟩)
      · simp [Effect.callee?]
      · simp [Effect.allocated?]
      · obtain ⟨rfl, rfl⟩ := Effect.assign.inj heffect
        exact ⟨x, y, value, e, rfl, rfl, hvalue, he, rfl⟩
  | call callee virtualDispatch => exact emits_call hop h
  | newObject constructor => exact emits_newObject hop h
  | newArray element => exact emits_newArray hop h
  | ret =>
      obtain ⟨value, rfl, -⟩ := lower_ret hop h
      exact emits_plain
        (.withEffect ⟨by simp [Effect.callee?], by simp [Effect.allocated?], by simp⟩)
  | throw =>
      simp only [lower, hop, bind_eq_ok, pure_eq_ok] at h
      obtain ⟨v, -, rfl⟩ := h
      exact emits_plain
        (.withEffect ⟨by simp [Effect.callee?], by simp [Effect.allocated?], by simp⟩)
  | branch test =>
      obtain ⟨a, s, taken, notTaken, -, -, -, -, rfl⟩ := lower_branch hop h
      simp only [Lowered.statements, List.forall_mem_cons]
      exact ⟨.branch _ _, .assertion _ _, by simp⟩
  | jump =>
      rw [lower, hop] at h
      obtain rfl := Except.ok.inj h
      simp [Lowered.statements]
  | constant literal =>
      simp only [lower, hop, bind_eq_ok, pure_eq_ok] at h
      obtain ⟨x, -, s, -, e, -, rfl⟩ := h
      exact emits_plain (.assertion _ _)
  -- the other instructions define their target; some check for faults first
  | binary op | compare op =>
      simp only [lower, hop, bind_eq_ok, pure_eq_ok] at h
      obtain ⟨a, -, b, -, s, -, b', -, e, -, st, hst, rfl⟩ := h
      exact emits_plain (.defining hst)
  | not | loadField field =>
      simp only [lower, hop, bind_eq_ok, pure_eq_ok] at h
      obtain ⟨a, -, s, -, e, -, st, hst, rfl⟩ := h
      exact emits_plain (.defining hst)
  | storeField field =>
      obtain ⟨object, value, s, f, stored, e, st, -, -, -, -, -, hst, rfl⟩ := lower_storeField hop h
      exact emits_plain (.defining hst)
  | convert type =>
      simp only [lower, hop, bind_eq_ok, pure_eq_ok] at h
      obtain ⟨v, -, converted, -, st, hst, rfl⟩ := h
      exact emits_plain
        (.mentioning (.defining hst) (Or.inr (by simp [Instruction.namedTypes, hop])))
  | isInstance type =>
      simp only [lower, hop, bind_eq_ok, pure_eq_ok] at h
      obtain ⟨v, -, s, -, e, -, st, hst, rfl⟩ := h
      exact emits_plain
        (.mentioning (.defining hst) (Or.inr (by simp [Instruction.namedTypes, hop])))
  | arrayLength =>
      simp only [lower, hop, bind_eq_ok, pure_eq_ok] at h
      obtain ⟨array, -, s, -, length, -, st, hst, check, -, notNull, -, rfl⟩ := h
      exact emits_faulting (.defining hst)
  | loadElement =>
      simp only [lower, hop, bind_eq_ok, pure_eq_ok] at h
      obtain ⟨array, -, index, -, s, -, at_, -, e, -, st, hst, ⟨normal, checks⟩, -, rfl⟩ := h
      exact emits_faulting (.defining hst)
  | storeElement =>
      simp only [lower, hop, bind_eq_ok, pure_eq_ok] at h
      obtain ⟨array, -, index, -, value, -, s, -, at_, -, stored, -, e, -, st, hst,
        ⟨normal, checks⟩, -, rfl⟩ := h
      exact emits_faulting (.defining hst)
  | unsupported name =>
      rw [lower, hop] at h
      contradiction

end Lowering

end Pathwise
