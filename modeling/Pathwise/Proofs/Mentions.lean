import Pathwise.Proofs.Effects
import Pathwise.Resolution.Handler

/-!
# Pathwise.Proofs.Mentions

What the form of a graph depends on. Of a source of sentences only the types that
the graph mentions matter (`Form.ofGraph_congr`), and the form refers to nothing
but these types and the methods that the instructions name.
-/

namespace Pathwise

theorem bind_congr_of_ok {ε α β : Type} {x : Except ε α} {f g : α → Except ε β}
    (h : ∀ a, x = .ok a → f a = g a) : (x >>= f) = (x >>= g) := by
  cases x with
  | error err => rfl
  | ok a => exact h a rfl

theorem mapM_congr_of_mem {ε α β : Type} {l : List α} {f g : α → Except ε β}
    (h : ∀ a ∈ l, f a = g a) : l.mapM f = l.mapM g := by
  induction l with
  | nil => rfl
  | cons a l ih =>
      rw [List.forall_mem_cons] at h
      rw [List.mapM_cons, List.mapM_cons, h.1, ih h.2]

namespace Lowering

open MethodGraph (Instruction)

/-! ## the same sentences -/

section Congruence

variable {m : MethodRef} {lookup lookup' : SentenceLookup} {i : Instruction} {v : Variable}

theorem coerce_congr (h : lookup v.type = lookup' v.type) (type : TypeRef) :
    (mk m lookup).coerce v type = (mk m lookup').coerce v type := by
  simp only [coerce, h]
  rfl

theorem equate_congr (h : lookup v.type = lookup' v.type) (e : Sexp) :
    (mk m lookup).equate v e = (mk m lookup').equate v e := by
  simp only [equate, h]
  rfl

theorem arguments_congr {bound : List (Variable × TypeRef)}
    (h : ∀ b ∈ bound, lookup b.1.type = lookup' b.1.type) :
    (mk m lookup).arguments bound = (mk m lookup').arguments bound := by
  induction bound with
  | nil => rfl
  | cons b bound ih =>
      rw [List.forall_mem_cons] at h
      simp only [arguments, coerce_congr h.1, ih h.2]

/-- Two sources with the same sentences for the variables of an instruction. -/
def AgreeOn (lookup lookup' : SentenceLookup) (i : Instruction) : Prop :=
  ∀ v ∈ i.variables, lookup v.type = lookup' v.type

theorem AgreeOn.operand (h : AgreeOn lookup lookup' i) {k : Nat}
    (hv : (mk m lookup).operand i k = .ok v) : lookup v.type = lookup' v.type :=
  h v (List.mem_append_left _ (List.mem_of_getElem? (operand_eq_ok hv)))

theorem AgreeOn.target (h : AgreeOn lookup lookup' i) (hv : (mk m lookup).target i = .ok v) :
    lookup v.type = lookup' v.type :=
  h v (List.mem_append_right _ (by simp [target_eq_ok hv]))

theorem AgreeOn.zip (h : AgreeOn lookup lookup' i) (types : List TypeRef) :
    ∀ b ∈ i.operands.zip types, lookup b.1.type = lookup' b.1.type := fun _ hb =>
  h _ (List.mem_append_left _ (List.of_mem_zip hb).1)

theorem defining_congr (h : AgreeOn lookup lookup' i) (e : Sexp) :
    (mk m lookup).defining i e = (mk m lookup').defining i e := by
  refine bind_congr_of_ok fun v hv => ?_
  rw [equate_congr (h.target hv)]

theorem lowerCall_congr (h : AgreeOn lookup lookup' i) (callee : MethodRef)
    (virtualDispatch : Bool) :
    (mk m lookup).lowerCall i callee virtualDispatch =
      (mk m lookup').lowerCall i callee virtualDispatch := by
  simp only [lowerCall, pure_bind, arguments_congr (h.zip _)]
  by_cases hcount : callee.parameterSlots.length ≠ i.operands.length
  · rw [if_pos hcount, if_pos hcount]
    rfl
  · rw [if_neg hcount, if_neg hcount]
    refine bind_congr_of_ok fun arguments _ => ?_
    by_cases hdirect : (!virtualDispatch || callee.isStatic) = true
    · rw [if_pos hdirect, if_pos hdirect]
      rfl
    · rw [if_neg hdirect, if_neg hdirect]
      refine bind_congr_of_ok fun receiver hr => ?_
      simp only [h.operand hr]
      rfl

theorem lower_congr (h : AgreeOn lookup lookup' i) (hint : lookup .int32 = lookup' .int32) :
    (mk m lookup).lower i = (mk m lookup').lower i := by
  unfold lower
  cases i.opcode with
  | assign =>
      refine bind_congr_of_ok fun target ht => bind_congr_of_ok fun source hs => ?_
      simp only [coerce_congr (h.operand hs), equate_congr (h.target ht)]
      rfl
  | constant literal =>
      refine bind_congr_of_ok fun target ht => ?_
      simp only [h.target ht]
      rfl
  | binary op | compare op =>
      refine bind_congr_of_ok fun a ha => bind_congr_of_ok fun b hb => ?_
      simp only [h.operand ha, coerce_congr (h.operand hb), defining_congr h]
      rfl
  | not =>
      refine bind_congr_of_ok fun a ha => ?_
      simp only [h.operand ha, defining_congr h]
      rfl
  | branch test =>
      refine bind_congr_of_ok fun a ha => ?_
      simp only [h.operand ha]
      rfl
  | jump => rfl
  | call callee virtualDispatch => exact lowerCall_congr h callee virtualDispatch
  | newObject constructor =>
      refine bind_congr_of_ok fun target ht => ?_
      simp only [h.target ht, arguments_congr (h.zip _)]
      rfl
  | newArray element =>
      refine bind_congr_of_ok fun target ht => bind_congr_of_ok fun length hl => ?_
      simp only [h.target ht, coerce_congr (h.operand hl), hint]
      rfl
  | arrayLength =>
      refine bind_congr_of_ok fun array ha => ?_
      simp only [h.operand ha, defining_congr h]
      rfl
  | loadElement =>
      refine bind_congr_of_ok fun array ha => bind_congr_of_ok fun index hi => ?_
      simp only [h.operand ha, coerce_congr (h.operand hi), defining_congr h]
      rfl
  | storeElement =>
      refine bind_congr_of_ok fun array ha => bind_congr_of_ok fun index hi =>
        bind_congr_of_ok fun value hv => ?_
      simp only [h.operand ha, coerce_congr (h.operand hi), coerce_congr (h.operand hv),
        defining_congr h]
      rfl
  | loadField field =>
      refine bind_congr_of_ok fun object ho => ?_
      simp only [h.operand ho, defining_congr h]
      rfl
  | storeField field =>
      refine bind_congr_of_ok fun object ho => bind_congr_of_ok fun value hv => ?_
      simp only [h.operand ho, coerce_congr (h.operand hv), defining_congr h]
      rfl
  | ret =>
      simp only
      split
      · refine bind_congr_of_ok fun v hv => ?_
        simp only [coerce_congr (h.operand hv)]
      · rfl
  | throw => rfl
  | convert type =>
      refine bind_congr_of_ok fun v hv => ?_
      simp only [coerce_congr (h.operand hv), defining_congr h]
  | isInstance type =>
      refine bind_congr_of_ok fun v hv => ?_
      simp only [h.operand hv, defining_congr h]
      rfl
  | unsupported name => rfl

theorem declareAll_congr {vs : List Variable} (h : ∀ v ∈ vs, lookup v.type = lookup' v.type)
    (offset : Nat) (s : Segments) :
    (mk m lookup).declareAll offset vs s = (mk m lookup').declareAll offset vs s := by
  induction vs generalizing s with
  | nil => rfl
  | cons v vs ih =>
      rw [List.forall_mem_cons] at h
      simp only [declareAll, declare, h.1, ih h.2]
      rfl

theorem lowerAll_congr {instructions : List Instruction}
    (h : ∀ i ∈ instructions, AgreeOn lookup lookup' i) (hint : lookup .int32 = lookup' .int32)
    (s : Segments) :
    (mk m lookup).lowerAll instructions s = (mk m lookup').lowerAll instructions s := by
  induction instructions generalizing s with
  | nil => rfl
  | cons i rest ih =>
      rw [List.forall_mem_cons] at h
      simp only [lowerAll, declareAll_congr h.1, lower_congr h.1 hint, ih h.2]

theorem lowerBlock_congr {b : MethodGraph.Block}
    (h : ∀ i ∈ b.instructions, AgreeOn lookup lookup' i) (hint : lookup .int32 = lookup' .int32)
    (visible : List Slot) :
    (mk m lookup).lowerBlock visible b = (mk m lookup').lowerBlock visible b := by
  simp only [lowerBlock, lowerAll_congr h hint]
  rfl

theorem lowerBlocks_congr {g : MethodGraph}
    (h : ∀ b ∈ g.blocks, ∀ i ∈ b.instructions, AgreeOn lookup lookup' i)
    (hint : lookup .int32 = lookup' .int32) (cuts : List (Nat × List Nat)) (order : List Nat)
    (written : List (List Block)) :
    (mk m lookup).lowerBlocks g cuts order written =
      (mk m lookup').lowerBlocks g cuts order written := by
  induction order generalizing written with
  | nil => rfl
  | cons n order ih =>
      unfold lowerBlocks
      cases hb : g.blocks[n]? with
      | none => rfl
      | some b =>
          simp only [lowerBlock_congr (h b (List.mem_of_getElem? hb)) hint, ih]

theorem lowerEntry_congr (h : ∀ t ∈ m.parameterSlots, lookup t = lookup' t) :
    (mk m lookup).lowerEntry = (mk m lookup').lowerEntry := by
  have hvariable : ∀ v ∈ parameterVariables m, lookup v.type = lookup' v.type := by
    intro v hv
    obtain ⟨⟨type, index⟩, hmem, rfl⟩ := List.mem_map.1 hv
    exact h type (List.fst_mem_of_mem_zipIdx hmem)
  refine congrArg (· >>= _) (mapM_congr_of_mem fun v hv => ?_)
  simp only [declare, hvariable v (List.mem_of_mem_take hv)]
  rfl

end Congruence

end Lowering

theorem MethodGraph.mem_mentionedTypes {g : MethodGraph} {t : TypeRef} : t ∈ g.mentionedTypes ↔
    t ∈ g.method.parameterSlots ∨ (∃ b ∈ g.blocks, ∃ i ∈ b.instructions,
      (∃ v ∈ i.variables, v.type = t) ∨ t ∈ i.namedTypes) ∨ t = .int32 := by
  simp only [mentionedTypes, List.mem_eraseDups, List.mem_append, List.mem_flatMap, List.mem_map,
    List.mem_singleton, or_assoc]

/-- **Only mentioned types matter**: sources with the same sentences for these give the same form,
or the same error. -/
theorem Form.ofGraph_congr {lookup lookup' : SentenceLookup} {g : MethodGraph}
    (h : ∀ t ∈ g.mentionedTypes, lookup t = lookup' t) :
    Form.ofGraph lookup g = Form.ofGraph lookup' g := by
  have hint : lookup .int32 = lookup' .int32 :=
    h _ (MethodGraph.mem_mentionedTypes.2 (Or.inr (Or.inr rfl)))
  have hentry : (Lowering.mk g.method lookup).lowerEntry =
      (Lowering.mk g.method lookup').lowerEntry :=
    Lowering.lowerEntry_congr fun t ht => h t (MethodGraph.mem_mentionedTypes.2 (Or.inl ht))
  have hagree : ∀ b ∈ g.blocks, ∀ i ∈ b.instructions, Lowering.AgreeOn lookup lookup' i :=
    fun b hb i hi v hv => h _ (MethodGraph.mem_mentionedTypes.2
      (Or.inr (Or.inl ⟨b, hb, i, hi, Or.inl ⟨v, hv, rfl⟩⟩)))
  have hblocks := fun cuts order written =>
    Lowering.lowerBlocks_congr (m := g.method) hagree hint cuts order written
  simp only [Form.ofGraph, hentry, hblocks]

/-! ## what a form refers to -/

/-- A statement that needs only some types and runs only some methods. -/
structure Statement.Names (types : List TypeRef) (methods : List MethodRef) (s : Statement) :
    Prop where
  types : s.types ⊆ types
  methods : s.methods ⊆ methods

theorem Statement.Names.inGroup {types : List TypeRef} {methods : List MethodRef} {s : Statement}
    (h : s.Names types methods) (group : Nat) : (s.inGroup group).Names types methods :=
  ⟨h.types, h.methods⟩

namespace Lowering

open MethodGraph (Instruction)

variable {c : Lowering} {i : Instruction} {types : List TypeRef} {methods : List MethodRef}

/-- **Instructions** need only types that they mention, and run only methods that they name. -/
theorem names_lower (hvariables : ∀ v ∈ i.variables, v.type ∈ types)
    (hnamed : i.namedTypes ⊆ types) (hcallee : ∀ m ∈ i.callee?, m ∈ methods) {l : Lowered}
    (h : c.lower i = .ok l) : ∀ s ∈ l.statements, s.Names types methods := by
  intro st hst
  have hemits := emits_lower h st hst
  refine ⟨fun t ht => ?_, fun m hm => ?_⟩
  · obtain ⟨v, hv, rfl⟩ | ht := hemits.types t ht
    · exact hvariables v hv
    · exact hnamed ht
  · rw [hemits.methods, Option.mem_toList] at hm
    exact hcallee m (hemits.performs.callee m hm)

theorem Declares.names {vs : List Variable} {p : Placed} (h : c.Declares vs p)
    (hvs : ∀ v ∈ vs, v.type ∈ types) : p.statement.Names types methods := by
  obtain ⟨v, hv, offset, s, -, hst⟩ := h
  rw [hst]
  exact ⟨List.cons_subset.2 ⟨hvs v hv, List.nil_subset _⟩, List.nil_subset _⟩

end Lowering

/-- The methods that the instructions of a graph run. -/
def MethodGraph.callees (g : MethodGraph) : List MethodRef :=
  g.blocks.flatMap fun b => b.instructions.filterMap MethodGraph.Instruction.callee?

theorem Program.mem_methodReach {p : Program} {m : MethodRef} :
    m ∈ p.methodReach ↔ ∃ g ∈ p.methods.values, m ∈ g.callees := by
  exact List.mem_flatMap

namespace Form

variable {lookup : SentenceLookup} {g : MethodGraph} {f : Form}

theorem names_of_ofGraph (h : Form.ofGraph lookup g = .ok f) :
    ∀ p ∈ f.statements, p.statement.Names g.mentionedTypes g.callees := by
  refine forall_statements_of_ofGraph (fun st k hst => hst.inGroup k) (fun p hp => ?_)
    (fun b hb i hi => ?_) h
  · refine hp.names fun v hv => MethodGraph.mem_mentionedTypes.2 (Or.inl ?_)
    obtain ⟨⟨type, index⟩, hmem, rfl⟩ := List.mem_map.1 hv
    exact List.fst_mem_of_mem_zipIdx hmem
  · have hvariables : ∀ v ∈ i.variables, v.type ∈ g.mentionedTypes := fun v hv =>
      MethodGraph.mem_mentionedTypes.2 (Or.inr (Or.inl ⟨b, hb, i, hi, Or.inl ⟨v, hv, rfl⟩⟩))
    have hnamed : i.namedTypes ⊆ g.mentionedTypes := fun t ht =>
      MethodGraph.mem_mentionedTypes.2 (Or.inr (Or.inl ⟨b, hb, i, hi, Or.inr ht⟩))
    have hcallee : ∀ m ∈ i.callee?, m ∈ g.callees := fun m hm =>
      List.mem_flatMap.2 ⟨b, hb, List.mem_filterMap.2 ⟨i, hi, hm⟩⟩
    exact ⟨fun p hp => hp.names hvariables,
      fun l hl => Lowering.names_lower hvariables hnamed hcallee hl⟩

/-- A form refers only to types that its graph mentions. -/
theorem referencedTypes_subset (h : Form.ofGraph lookup g = .ok f) :
    f.referencedTypes ⊆ g.mentionedTypes := by
  intro t ht
  obtain ⟨p, hp, ht⟩ := List.mem_flatMap.1 (List.mem_eraseDups.1 ht)
  exact (names_of_ofGraph h p hp).types ht

/-- A form runs only methods that the instructions of its graph name. -/
theorem referencedMethods_subset (h : Form.ofGraph lookup g = .ok f) :
    f.referencedMethods ⊆ g.callees := by
  intro m hm
  obtain ⟨p, hp, hm⟩ := List.mem_flatMap.1 (List.mem_eraseDups.1 hm)
  exact (names_of_ofGraph h p (List.mem_filter.1 hp).1).methods hm

end Form

end Pathwise
