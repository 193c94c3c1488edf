import Pathwise.Proofs.Layout
import Pathwise.Resolution.Repository

/-!
# Pathwise.Proofs.Encoding

What the sentence of a type can look like. `Sentence.Encoded` lists the four
kinds, and every sentence that `encode` gives is one of them
(`Sentence.encoded_of_encode`); all other facts about sentences of encoded types
follow from it.
-/

namespace Pathwise

/-- A type whose values are references. -/
def TypeRef.IsReference (t : TypeRef) : Prop := t ≠ .bool ∧ t ≠ .int32 ∧ t ≠ .float64

/-- Neither a scalar nor an array. -/
def TypeRef.HasDatatype (t : TypeRef) : Prop := t.IsReference ∧ ∀ e, t ≠ .array e

theorem TypeRef.innermost_ne_array (t e : TypeRef) : t.innermost ≠ .array e := by
  fun_induction innermost t with
  | case1 t ih => exact ih
  | case2 t hne => exact hne e

theorem TypeRef.HasDatatype.innermost {t : TypeRef} (h : t.HasDatatype) : t.innermost = t := by
  cases t with
  | builtin kind => rfl
  | array e => exact absurd rfl (h.2 e)
  | named space name arguments => rfl

theorem TypeRef.ne_array_self (e : TypeRef) : e ≠ .array e := by
  intro h
  have hsize := congrArg sizeOf h
  rw [TypeRef.array.sizeOf_spec] at hsize
  omega

namespace Sentence

/-- The kinds of sentences. -/
inductive Encoded : Sentence → Prop where
  | scalar {t : TypeRef} {shape : Shape} (ht : ¬t.IsReference)
      (hshape : shape = .bool ∨ shape = .int ∨ shape = .real) : Encoded (.scalar t shape)
  | array (e : TypeRef) : Encoded (.reference (.array e) (.array e) (some .object) [e])
  | plain {t : TypeRef} {shape : Shape} (base : Option TypeRef) (ht : t.HasDatatype)
      (hshape : shape = .str ∨ shape = .object ∨ shape = .exceptionBase) :
      Encoded (.reference t shape base [])
  | composite {t : TypeRef} (fields : List FieldAccessor) (isValueType : Bool)
      (base : Option TypeRef) (ht : t.HasDatatype) :
      Encoded (.reference t (.composite fields isValueType) base (fields.map (·.type)))

variable {exceptionBase : Option TypeRef} {p : Program} {t : TypeRef} {s : Sentence}

/-- **What the sentence of a type is**: a type of the program has the fields of its definition,
unless it is the base of all exceptions. -/
theorem encode_cases (h : encode exceptionBase p t = .ok s) :
    (∃ shape, (t = .bool ∧ shape = .bool ∨ t = .int32 ∧ shape = .int ∨
      t = .float64 ∧ shape = .real) ∧ s = .scalar t shape) ∨
    (t = .string ∧ s = .reference t .str (some .object) []) ∨
    (t = .object ∧ s = .reference t .object none []) ∨
    (∃ e, t = .array e ∧ s = .reference t (.array e) (some .object) [e]) ∨
    ∃ space name arguments d, t = .named space name arguments ∧ p.typeDef? t = some d ∧
      ((exceptionBase = some t ∧ ∃ base, s = .reference t .exceptionBase base []) ∨
        (exceptionBase ≠ some t ∧ ∃ fields isValueType base,
          d.instanceFields.mapM (fieldAccessor t) = .ok fields ∧
          s = .reference t (.composite fields isValueType) base (fields.map (·.type)))) := by
  unfold encode at h
  split at h
  · obtain rfl := Except.ok.inj h
    exact Or.inl ⟨.bool, by simp⟩
  · obtain rfl := Except.ok.inj h
    exact Or.inl ⟨.int, by simp⟩
  · obtain rfl := Except.ok.inj h
    exact Or.inl ⟨.real, by simp⟩
  · obtain rfl := Except.ok.inj h
    exact Or.inr (Or.inl ⟨rfl, rfl⟩)
  · obtain rfl := Except.ok.inj h
    exact Or.inr (Or.inr (Or.inl ⟨rfl, rfl⟩))
  · contradiction
  · next e =>
      split at h
      · contradiction
      · obtain rfl := Except.ok.inj h
        exact Or.inr (Or.inr (Or.inr (Or.inl ⟨e, rfl, rfl⟩)))
  · next space name arguments =>
      refine Or.inr (Or.inr (Or.inr (Or.inr ⟨space, name, arguments, ?_⟩)))
      split at h
      · contradiction
      · next d hd =>
          refine ⟨d, rfl, hd, ?_⟩
          unfold ofDef at h
          split at h
          · next hbase =>
              obtain rfl := Except.ok.inj h
              exact Or.inl ⟨hbase, _, rfl⟩
          · next hne =>
              simp only [bind_eq_ok, pure_eq_ok] at h
              obtain ⟨fields, hfields, rfl⟩ := h
              exact Or.inr ⟨hne, fields, _, _, hfields, rfl⟩

theorem encoded_of_encode (h : encode exceptionBase p t = .ok s) : s.type = t ∧ s.Encoded := by
  obtain ⟨shape, hscalar, rfl⟩ | ⟨rfl, rfl⟩ | ⟨rfl, rfl⟩ | ⟨e, rfl, rfl⟩ |
    ⟨space, name, arguments, d, rfl, -, ⟨-, base, rfl⟩ | ⟨-, fields, isValueType, base, -, rfl⟩⟩ :=
    encode_cases h
  · obtain ⟨rfl, rfl⟩ | ⟨rfl, rfl⟩ | ⟨rfl, rfl⟩ := hscalar <;>
      exact ⟨rfl, .scalar (by simp [TypeRef.IsReference]) (by simp)⟩
  · exact ⟨rfl, .plain _ (by simp [TypeRef.HasDatatype, TypeRef.IsReference]) (by simp)⟩
  · exact ⟨rfl, .plain _ (by simp [TypeRef.HasDatatype, TypeRef.IsReference]) (by simp)⟩
  · exact ⟨rfl, .array e⟩
  · exact ⟨rfl, .plain _ (by simp [TypeRef.HasDatatype, TypeRef.IsReference]) (by simp)⟩
  · exact ⟨rfl, .composite fields _ _ (by simp [TypeRef.HasDatatype, TypeRef.IsReference])⟩

theorem fieldAccessor_eq_ok {owner : TypeRef} {d : FieldDef} {f : FieldAccessor}
    (h : fieldAccessor owner d = .ok f) :
    d.type.isVoid = false ∧
      f = ⟨d.name, d.type, .ofField owner.symbol d.name d.type.sort⟩ := by
  unfold fieldAccessor at h
  split at h
  · contradiction
  · next hvoid => exact ⟨by simpa using hvoid, (Except.ok.inj h).symm⟩

/-- A composite sentence has the accessors of the fields that its type defines. -/
theorem composite_of_encode (h : encode exceptionBase p t = .ok s) {fields : List FieldAccessor}
    {isValueType : Bool} (hshape : s.shape = .composite fields isValueType) :
    exceptionBase ≠ some t ∧ ∃ d, p.typeDef? t = some d ∧
      d.instanceFields.mapM (fieldAccessor t) = .ok fields := by
  obtain ⟨shape, ⟨-, rfl⟩ | ⟨-, rfl⟩ | ⟨-, rfl⟩, rfl⟩ | ⟨-, rfl⟩ | ⟨-, rfl⟩ | ⟨e, -, rfl⟩ |
    ⟨space, name, arguments, d, -, hd, ⟨-, base, rfl⟩ | ⟨hne, accessors, flag, base, hm, rfl⟩⟩ :=
    encode_cases h
  case inr.inr.inr.inr.inr =>
    obtain ⟨rfl, -⟩ := Shape.composite.inj hshape
    exact ⟨hne, d, hd, hm⟩
  all_goals contradiction

/-- A sentence is filed under its own type. -/
theorem type_of_encode (h : encode exceptionBase p t = .ok s) : s.type = t :=
  (encoded_of_encode h).1

theorem mem_dependencies_reference {shape : Shape} {base : Option TypeRef}
    {mentioned : List TypeRef} {u : TypeRef} :
    u ∈ (reference t shape base mentioned).dependencies ↔
      u ∈ mentioned ∧ u ≠ t ∨ base = some u := by
  unfold reference
  cases base with
  | none => simp [List.mem_eraseDups]
  | some b =>
      simp only [Option.some.injEq]
      split
      · next hb =>
          simp only [List.mem_eraseDups, List.mem_filter, decide_eq_true_eq] at hb ⊢
          constructor
          · exact Or.inl
          · rintro (hu | rfl)
            · exact hu
            · exact hb
      · simp only [List.mem_append, List.mem_eraseDups, List.mem_filter, decide_eq_true_eq,
          List.mem_singleton, eq_comm (a := b)]

namespace Encoded

theorem isReference_iff (h : s.Encoded) : s.isReference = true ↔ s.type.IsReference := by
  cases h with
  | scalar ht hshape =>
      obtain rfl | rfl | rfl := hshape <;> simpa [Sentence.scalar, isReference] using ht
  | array e => simp [reference, isReference, TypeRef.IsReference]
  | plain base ht hshape =>
      obtain rfl | rfl | rfl := hshape <;> simpa [reference, isReference] using ht.1
  | composite fields isValueType base ht => simpa [reference, isReference] using ht.1

theorem isArray_iff (h : s.Encoded) : s.isArray = true ↔ ∃ e, s.type = .array e := by
  cases h with
  | @scalar t shape ht hshape =>
      have hne : ∀ e, t ≠ .array e := by
        rintro e rfl
        exact ht (by simp [TypeRef.IsReference])
      obtain rfl | rfl | rfl := hshape <;> simpa [Sentence.scalar, isArray] using hne
  | array e => simp [reference, isArray]
  | plain base ht hshape =>
      obtain rfl | rfl | rfl := hshape <;> simpa [reference, isArray] using ht.2
  | composite fields isValueType base ht => simpa [reference, isArray] using ht.2

theorem hasDatatype_iff (h : s.Encoded) : s.hasDatatype = true ↔ s.type.HasDatatype := by
  have harray : s.isArray = false ↔ ∀ e, s.type ≠ .array e := by
    rw [← Bool.not_eq_true, h.isArray_iff, not_exists]
  rw [hasDatatype, Bool.and_eq_true, Bool.not_eq_true', h.isReference_iff, harray]
  rfl

/-- The base of a type is a dependency. -/
theorem base_mem (h : s.Encoded) {b : TypeRef} (hb : s.base = some b) : b ∈ s.dependencies := by
  cases h with
  | scalar ht hshape => contradiction
  | array e => exact mem_dependencies_reference.2 (Or.inr hb)
  | plain base ht hshape => exact mem_dependencies_reference.2 (Or.inr hb)
  | composite fields isValueType base ht => exact mem_dependencies_reference.2 (Or.inr hb)

/-- Scalars have no base and refer to nothing. -/
theorem isReference_of_mem_precursors (h : s.Encoded) {u : TypeRef}
    (hu : u ∈ TypeRepository.precursors s) : s.isReference = true := by
  cases h with
  | scalar ht hshape =>
      obtain rfl | rfl | rfl := hshape <;>
        simp [TypeRepository.precursors, references, Sentence.scalar] at hu
  | array e => rfl
  | plain base ht hshape => obtain rfl | rfl | rfl := hshape <;> rfl
  | composite fields isValueType base ht => rfl

/-- A type that a declaration names is a dependency, below its array brackets. -/
theorem exists_dependency (h : s.Encoded) {u : TypeRef} (hu : u ∈ s.references) :
    u ≠ s.type ∧ ∃ d ∈ s.dependencies, u = d ∨ u = d.innermost := by
  cases h with
  | scalar ht hshape => obtain rfl | rfl | rfl := hshape <;> contradiction
  | array e =>
      obtain rfl := List.mem_singleton.1 hu
      refine ⟨u.ne_array_self, u, mem_dependencies_reference.2 (Or.inl ?_), Or.inl rfl⟩
      exact ⟨List.mem_singleton.2 rfl, u.ne_array_self⟩
  | plain base ht hshape => obtain rfl | rfl | rfl := hshape <;> contradiction
  | @composite t fields isValueType base ht =>
      simp only [references, reference, List.mem_eraseDups, List.mem_filter, List.mem_map,
        decide_eq_true_eq] at hu
      obtain ⟨⟨f, hf, rfl⟩, hne⟩ := hu
      refine ⟨hne, f.type, mem_dependencies_reference.2 (Or.inl ⟨List.mem_map_of_mem hf, ?_⟩),
        Or.inr rfl⟩
      rintro rfl
      exact hne ht.innermost

/-- Only an array of arrays names an array. -/
theorem type_of_array_mem_references (h : s.Encoded) {e : TypeRef} (he : .array e ∈ s.references) :
    s.type = .array (.array e) := by
  cases h with
  | scalar ht hshape => obtain rfl | rfl | rfl := hshape <;> contradiction
  | array e' => rw [List.mem_singleton.1 he]; rfl
  | plain base ht hshape => obtain rfl | rfl | rfl := hshape <;> contradiction
  | composite fields isValueType base ht =>
      simp only [references, reference, List.mem_eraseDups, List.mem_filter, List.mem_map] at he
      obtain ⟨⟨f, -, hinner⟩, -⟩ := he
      exact absurd hinner (f.type.innermost_ne_array e)

end Encoded

end Sentence

end Pathwise
