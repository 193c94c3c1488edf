import Mathlib.Logic.Relation
import Pathwise.ConstantTable
import Pathwise.Proofs.Scalar.Reading
import Pathwise.Proofs.Wording.Solid

/-!
# Pathwise.Proofs.Readback.Value

Values of a program's types, and the terms that stand for them. Which values a type
has follows from the definitions of the program (`Value.Conforms`). A term is built
from the constructors that the sentences of the types declare (`Value.WrittenAs`);
the elements of an array may be grouped in any way (`Sexp.Flattens`).

Every value of a type can be written if the types it can hold have sentences
(`Value.Conforms.exists_writtenAs`), and its terms can be read
(`Value.WrittenAs.solid`).
-/

namespace Pathwise

open Relation (ReflTransGen)
open Sexp (IsAtom IsPlain Solid)

variable (p : Program) (exceptionBase : Option TypeRef)

/-! ## types that a value can hold -/

/-- The fields of a type's objects, in order. The base of all exceptions has identity only. -/
def Program.objectFields : TypeRef → List FieldDef
  | .named space name arguments =>
    if exceptionBase = some (.named space name arguments) then []
    else ((p.typeDef? (.named space name arguments)).map TypeDef.instanceFields).getD []
  | _ => []

/-- Values of one type hold values of another: as elements or in a field. -/
inductive Program.Holds : TypeRef → TypeRef → Prop where
  | element (e : TypeRef) : Holds (.array e) e
  | field {t : TypeRef} {f : FieldDef} (hf : f ∈ p.objectFields exceptionBase t) : Holds t f.type

/-- All types with a datatype that values of a type can hold have a property. -/
def Program.Throughout (Q : TypeRef → Prop) (t : TypeRef) : Prop :=
  ∀ u, ReflTransGen (p.Holds exceptionBase) t u → u.HasDatatype → Q u

variable {p exceptionBase}

namespace Program.Throughout

variable {Q Q' : TypeRef → Prop} {t u : TypeRef}

theorem self (h : p.Throughout exceptionBase Q t) (ht : t.HasDatatype) : Q t := h t .refl ht

theorem held (h : p.Throughout exceptionBase Q t) (hu : p.Holds exceptionBase t u) :
    p.Throughout exceptionBase Q u := fun w hw => h w (.head hu hw)

theorem imp (h : p.Throughout exceptionBase Q t) (hQ : ∀ u, Q u → Q' u) :
    p.Throughout exceptionBase Q' t := fun u hu ht => hQ u (h u hu ht)

end Program.Throughout

namespace Sentence

variable {t : TypeRef} {s : Sentence}

/-- A sentence has the fields of the objects, each with the accessor that is named for it. -/
theorem fields_of_encode (h : encode exceptionBase p t = .ok s) :
    s.fields = (p.objectFields exceptionBase t).map fun d =>
      ⟨d.name, d.type, .ofField t.symbol d.name d.type.sort⟩ := by
  obtain ⟨shape, ⟨rfl, rfl⟩ | ⟨rfl, rfl⟩ | ⟨rfl, rfl⟩, rfl⟩ | ⟨rfl, rfl⟩ | ⟨rfl, rfl⟩ |
    ⟨e, rfl, rfl⟩ |
    ⟨space, name, arguments, d, rfl, hd,
      ⟨hbase, base, rfl⟩ | ⟨hne, accessors, flag, base, hm, rfl⟩⟩ :=
    encode_cases h
  case inr.inr.inr.inr.inl =>
    rw [Program.objectFields, if_pos hbase]
    rfl
  case inr.inr.inr.inr.inr =>
    rw [Program.objectFields, if_neg hne, hd]
    exact eq_map_of_mapM_eq_ok (fun d f hf => (fieldAccessor_eq_ok hf).2) hm
  all_goals rfl

/-- Only the accessor of a text stands for no field. -/
theorem length_fieldAccessors_of_encode (h : encode exceptionBase p t = .ok s)
    (ht : t ≠ .string) : s.fieldAccessors.length = s.fields.length := by
  obtain ⟨shape, ⟨-, rfl⟩ | ⟨-, rfl⟩ | ⟨-, rfl⟩, rfl⟩ | ⟨hstring, -⟩ | ⟨-, rfl⟩ | ⟨e, -, rfl⟩ |
    ⟨space, name, arguments, d, -, -, ⟨-, base, rfl⟩ | ⟨-, accessors, flag, base, -, rfl⟩⟩ :=
    encode_cases h
  case inr.inl => exact absurd hstring ht
  case inr.inr.inr.inr.inr => exact List.length_map _
  all_goals rfl

theorem ne_void_of_encode (h : encode exceptionBase p t = .ok s) : t ≠ .void := by
  rintro rfl
  contradiction

/-- The types of references have sentences if those with datatypes have. -/
theorem exists_encode_of_throughout
    (h : p.Throughout exceptionBase (fun u => ∃ s, encode exceptionBase p u = .ok s) t)
    (ht : t.IsReference) : ∃ s, encode exceptionBase p t = .ok s := by
  by_cases harray : ∃ e, t = .array e
  · obtain ⟨e, rfl⟩ := harray
    by_cases hvoid : e = .void
    · subst hvoid
      have hdatatype : TypeRef.void.HasDatatype := by
        simp [TypeRef.HasDatatype, TypeRef.IsReference]
      obtain ⟨s, hs⟩ := (h.held (.element .void)).self hdatatype
      contradiction
    · exact ⟨_, if_neg (by simpa [TypeRef.isVoid] using hvoid)⟩
  · exact h.self ⟨ht, fun e he => harray ⟨e, he⟩⟩

theorem constructor?_of_encode (h : encode exceptionBase p t = .ok s) (ht : t.HasDatatype) :
    s.constructor? = some (.object s.name s.fieldAccessors) := by
  obtain ⟨rfl, hencoded⟩ := encoded_of_encode h
  exact if_pos (hencoded.hasDatatype_iff.2 ht)

theorem exists_null?_of_encode (h : encode exceptionBase p t = .ok s) (ht : t.IsReference) :
    ∃ e, s.null? = some e := by
  obtain ⟨rfl, hencoded⟩ := encoded_of_encode h
  cases hencoded with
  | scalar hscalar hshape => exact absurd ht hscalar
  | array e => exact ⟨_, rfl⟩
  | plain base ht hshape => obtain rfl | rfl | rfl := hshape <;> exact ⟨_, rfl⟩
  | composite fields isValueType base ht => exact ⟨_, rfl⟩

end Sentence

/-! ## terms of sequences -/

/-- A term of a sequence that has, one by one, the given elements. -/
inductive Sexp.Flattens : Sexp → List Sexp → Prop where
  | empty {sort : Sexp} (h : sort.Clean) : Flattens (.app "as" [.atom "seq.empty", sort]) []
  | unit (e : Sexp) : Flattens (.app "seq.unit" [e]) [e]
  | concat {parts : List (Sexp × List Sexp)} (h : ∀ q ∈ parts, Flattens q.1 q.2) :
      Flattens (.app "seq.++" (parts.map (·.1))) (parts.map (·.2)).flatten

theorem Sexp.Flattens.solid {contents : Sexp} {terms : List Sexp} (h : contents.Flattens terms)
    (hterms : ∀ e ∈ terms, e.Solid) : contents.Solid := by
  induction h with
  | @empty sort hsort =>
      have hempty : (Sexp.atom "seq.empty").Clean := (by decide : IsPlain "seq.empty")
      exact solid_app (by decide) (by simpa using ⟨hempty, hsort⟩)
  | unit e =>
      have he : e.Solid := hterms e (List.mem_singleton_self e)
      exact solid_app (by decide) (by simpa using he.1)
  | @concat parts h ih =>
      refine solid_app (by decide) (List.forall_mem_map.2 fun q hq => ?_)
      exact (ih q hq fun e he => hterms e
        (List.mem_flatten.2 ⟨q.2, List.mem_map_of_mem hq, he⟩)).1

theorem Sexp.Flattens.append {a b : Sexp} {terms terms' : List Sexp} (ha : a.Flattens terms)
    (hb : b.Flattens terms') : (app "seq.++" [a, b]).Flattens (terms ++ terms') := by
  have hparts : ∀ q ∈ [(a, terms), (b, terms')], q.1.Flattens q.2 := by simpa using ⟨ha, hb⟩
  have hconcat := Flattens.concat hparts
  simp only [List.map_cons, List.map_nil, List.flatten_cons, List.flatten_nil,
    List.append_nil] at hconcat
  exact hconcat

/-- Elements can be written one behind the other. -/
theorem Sexp.exists_flattens (element : TypeRef) (terms : List Sexp) :
    ∃ contents : Sexp, contents.Flattens terms := by
  have hsort : (app "Seq" [element.sort]).Clean :=
    clean_app (by decide) (by simpa using element.clean_sort)
  induction terms with
  | nil => exact ⟨_, .empty hsort⟩
  | cons e terms ih =>
      obtain ⟨contents, hcontents⟩ := ih
      exact ⟨_, .append (.unit e) hcontents⟩

/-! ## values and their terms -/

namespace Value

variable (p exceptionBase)

/-- The values of a type, with runtime types that are registered. -/
inductive Conforms (registered : TypeRef → Prop) : TypeRef → Value → Prop where
  | bool (b : Bool) : Conforms registered .bool (.bool b)
  | int {i : Int} (hi : Number.IsInt64 i) : Conforms registered .int32 (.int i)
  | null {t : TypeRef} (ht : t.IsReference) : Conforms registered t (.null t)
  | string {runtimeType : TypeRef} {pointer : Int} (hr : registered runtimeType)
      (hp : Number.IsInt64 pointer) (text : String) :
      Conforms registered .string (.record .string runtimeType pointer [("value", .text text)])
  | object {t runtimeType : TypeRef} {pointer : Int} {fields : List (String × Value)}
      (ht : t.HasDatatype) (hstring : t ≠ .string) (hr : registered runtimeType)
      (hp : Number.IsInt64 pointer)
      (hnames : fields.map (·.1) = (p.objectFields exceptionBase t).map (·.name))
      (hfields : ∀ q ∈ (p.objectFields exceptionBase t).zip fields,
        Conforms registered q.1.type q.2.2) :
      Conforms registered t (.record t runtimeType pointer fields)
  | array {e : TypeRef} {pointer : Int} {elements : List Value} (hp : Number.IsInt64 pointer)
      (helements : ∀ v ∈ elements, Conforms registered e v) :
      Conforms registered (.array e) (.array (.array e) pointer elements)

/-- The terms that stand for a value of a type. Those of objects apply the constructor of the
type's sentence; the tag of an array does not matter. -/
inductive WrittenAs : TypeRef → Value → Sexp → Prop where
  | bool (b : Bool) : WrittenAs .bool (.bool b) (.atom (toString b))
  | int (i : Int) : WrittenAs .int32 (.int i) (.int i)
  | null {t : TypeRef} {s : Sentence} {e : Sexp} (hs : Sentence.encode exceptionBase p t = .ok s)
      (he : s.null? = some e) : WrittenAs t (.null t) e
  | string {s : Sentence} {c : Constructor} (hs : Sentence.encode exceptionBase p .string = .ok s)
      (hc : s.constructor? = some c) (runtimeType : TypeRef) (pointer : Int) (text : String) :
      WrittenAs .string (.record .string runtimeType pointer [("value", .text text)])
        (.app c.name [.int pointer, .atom runtimeType.tag, .quoted text])
  | object {t : TypeRef} {s : Sentence} {c : Constructor}
      (hs : Sentence.encode exceptionBase p t = .ok s) (hc : s.constructor? = some c)
      (runtimeType : TypeRef) (pointer : Int) {fields : List (String × Value)} {terms : List Sexp}
      (hlength : fields.length = s.fields.length) (hterms : terms.length = s.fields.length)
      (hfields : ∀ q ∈ (s.fields.zip fields).zip terms, WrittenAs q.1.1.type q.1.2.2 q.2) :
      WrittenAs t (.record t runtimeType pointer fields)
        (.app c.name (.int pointer :: .atom runtimeType.tag :: terms))
  | array {e : TypeRef} (pointer : Int) {elements : List Value} {tag contents : Sexp}
      {terms : List Sexp} (htag : tag.Solid) (hcontents : contents.Flattens terms)
      (hlength : terms.length = elements.length)
      (helements : ∀ q ∈ elements.zip terms, WrittenAs e q.1 q.2) :
      WrittenAs (.array e) (.array (.array e) pointer elements)
        (.app SeqArray.ctor [.int pointer, tag, contents])

variable {p exceptionBase} {t : TypeRef} {v : Value} {e : Sexp}

theorem isAtom_constructor {s : Sentence} {c : Constructor} (hc : s.constructor? = some c) :
    IsAtom c.name := by
  obtain ⟨-, rfl⟩ := Option.ite_some_none_eq_some.1 hc
  exact Sexp.isAtom_append s.type.isPlain_symbol (by decide)

theorem solid_int (i : Int) : (Sexp.int i).Solid :=
  ⟨Sexp.clean_of_readable (Sexp.readable_int i), Sexp.ne_gap_of_readable (Sexp.readable_int i)⟩

/-- If pairs cover a list, what holds of all pairs holds of the list. -/
theorem forall_mem_of_zip {α β : Type} {l : List α} {l' : List β} {Q : β → Prop}
    (hlength : l'.length = l.length) (h : ∀ q ∈ l.zip l', Q q.2) : ∀ b ∈ l', Q b := by
  have hsnd : (l.zip l').map Prod.snd = l' := List.map_snd_zip hlength.le
  rw [← hsnd]
  exact List.forall_mem_map.2 h

theorem WrittenAs.solid (h : WrittenAs p exceptionBase t v e) : e.Solid := by
  induction h with
  | bool b => cases b <;> exact Sexp.solid_atom (by decide)
  | int i => exact solid_int i
  | null hs he => exact Sentence.solid_null? he
  | string hs hc runtimeType pointer text =>
      have htag : (Sexp.atom runtimeType.tag).Clean := runtimeType.isAtom_tag.2
      refine Sexp.solid_app (isAtom_constructor hc).2 ?_
      simpa using ⟨(solid_int pointer).1, htag, trivial⟩
  | @object t s c hs hc runtimeType pointer fields terms hlength hterms _ ih =>
      have htag : (Sexp.atom runtimeType.tag).Clean := runtimeType.isAtom_tag.2
      refine Sexp.solid_app (isAtom_constructor hc).2 ?_
      simp only [List.forall_mem_cons]
      refine ⟨(solid_int pointer).1, htag, fun a ha => ?_⟩
      exact (forall_mem_of_zip (by simp [hlength, hterms]) ih a ha).1
  | @array e pointer elements tag contents terms htag hcontents hlength _ ih =>
      have hterms := forall_mem_of_zip hlength ih
      refine Sexp.solid_app (by decide) ?_
      simpa using ⟨(solid_int pointer).1, htag.1, (hcontents.solid hterms).1⟩

/-- Choose a term for each member of a list. -/
theorem exists_terms {α : Type} {Q : α → Sexp → Prop} {l : List α} (h : ∀ a ∈ l, ∃ e, Q a e) :
    ∃ terms : List Sexp, terms.length = l.length ∧ ∀ q ∈ l.zip terms, Q q.1 q.2 := by
  induction l with
  | nil => exact ⟨[], rfl, by simp⟩
  | cons a l ih =>
      rw [List.forall_mem_cons] at h
      obtain ⟨e, he⟩ := h.1
      obtain ⟨terms, hlength, hterms⟩ := ih h.2
      refine ⟨e :: terms, by simp [hlength], ?_⟩
      rw [List.zip_cons_cons, List.forall_mem_cons]
      exact ⟨he, hterms⟩

/-- **Values can be written**, if all types with datatypes that they can hold have sentences. -/
theorem Conforms.exists_writtenAs {registered : TypeRef → Prop}
    (h : Conforms p exceptionBase registered t v)
    (ht : p.Throughout exceptionBase (fun u => ∃ s, Sentence.encode exceptionBase p u = .ok s) t) :
    ∃ e, WrittenAs p exceptionBase t v e := by
  induction h with
  | bool b => exact ⟨_, .bool b⟩
  | @int i hi => exact ⟨_, .int i⟩
  | null hreference =>
      obtain ⟨s, hs⟩ := Sentence.exists_encode_of_throughout ht hreference
      obtain ⟨e, he⟩ := Sentence.exists_null?_of_encode hs hreference
      exact ⟨e, .null hs he⟩
  | @string runtimeType pointer hr hp text =>
      exact ⟨_, .string rfl rfl runtimeType pointer text⟩
  | @object t runtimeType pointer fields hdatatype _ _ _ hnames _ ih =>
      obtain ⟨s, hs⟩ := ht.self hdatatype
      have hc := Sentence.constructor?_of_encode hs hdatatype
      have hfields := Sentence.fields_of_encode hs
      have hlength : fields.length = s.fields.length := by
        simpa [hfields] using congrArg List.length hnames
      have hterm : ∀ q ∈ s.fields.zip fields, ∃ e, WrittenAs p exceptionBase q.1.type q.2.2 e := by
        rw [hfields, List.zip_map_left]
        refine List.forall_mem_map.2 fun q hq => ih q hq (ht.held (.field ?_))
        exact (List.of_mem_zip hq).1
      obtain ⟨terms, hterms, hwritten⟩ := exists_terms hterm
      exact ⟨_, .object hs hc runtimeType pointer hlength (by simp [hterms, hlength]) hwritten⟩
  | @array e pointer elements hp _ ih =>
      obtain ⟨terms, hterms, hwritten⟩ := exists_terms fun v hv => ih v hv (ht.held (.element e))
      obtain ⟨contents, hcontents⟩ := Sexp.exists_flattens e terms
      have htag : (Sexp.atom e.tag).Solid := Sexp.solid_atom e.isAtom_tag
      exact ⟨_, .array pointer htag hcontents hterms hwritten⟩

end Value

end Pathwise
