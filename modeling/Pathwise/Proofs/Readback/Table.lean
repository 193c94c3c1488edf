import Pathwise.Proofs.Readback.Integer
import Pathwise.Proofs.Readback.Value

/-!
# Pathwise.Proofs.Readback.Table

Tables read values back from their terms (`ConstantTable.bind_of_writtenAs`). The
constructors in a term are checked against the registered sentences, which are those
that the term was built from; the tag of an object leads back to its runtime type,
since every tag in a table is that of a registered type (`Filled.exists_of_registered`).
-/

namespace Pathwise

namespace ConstantTable

open Sexp (IsAtom Solid)

variable {terms : List Sexp}

/-! ## tables -/

/-- Tables as they come about. Binding that fails changes nothing. -/
inductive Filled : ConstantTable → Prop where
  | empty : Filled .empty
  | register {t : ConstantTable} (h : Filled t) (s : Sentence) : Filled (t.register s)
  | declare {t : ConstantTable} (h : Filled t) (name : String) (type : TypeRef) :
      Filled (t.declare name type)
  | bind {t t' : ConstantTable} {name text : String} {v : Value} (h : Filled t)
      (hb : t.bind name text = .ok (v, t')) : Filled t'

/-- The table has a sentence for a type. -/
def Registered (t : ConstantTable) (u : TypeRef) : Prop := t.sentences.contains u = true

/-- No two registered types have the same tag. -/
def DistinctTags (t : ConstantTable) : Prop :=
  ∀ u w, t.Registered u → t.Registered w → u.tag = w.tag → u = w

/-- The registered sentence of a type is its encoding. -/
def Knows (t : ConstantTable) (p : Program) (exceptionBase : Option TypeRef) (u : TypeRef) : Prop :=
  ∃ s, t.sentences.find? u = some s ∧ Sentence.encode exceptionBase p u = .ok s

variable {t : ConstantTable}

/-- Binding reads the text at the declared type, and keeps the value. -/
theorem bind_eq_ok_iff {t' : ConstantTable} {name text : String} {v : Value} :
    t.bind name text = .ok (v, t') ↔
      ∃ type e, t.declared.find? name = some type ∧ Sexp.parse text = .ok e ∧
        t.readValue type e = .ok v ∧ t' = { t with values := t.values.set name v } := by
  unfold bind
  cases t.declared.find? name with
  | none => simp
  | some type =>
      cases Sexp.parse text with
      | error cause => simp
      | ok e =>
          simp only [Pathwise.bind_eq_ok, pure_eq_ok, Prod.mk.injEq]
          constructor
          · rintro ⟨value, hread, rfl, rfl⟩
            exact ⟨type, e, rfl, rfl, hread, rfl⟩
          · rintro ⟨_, _, hdeclared, hparse, hread, rfl⟩
            obtain rfl := Option.some.inj hdeclared
            obtain rfl := Except.ok.inj hparse
            exact ⟨v, hread, rfl, rfl⟩

/-- The tag of a registered type names a registered type. -/
theorem Filled.exists_of_registered (h : t.Filled) {u : TypeRef} (hu : t.Registered u) :
    ∃ w, t.tags.find? u.tag = some w ∧ t.Registered w ∧ w.tag = u.tag := by
  induction h with
  | empty => contradiction
  | @register t h s ih =>
      simp only [Registered, ConstantTable.register, Table.contains_set, Bool.or_eq_true,
        decide_eq_true_eq, Table.find?_set] at hu ⊢
      by_cases htag : s.tag = u.tag
      · exact ⟨s.type, if_pos htag, Or.inl rfl, htag⟩
      · have hne : s.type ≠ u := fun heq => htag (congrArg TypeRef.tag heq)
        obtain ⟨w, hw, hregistered, hwtag⟩ := ih (hu.resolve_left hne)
        exact ⟨w, by rw [if_neg htag, hw], Or.inr hregistered, hwtag⟩
  | declare h name type ih => exact ih hu
  | bind h hb ih =>
      obtain ⟨-, -, -, -, -, rfl⟩ := bind_eq_ok_iff.1 hb
      exact ih hu

theorem Filled.runtimeType_tag (h : t.Filled) (hd : t.DistinctTags) {u : TypeRef}
    (hu : t.Registered u) (type : TypeRef) : t.runtimeType type (.atom u.tag) = u := by
  obtain ⟨w, hw, hregistered, htag⟩ := h.exists_of_registered hu
  obtain rfl := hd w u hregistered hu htag
  simp [runtimeType, Sexp.atom?, hw]

/-! ## numbers -/

theorem readInt_int (type : TypeRef) {i : Int} (hi : Number.IsInt64 i) :
    readInt type (.int i) = .ok i := by
  unfold Sexp.int
  split
  · next hneg =>
      have hvalue : (i.natAbs : Int) = -i := by omega
      rw [Sexp.nat, readInt_neg_atom_eq_ok_iff, ← Number.readInt_eq_some_iff,
        Scalar.readInt_toString, hvalue]
      exact ⟨rfl, hi⟩
  · next hpos =>
      have hvalue : (i.toNat : Int) = i := by omega
      rw [Sexp.nat, readInt_atom_eq_ok_iff, ← Number.readInt_eq_some_iff, Scalar.readInt_toString,
        hvalue]
      exact ⟨rfl, hi⟩

/-! ## parts of a term -/

theorem readParts_of_forall {element : TypeRef} {parts : List (Sexp × List Sexp)}
    (h : ∀ q ∈ parts, t.readSequence element q.1.squeeze =
      q.2.mapM fun e => t.readValue element e.squeeze) :
    t.readParts element (parts.map (Sexp.squeeze ∘ Prod.fst)) =
      (parts.map (·.2)).flatten.mapM fun e => t.readValue element e.squeeze := by
  induction parts with
  | nil => rw [List.map_nil, readParts]; rfl
  | cons q parts ih =>
      rw [List.forall_mem_cons] at h
      rw [List.map_cons, List.map_cons, List.flatten_cons, readParts, List.mapM_append, ih h.2]
      exact congrArg (· >>= _) h.1

/-- A sequence is read element by element, however it is grouped. -/
theorem readSequence_squeeze {element : TypeRef} {contents : Sexp} (h : contents.Flattens terms)
    (hterms : ∀ e ∈ terms, e.Solid) :
    t.readSequence element contents.squeeze =
      terms.mapM fun e => t.readValue element e.squeeze := by
  induction h with
  | @empty sort hsort =>
      simp [Sexp.app, Sexp.squeeze, Sexp.squeezeAll, readSequence, pure, Except.pure]
  | unit e =>
      rw [Sexp.squeeze_app (by decide) hterms]
      simp [Sexp.app, readSequence]
  | @concat parts hparts ih =>
      have hsolid : ∀ q ∈ parts, ∀ e ∈ q.2, e.Solid := fun q hq e he =>
        hterms e (List.mem_flatten.2 ⟨q.2, List.mem_map_of_mem hq, he⟩)
      rw [Sexp.squeeze_app (by decide)
        (List.forall_mem_map.2 fun q hq => (hparts q hq).solid (hsolid q hq)), List.map_map]
      have hread : ∀ q ∈ parts, t.readSequence element q.1.squeeze =
          q.2.mapM fun e => t.readValue element e.squeeze := fun q hq => ih q hq (hsolid q hq)
      have hparts : t.readSequence element (.app "seq.++" (parts.map (Sexp.squeeze ∘ Prod.fst))) =
          t.readParts element (parts.map (Sexp.squeeze ∘ Prod.fst)) := by
        unfold Sexp.app readSequence
        rfl
      rw [hparts]
      exact readParts_of_forall hread

/-- The fields of an object are read in the order of the accessors. -/
theorem readFields_composite {type : TypeRef} {isValueType : Bool} {accessors : List FieldAccessor}
    {fields : List (String × Value)} (hnames : fields.map (·.1) = accessors.map (·.field))
    (hlength : terms.length = accessors.length)
    (h : ∀ q ∈ (accessors.zip fields).zip terms, t.readValue q.1.1.type q.2 = .ok q.1.2.2) :
    t.readFields type (.composite accessors isValueType) terms = .ok fields := by
  induction accessors generalizing fields terms with
  | nil =>
      obtain rfl := List.length_eq_zero_iff.1 hlength
      obtain rfl := List.map_eq_nil_iff.1 hnames
      rw [readFields]
  | cons f accessors ih =>
      cases fields with
      | nil => simp at hnames
      | cons x fields =>
          cases terms with
          | nil => simp at hlength
          | cons e terms =>
              rw [List.zip_cons_cons, List.zip_cons_cons, List.forall_mem_cons] at h
              rw [List.map_cons, List.map_cons, List.cons.injEq] at hnames
              have hrest := ih hnames.2 (by simpa using hlength) h.2
              simp only [readFields, Pathwise.bind_eq_ok, pure_eq_ok]
              exact ⟨x.2, h.1, fields, hrest, by rw [← hnames.1]⟩

theorem readFields_of_fields {type : TypeRef} {s : Sentence} {fields : List (String × Value)}
    (hnames : fields.map (·.1) = s.fields.map (·.field)) (hlength : terms.length = s.fields.length)
    (h : ∀ q ∈ (s.fields.zip fields).zip terms, t.readValue q.1.1.type q.2 = .ok q.1.2.2) :
    t.readFields type s.shape terms = .ok fields := by
  cases hshape : s.shape with
  | composite accessors isValueType =>
      have hfields : s.fields = accessors := by simp [Sentence.fields, hshape]
      rw [hfields] at hnames hlength h
      exact readFields_composite hnames hlength h
  | _ =>
      have hfields : s.fields = [] := by simp [Sentence.fields, hshape]
      rw [hfields] at hnames hlength
      obtain rfl := List.length_eq_zero_iff.1 hlength
      obtain rfl := List.map_eq_nil_iff.1 hnames
      rw [readFields]

/-! ## reading -/

section

variable {p : Program} {exceptionBase : Option TypeRef} {type : TypeRef} {v : Value} {e : Sexp}
  {s : Sentence}

theorem Knows.find? {u : TypeRef} (h : t.Knows p exceptionBase u)
    (hs : Sentence.encode exceptionBase p u = .ok s) : t.sentences.find? u = some s := by
  obtain ⟨s', hfind, hs'⟩ := h
  obtain rfl := Except.ok.inj (hs.symm.trans hs')
  exact hfind

/-- Where the table has the sentence of a type, a list is an object of it. -/
theorem readValue_list (ht : type.HasDatatype) (hvoid : type ≠ .void)
    (hfind : t.sentences.find? type = some s) (items : List Sexp) :
    t.readValue type (.list items) = t.readRecord type s items := by
  cases type with
  | array element => exact absurd rfl (ht.2 element)
  | named space name arguments => simp only [readValue, hfind]
  | builtin kind =>
      cases kind with
      | string => simp only [readValue, hfind]
      | object => simp only [readValue, hfind]
      | _ => simp [TypeRef.HasDatatype, TypeRef.IsReference] at ht hvoid

/-- Where the table has the sentence of a type, an atom can only be its null. -/
theorem readValue_atom {x : String} (ht : type.HasDatatype) (hvoid : type ≠ .void)
    (hfind : t.sentences.find? type = some s) (hnull : s.null? = some (.atom x)) :
    t.readValue type (.atom x) = .ok (.null type) := by
  cases type with
  | array element => exact absurd rfl (ht.2 element)
  | named space name arguments => simp only [readValue, readLeaf, hfind, hnull, if_true]
  | builtin kind =>
      cases kind with
      | string => simp only [readValue, readLeaf, hfind, hnull, if_true]
      | object => simp only [readValue, readLeaf, hfind, hnull, if_true]
      | _ => simp [TypeRef.HasDatatype, TypeRef.IsReference] at ht hvoid

theorem readValue_arrayNull (t : ConstantTable) (element : TypeRef) :
    t.readValue (.array element)
      (Sexp.app "as" [.atom SeqArray.null, SeqArray.sort element.sort]).squeeze =
        .ok (.null (.array element)) := by
  have hnull : (Sexp.atom SeqArray.null).Solid := Sexp.solid_atom (by decide)
  rw [Sexp.squeeze_app (by decide) (by simpa using ⟨hnull, Sexp.solid_arraySort element⟩)]
  simp [Sexp.app, readValue, readArray, Sexp.squeeze]

/-- The null of a type is read from the null term of its sentence. -/
theorem readValue_null (ht : p.Throughout exceptionBase (t.Knows p exceptionBase) type)
    (hs : Sentence.encode exceptionBase p type = .ok s) (he : s.null? = some e) :
    t.readValue type e.squeeze = .ok (.null type) := by
  obtain ⟨rfl, hencoded⟩ := Sentence.encoded_of_encode hs
  have hatom (hd : s.type.HasDatatype) {x : String} (hx : s.null? = some (.atom x)) :
      t.readValue s.type (.atom x) = .ok (.null s.type) :=
    readValue_atom hd (Sentence.ne_void_of_encode hs) ((ht.self hd).find? hs) hx
  cases hencoded with
  | scalar hscalar hshape => obtain rfl | rfl | rfl := hshape <;> contradiction
  | array element =>
      obtain rfl := Option.some.inj he
      exact readValue_arrayNull t element
  | plain base hd hshape =>
      obtain rfl | rfl | rfl := hshape <;>
        · obtain rfl := Option.some.inj he
          exact hatom hd rfl
  | composite fields isValueType base hd =>
      obtain rfl := Option.some.inj he
      exact hatom hd rfl

theorem squeeze_constructor {c : Constructor} (hc : s.constructor? = some c) (pointer : Int)
    (u : TypeRef) {terms : List Sexp} (hterms : ∀ e ∈ terms, e.Solid) :
    (Sexp.app c.name (.int pointer :: .atom u.tag :: terms)).squeeze =
      .app c.name (.int pointer :: .atom u.tag :: terms.map Sexp.squeeze) := by
  have hargs : ∀ a ∈ Sexp.int pointer :: .atom u.tag :: terms, a.Solid := by
    simp only [List.forall_mem_cons]
    exact ⟨Value.solid_int pointer, Sexp.solid_atom u.isAtom_tag, hterms⟩
  rw [Sexp.squeeze_app (Value.isAtom_constructor hc) hargs, List.map_cons, List.map_cons,
    Sexp.squeeze_of_readable (Sexp.readable_int pointer)]
  rfl

/-- An object is read from its constructor, if its fields are. -/
theorem readValue_object (hfilled : t.Filled) (hd : t.DistinctTags) {c : Constructor} {u : TypeRef}
    {fields : List (String × Value)} {pointer : Int} {terms : List Sexp} (ht : type.HasDatatype)
    (hvoid : type ≠ .void) (hfind : t.sentences.find? type = some s) (hc : s.constructor? = some c)
    (hu : t.Registered u) (hp : Number.IsInt64 pointer)
    (hlength : terms.length = s.fieldAccessors.length) (hterms : ∀ e ∈ terms, e.Solid)
    (hfields : t.readFields type s.shape (terms.map Sexp.squeeze) = .ok fields) :
    t.readValue type (Sexp.app c.name (.int pointer :: .atom u.tag :: terms)).squeeze =
      .ok (.record type u pointer fields) := by
  have harity : (terms.map Sexp.squeeze).length + 2 = c.accessors.length := by
    obtain ⟨-, rfl⟩ := Option.ite_some_none_eq_some.1 hc
    simp [Constructor.object, hlength]
  rw [squeeze_constructor hc pointer u hterms, Sexp.app, readValue_list ht hvoid hfind]
  simp only [readRecord, hc, harity, and_self, if_true, Pathwise.bind_eq_ok, pure_eq_ok,
    hfilled.runtimeType_tag hd hu]
  exact ⟨pointer, readInt_int type hp, fields, hfields, rfl⟩

/-- An array is read from the constructor that all arrays share. -/
theorem readValue_array {element : TypeRef} {pointer : Int} {tag contents : Sexp}
    {elements : List Value} (hp : Number.IsInt64 pointer)
    (h : t.readSequence element contents = .ok elements) :
    t.readValue (.array element) (.app SeqArray.ctor [.int pointer, tag, contents]) =
      .ok (.array (.array element) pointer elements) := by
  have hhead : ¬(SeqArray.ctor = "as" ∧ Sexp.int pointer = .atom SeqArray.null) := by
    simp [show SeqArray.ctor ≠ "as" by decide]
  simp only [Sexp.app, readValue, readArray, if_neg hhead, if_true, Pathwise.bind_eq_ok, pure_eq_ok]
  exact ⟨pointer, readInt_int _ hp, elements, h, rfl⟩

theorem readValue_int32 (t : ConstantTable) (e : Sexp) :
    t.readValue .int32 e = (do return .int (← readInt .int32 e)) := by
  cases e <;> simp only [readValue, readLeaf]

/-- **Reading undoes writing**: a term for a value of a type is read as that value. -/
theorem readValue_squeeze (hfilled : t.Filled) (hd : t.DistinctTags)
    (ht : p.Throughout exceptionBase (t.Knows p exceptionBase) type)
    (hv : v.Conforms p exceptionBase t.Registered type) (h : v.WrittenAs p exceptionBase type e) :
    t.readValue type e.squeeze = .ok v := by
  -- along the term; that the value conforms goes down to its parts, and so does what the table
  -- knows
  induction h with
  | bool b => cases b <;> rfl
  | int i =>
      cases hv with
      | int hi =>
          rw [Sexp.squeeze_of_readable (Sexp.readable_int i), readValue_int32,
            readInt_int .int32 hi]
          rfl
  | null hs he => exact readValue_null ht hs he
  | string hs hc runtimeType pointer text =>
      cases hv with
      | object _ hstring => exact absurd rfl hstring
      | string hr hp =>
          have hdatatype : TypeRef.string.HasDatatype := by
            simp [TypeRef.HasDatatype, TypeRef.IsReference]
          have hfind := (ht.self hdatatype).find? hs
          obtain rfl := Except.ok.inj hs
          have htext : (Sexp.quoted text).Solid := ⟨trivial, by simp⟩
          have hread : t.readFields .string .str [.quoted text] = .ok [("value", .text text)] := by
            rw [readFields]
          exact readValue_object hfilled hd hdatatype (by simp) hfind hc hr hp rfl
            (List.forall_mem_singleton.2 htext) hread
  | @object type s c hs hc runtimeType pointer fields terms hlength hterms hfields ih =>
      cases hv with
      | string hr hp text =>
          -- the sentence of `String` has no fields, but the value has one
          obtain rfl := Except.ok.inj hs
          contradiction
      | object hdatatype hstring hr hp hnames hconforms =>
          have hsolid : ∀ e ∈ terms, e.Solid :=
            Value.forall_mem_of_zip (by simp [hlength, hterms]) fun q hq => (hfields q hq).solid
          have haccessors := Sentence.fields_of_encode hs
          have hfit : ∀ q ∈ s.fields.zip fields,
              p.Throughout exceptionBase (t.Knows p exceptionBase) q.1.type ∧
                q.2.2.Conforms p exceptionBase t.Registered q.1.type := by
            rw [haccessors, List.zip_map_left]
            refine List.forall_mem_map.2 fun q hq => ⟨ht.held ?_, hconforms q hq⟩
            exact .field (List.of_mem_zip hq).1
          have hread : t.readFields type s.shape (terms.map Sexp.squeeze) = .ok fields := by
            refine readFields_of_fields (by simp [hnames, haccessors]) (by simp [hterms]) ?_
            rw [List.zip_map_right]
            refine List.forall_mem_map.2 fun q hq => ?_
            have hq' := hfit q.1 (List.of_mem_zip hq).1
            exact ih q hq hq'.1 hq'.2
          have harity : terms.length = s.fieldAccessors.length := by
            rw [hterms, Sentence.length_fieldAccessors_of_encode hs hstring]
          exact readValue_object hfilled hd hdatatype (Sentence.ne_void_of_encode hs)
            ((ht.self hdatatype).find? hs) hc hr hp harity hsolid hread
  | @array element pointer elements tag contents terms htag hcontents hlength helements ih =>
      cases hv with
      | array hp hconforms =>
          have hsolid := Value.forall_mem_of_zip hlength fun q hq => (helements q hq).solid
          have hread : t.readSequence element contents.squeeze = .ok elements := by
            rw [readSequence_squeeze hcontents hsolid]
            refine mapM_eq_ok_of_forall_zip hlength fun q hq => ?_
            exact ih q hq (ht.held (.element element)) (hconforms q.1 (List.of_mem_zip hq).1)
          have hargs : ∀ a ∈ [.int pointer, tag, contents], a.Solid := by
            simpa using ⟨Value.solid_int pointer, htag, hcontents.solid hsolid⟩
          rw [Sexp.squeeze_app (by decide) hargs, List.map_cons,
            Sexp.squeeze_of_readable (Sexp.readable_int pointer)]
          exact readValue_array hp hread

end

end ConstantTable

/-! ## a sample -/

namespace Sample.Chain

open ConstantTable (Registered)
open Relation (ReflTransGen)

/-- A link of a chain: its label, the next link and some sizes. -/
def link : TypeRef := .named "Sample" "Link" []

/-- A type with fields of three kinds and a static one. -/
def program : Program := Program.empty.addType
  { type := link
    base := none
    fields := [⟨"label", .string, false⟩, ⟨"count", .int32, true⟩, ⟨"next", link, false⟩,
      ⟨"sizes", .array .int32, false⟩]
    isValueType := false }

/-- The sentences of the program. -/
def sentence (t : TypeRef) : Sentence :=
  (Sentence.encode none program t).toOption.getD default

/-- A table that declares one record. -/
def table : ConstantTable :=
  ((ConstantTable.empty.register (sentence .string)).register (sentence link)).declare "first" link

theorem type_sentence :
    (sentence link).type = link ∧ (sentence .string).type = .string := ⟨rfl, rfl⟩

theorem encode_sentence : Sentence.encode none program .string = .ok (sentence .string) ∧
    Sentence.encode none program link = .ok (sentence link) := ⟨rfl, rfl⟩

theorem registered_iff {u : TypeRef} : table.Registered u ↔ u = link ∨ u = .string := by
  have hempty : (∅ : Table TypeRef Sentence).contains u = false := rfl
  simp [table, Registered, ConstantTable.declare, ConstantTable.register, ConstantTable.empty,
    Table.contains_set, type_sentence, hempty, eq_comm (a := u)]

theorem filled : table.Filled := .declare (.register (.register .empty _) _) _ _

theorem distinctTags : table.DistinctTags := by
  intro u w hu hw htag
  have hne : link.tag ≠ TypeRef.string.tag := by decide
  obtain rfl | rfl := registered_iff.1 hu <;> obtain rfl | rfl := registered_iff.1 hw
  · rfl
  · exact absurd htag hne
  · exact absurd htag.symm hne
  · rfl

theorem objectFields_link : program.objectFields none link =
    [⟨"label", .string, false⟩, ⟨"next", link, false⟩, ⟨"sizes", .array .int32, false⟩] := rfl

/-- The types that a link can hold. -/
theorem mem_of_holds {u : TypeRef} (h : ReflTransGen (program.Holds none) link u) :
    u ∈ [link, .string, .array .int32, .int32] := by
  induction h with
  | refl => simp
  | tail _ hw ih =>
      simp only [List.mem_cons, List.not_mem_nil, or_false] at ih
      cases hw with
      | element e =>
          obtain h | h | h | h := ih
          · contradiction
          · contradiction
          · rw [TypeRef.array.inj h]
            simp
          · contradiction
      | field hf =>
          obtain rfl | rfl | rfl | rfl := ih
          · rw [objectFields_link] at hf
            simp only [List.mem_cons, List.not_mem_nil, or_false] at hf
            obtain rfl | rfl | rfl := hf <;> simp
          · contradiction
          · contradiction
          · contradiction

theorem knows : program.Throughout none (table.Knows program none) link := by
  intro u hu hdatatype
  have hmem := mem_of_holds hu
  simp only [List.mem_cons, List.not_mem_nil, or_false] at hmem
  obtain rfl | rfl | rfl | rfl := hmem
  · exact ⟨sentence link, by decide, encode_sentence.2⟩
  · exact ⟨sentence .string, by decide, encode_sentence.1⟩
  · exact absurd rfl (hdatatype.2 .int32)
  · simp [TypeRef.HasDatatype, TypeRef.IsReference] at hdatatype

/-- The least integer, and one more item. -/
def sizes : Value := .array (.array .int32) (-1) [.int (-9223372036854775808), .int 7]

/-- A record with a text, a null and an array. -/
def value : Value :=
  .record link link 1 [("label", .record .string .string 2 [("value", .text "a \"b\"")]),
    ("next", .null link), ("sizes", sizes)]

/-- The array as a model may write it, with an empty part. -/
def sizesTerm : Sexp :=
  .app SeqArray.ctor [.int (-1), .atom "Sizes_tag",
    .app "seq.++" [.app "seq.unit" [.int (-9223372036854775808)],
      .app "seq.++" [.app "as" [.atom "seq.empty", .app "Seq" [.atom "Int"]],
        .app "seq.unit" [.int 7]]]]

/-- The term of `value`, with the sizes grouped in two steps. -/
def term : Sexp :=
  .app "Sample.Link_ctor" [.int 1, .atom link.tag,
    .app "Str_ctor" [.int 2, .atom TypeRef.string.tag, .quoted "a \"b\""],
    .atom "Sample.Link_null", sizesTerm]

theorem conforms : value.Conforms program none table.Registered link := by
  have hlink : table.Registered link := registered_iff.2 (Or.inl rfl)
  have hstring : table.Registered .string := registered_iff.2 (Or.inr rfl)
  have hdatatype : link.HasDatatype := by simp [link, TypeRef.HasDatatype, TypeRef.IsReference]
  have hsizes : sizes.Conforms program none table.Registered (.array .int32) := by
    refine .array (by decide) ?_
    simp only [List.forall_mem_cons]
    exact ⟨.int (by decide), .int (by decide), by simp⟩
  refine .object hdatatype (by simp [link]) hlink (by decide) rfl ?_
  simp only [objectFields_link, List.zip_cons_cons, List.zip_nil_left, List.forall_mem_cons]
  exact ⟨.string hstring (by decide) _, .null hdatatype.1, hsizes, by simp⟩

theorem writtenAs_sizes : sizes.WrittenAs program none (.array .int32) sizesTerm := by
  have hint : (Sexp.atom "Int").Clean := (by decide : Sexp.IsPlain "Int")
  have hsort : (Sexp.app "Seq" [.atom "Int"]).Clean :=
    Sexp.clean_app (by decide) (List.forall_mem_singleton.2 hint)
  refine .array (-1) (Sexp.solid_atom (by decide))
    (.append (.unit _) (.append (.empty hsort) (.unit _))) rfl ?_
  simp only [List.cons_append, List.nil_append, List.zip_cons_cons, List.zip_nil_left,
    List.forall_mem_cons]
  exact ⟨.int _, .int _, by simp⟩

theorem writtenAs : value.WrittenAs program none link term := by
  have hlink : (sentence link).constructor?.map (·.name) = some "Sample.Link_ctor" := by
    decide
  have hstring : (sentence .string).constructor?.map (·.name) = some "Str_ctor" := by
    decide
  obtain ⟨c, hc, hname⟩ := Option.map_eq_some_iff.1 hlink
  obtain ⟨c', hc', hname'⟩ := Option.map_eq_some_iff.1 hstring
  have hlabel := Value.WrittenAs.string encode_sentence.1 hc' .string 2 "a \"b\""
  have hnull : (Value.null link).WrittenAs program none link (.atom "Sample.Link_null") :=
    .null encode_sentence.2 (by decide)
  have hfields := Sentence.fields_of_encode encode_sentence.2
  rw [objectFields_link] at hfields
  rw [hname'] at hlabel
  rw [term, ← hname]
  refine .object encode_sentence.2 hc link 1 (by rw [hfields]; rfl) (by rw [hfields]; rfl) ?_
  simp only [hfields, List.map_cons, List.map_nil, List.zip_cons_cons, List.zip_nil_left,
    List.forall_mem_cons]
  exact ⟨hlabel, hnull, writtenAs_sizes, by simp⟩

end Sample.Chain

end Pathwise
