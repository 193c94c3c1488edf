import Pathwise.Proofs.Accessor

/-!
# Pathwise.Proofs.Record

Objects are records. A term that applies the constructor of a sentence is read by
position: an accessor selects the argument at its own place
(`Constructor.evaluate?`). An object with one field replaced is such a term
(`Sentence.storeField_eq_app`), so it obeys the laws of records
(`Sentence.load_store`): the field has the new value, and the other fields, the
pointer and the type are those of the object it was made from.
-/

namespace Pathwise

/-- An element is found by a key that no other element has. -/
theorem find?_eq_some_of_nodup_map {α β : Type} [DecidableEq β] {key : α → β} {l : List α}
    (h : (l.map key).Nodup) {a : α} (ha : a ∈ l) : l.find? (key · = key a) = some a := by
  have hsome : (l.find? (key · = key a)).isSome := List.find?_isSome.2 ⟨a, ha, by simp⟩
  obtain ⟨b, hb⟩ := Option.isSome_iff_exists.1 hsome
  have hkey : key b = key a := by simpa using List.find?_some hb
  rw [hb, List.inj_on_of_nodup_map h (List.mem_of_find?_eq_some hb) ha hkey]

/-! ## reading by position -/

namespace Constructor

/-- The arguments of a term that applies the constructor, one for each accessor. -/
def arguments? (c : Constructor) : Sexp → Option (List Sexp)
  | .list (.atom f :: args) =>
    if f = c.name ∧ args.length = c.accessors.length then some args else none
  | _ => none

/-- The argument at the place of an accessor. -/
def select? (c : Constructor) (accessor : String) (e : Sexp) : Option Sexp :=
  (c.arguments? e).bind fun args => args[c.accessors.findIdx (·.name = accessor)]?

/-- The value of an accessor that is applied to a term. -/
def evaluate? (c : Constructor) : Sexp → Option Sexp
  | .list [.atom accessor, e] => c.select? accessor e
  | _ => none

/-- Accessors of different names select their own arguments. -/
theorem evaluate?_app {c : Constructor} (h : (c.accessors.map (·.name)).Nodup) {a : Accessor}
    (ha : a ∈ c.accessors) (argument : Accessor → Sexp) :
    c.evaluate? (.app a.name [.app c.name (c.accessors.map argument)]) = some (argument a) := by
  have harguments : c.arguments? (.app c.name (c.accessors.map argument)) =
      some (c.accessors.map argument) := if_pos ⟨rfl, List.length_map _⟩
  rw [Sexp.app, evaluate?, select?, harguments, Option.bind_some, List.getElem?_map,
    ← List.find?_eq_getElem?_findIdx, find?_eq_some_of_nodup_map h ha]
  rfl

end Constructor

namespace Sentence

open Sexp (app)

variable {s : Sentence} {o v e : Sexp} {f : String}

/-! ## fields -/

/-- A field can be read exactly if the sentence has it. -/
theorem apply_loadField_eq_ok_iff : s.apply (.loadField o f) = .ok e ↔
    ∃ g, s.field? f = some g ∧ e = app g.accessor.name [o] := by
  rcases hshape : s.shape with _ | _ | _ | _ | _ | element | ⟨accessors, flag⟩ | _
  case composite =>
    simp only [apply, applyComposite, field?, fields, hshape]
    split
    · next g hg =>
        rw [hg, Except.ok.injEq]
        constructor
        · exact fun h => ⟨g, rfl, h.symm⟩
        · rintro ⟨_, hg', rfl⟩
          rw [Option.some.inj hg']
    · next hnone => simp [hnone]
  all_goals simp [apply, applyBool, applyInt, applyReal, applyNumeric, applyStr, applyObject,
    applyArray, applyReference, unsupported, field?, fields, hshape]

/-- A field can be replaced exactly if the sentence has it. -/
theorem apply_storeField_eq_ok_iff : s.apply (.storeField o f v) = .ok e ↔
    (∃ g ∈ s.fields, g.field = f) ∧ e = app (s.name ++ "_ctor") (app s.pointerAccessor [o] ::
      app s.typeAccessor [o] ::
        s.fields.map fun g => if g.field = f then v else app g.accessor.name [o]) := by
  rcases hshape : s.shape with _ | _ | _ | _ | _ | element | ⟨accessors, flag⟩ | _
  case composite =>
    simp only [apply, applyComposite, fields, hshape, List.any_eq_true, decide_eq_true_eq]
    split
    · next hany =>
        rw [Except.ok.injEq]
        exact ⟨fun h => ⟨hany, h.symm⟩, fun h => h.2.symm⟩
    · next hnone => simp [hnone]
  all_goals simp [apply, applyBool, applyInt, applyReal, applyNumeric, applyStr, applyObject,
    applyArray, applyReference, unsupported, fields, hshape]

theorem exists_field?_iff : (∃ g, s.field? f = some g) ↔ ∃ g ∈ s.fields, g.field = f := by
  rw [← Option.isSome_iff_exists, field?, List.find?_isSome]
  simp

variable {exceptionBase : Option TypeRef} {p : Program} {space name : String}
  {arguments : List TypeRef} {d : TypeDef}

/-- The fields of a sentence are the instance fields, and none for the base of all exceptions. -/
theorem exists_field_iff (hd : p.typeDef? (.named space name arguments) = some d)
    (hs : encode exceptionBase p (.named space name arguments) = .ok s) :
    (∃ g ∈ s.fields, g.field = f) ↔
      exceptionBase ≠ some (.named space name arguments) ∧ f ∈ d.instanceFields.map (·.name) := by
  rw [fields_of_encode hs, objectFields_of_typeDef exceptionBase hd]
  split
  · next hbase => simp [hbase]
  · next hbase => simp [hbase]

/-! ## objects with a field replaced -/

section

variable (hs : encode exceptionBase p (.named space name arguments) = .ok s)
  (hnames : s.accessorNames.Nodup) {g h : FieldAccessor}

include hs

theorem constructor?_of_encode_named :
    s.constructor? = some (.object s.name (s.fields.map (·.accessor))) := by
  rw [constructor?, if_pos (hasDatatype_of_encode_named hs), fieldAccessors_eq_map hs]

/-- Fields of one name have one accessor name. -/
theorem name_accessor_of_mem_fields {g : FieldAccessor} (hg : g ∈ s.fields) :
    g.accessor.name = s.name ++ "_" ++ Text.symbol g.field := by
  rw [fields_of_encode hs] at hg
  obtain ⟨field, -, rfl⟩ := List.mem_map.1 hg
  rw [Sentence.name, type_of_encode hs]
  rfl

theorem accessorNames_of_encode_named : s.accessorNames = s.pointerAccessor :: s.typeAccessor ::
    s.fields.map (·.accessor.name) := by
  have hdatatype := hasDatatype_of_encode_named hs
  rw [accessorNames_of_hasDatatype hdatatype, fieldAccessors_eq_map hs,
    pointerAccessor_of_hasDatatype hdatatype, typeAccessor_of_hasDatatype hdatatype, List.map_map]
  rfl

theorem isAtom_of_mem_accessorNames {accessor : String} (h : accessor ∈ s.accessorNames) :
    Sexp.IsAtom accessor := by
  have hdatatype := hasDatatype_of_encode_named hs
  rw [accessorNames_of_encode_named hs, pointerAccessor_of_hasDatatype hdatatype,
    typeAccessor_of_hasDatatype hdatatype] at h
  simp only [List.mem_cons, List.mem_map] at h
  obtain rfl | rfl | ⟨g, hg, rfl⟩ := h
  · exact Sexp.isAtom_append s.type.isPlain_symbol (by decide)
  · exact Sexp.isAtom_append s.type.isPlain_symbol (by decide)
  · rw [name_accessor_of_mem_fields hs hg, String.append_assoc]
    refine Sexp.isAtom_append s.type.isPlain_symbol ⟨by simp, ?_⟩
    exact Sexp.isPlain_append.2 ⟨by decide, Sexp.isPlain_symbol _⟩

include hnames

/-- A field is known by its accessor. -/
theorem eq_of_name_accessor_eq (hg : g ∈ s.fields) (hh : h ∈ s.fields)
    (hname : g.accessor.name = h.accessor.name) : g = h := by
  rw [accessorNames_of_encode_named hs, List.nodup_cons, List.nodup_cons] at hnames
  exact List.inj_on_of_nodup_map hnames.2.2 hg hh hname

/-- A field is known by its name. -/
theorem eq_of_field_eq (hg : g ∈ s.fields) (hh : h ∈ s.fields) (hfield : g.field = h.field) :
    g = h := by
  refine eq_of_name_accessor_eq hs hnames hg hh ?_
  rw [name_accessor_of_mem_fields hs hg, name_accessor_of_mem_fields hs hh, hfield]

theorem name_accessor_eq_iff (hg : g ∈ s.fields) (hh : h ∈ s.fields) :
    g.accessor.name = h.accessor.name ↔ g.field = h.field :=
  ⟨fun hname => congrArg (·.field) (eq_of_name_accessor_eq hs hnames hg hh hname),
    fun hfield => congrArg (·.accessor.name) (eq_of_field_eq hs hnames hg hh hfield)⟩

/-- The accessors of pointer and type are not those of fields. -/
theorem identity_ne_name_accessor {g : FieldAccessor} (hg : g ∈ s.fields) :
    s.pointerAccessor ≠ g.accessor.name ∧ s.typeAccessor ≠ g.accessor.name := by
  rw [accessorNames_of_encode_named hs, List.nodup_cons, List.nodup_cons] at hnames
  have hmem : g.accessor.name ∈ s.fields.map (·.accessor.name) := List.mem_map_of_mem hg
  constructor
  · intro h
    exact hnames.1 (List.mem_cons_of_mem _ (h ▸ hmem))
  · intro h
    exact hnames.2.1 (h ▸ hmem)

variable {g : FieldAccessor} (hg : g ∈ s.fields) {c : Constructor} (hc : s.constructor? = some c)

include hg hc

/-- An object with a field replaced applies the constructor: the accessor of the field gives the
new value, and every other accessor what it gives for the object. -/
theorem storeField_eq_app : s.apply (.storeField o g.field v) = .ok (app c.name
    (c.accessors.map fun a => if a.name = g.accessor.name then v else app a.name [o])) := by
  obtain rfl := Option.some.inj ((constructor?_of_encode_named hs).symm.trans hc)
  have hdatatype := hasDatatype_of_encode_named hs
  obtain ⟨hpointer, htype⟩ := identity_ne_name_accessor hs hnames hg
  -- fields are compared by name where the term is written, and by accessor where it is read
  have hfields : (s.fields.map fun h => if h.field = g.field then v else app h.accessor.name [o]) =
      (s.fields.map (·.accessor)).map fun a =>
        if a.name = g.accessor.name then v else app a.name [o] := by
    rw [List.map_map]
    refine List.map_congr_left fun h hh => ?_
    simp only [Function.comp_apply, name_accessor_eq_iff hs hnames hh hg]
  refine apply_storeField_eq_ok_iff.2 ⟨⟨g, hg, rfl⟩, ?_⟩
  rw [hfields, Constructor.object, List.map_cons, List.map_cons, Accessor.name_pointer,
    Accessor.name_type, ← pointerAccessor_of_hasDatatype hdatatype,
    ← typeAccessor_of_hasDatatype hdatatype, if_neg hpointer, if_neg htype]

theorem evaluate?_storeField (hstored : s.apply (.storeField o g.field v) = .ok e)
    {accessor : String} (haccessor : accessor ∈ s.accessorNames) :
    c.evaluate? (app accessor [e]) =
      some (if accessor = g.accessor.name then v else app accessor [o]) := by
  rw [storeField_eq_app hs hnames hg hc] at hstored
  obtain rfl := Except.ok.inj hstored
  rw [accessorNames, hc] at haccessor hnames
  obtain ⟨a, ha, rfl⟩ := List.mem_map.1 haccessor
  exact Constructor.evaluate?_app hnames ha fun a =>
    if a.name = g.accessor.name then v else app a.name [o]

theorem readable_storeField (hstored : s.apply (.storeField o g.field v) = .ok e)
    (ho : o.Readable) (hv : v.Readable) : e.Readable := by
  rw [storeField_eq_app hs hnames hg hc] at hstored
  obtain rfl := Except.ok.inj hstored
  refine Sexp.readable_app (Value.isAtom_constructor hc) (List.forall_mem_map.2 fun a ha => ?_)
  split
  · exact hv
  · refine Sexp.readable_app (isAtom_of_mem_accessorNames hs ?_) (by simpa using ho)
    rw [accessorNames, hc]
    exact List.mem_map_of_mem ha

end

/-- **Fields of objects as in records**: the fields that can be read and replaced are the instance
fields of the definition, unless the type is the base of all exceptions. If the accessors of a
sentence differ, an object with a field replaced has the new value in that field; its other fields,
its pointer and its type are those of the object before. -/
theorem load_store (hd : p.typeDef? (.named space name arguments) = some d)
    (hs : encode exceptionBase p (.named space name arguments) = .ok s)
    (hnames : s.accessorNames.Nodup) (o v : Sexp) (f : String) :
    ((∃ e, s.apply (.loadField o f) = .ok e) ↔ exceptionBase ≠ some (.named space name arguments) ∧
      f ∈ d.instanceFields.map (·.name)) ∧
    ((∃ e, s.apply (.storeField o f v) = .ok e) ↔
      exceptionBase ≠ some (.named space name arguments) ∧
        f ∈ d.instanceFields.map (·.name)) ∧
    ∀ stored, s.apply (.storeField o f v) = .ok stored → ∃ c, s.constructor? = some c ∧
      (∀ g kept read, s.apply (.loadField o g) = .ok kept →
        s.apply (.loadField stored g) = .ok read →
          c.evaluate? read = some (if g = f then v else kept)) ∧
      c.evaluate? (app s.pointerAccessor [stored]) = some (app s.pointerAccessor [o]) ∧
      c.evaluate? (app s.typeAccessor [stored]) = some (app s.typeAccessor [o]) ∧
      (o.Readable → v.Readable → Sexp.parse stored.render = .ok stored) := by
  refine ⟨?_, ?_, fun stored hstored => ?_⟩
  · rw [← exists_field_iff hd hs, ← exists_field?_iff]
    simp [apply_loadField_eq_ok_iff]
  · rw [← exists_field_iff hd hs]
    simp [apply_storeField_eq_ok_iff]
  · obtain ⟨⟨f, hf, rfl⟩, -⟩ := apply_storeField_eq_ok_iff.1 hstored
    have hc := constructor?_of_encode_named hs
    obtain ⟨hpointer, htype⟩ := identity_ne_name_accessor hs hnames hf
    have hall := accessorNames_of_encode_named hs
    refine ⟨_, hc, fun name kept read hkept hread => ?_, ?_, ?_, fun ho hv => ?_⟩
    · obtain ⟨g, hg, rfl⟩ := apply_loadField_eq_ok_iff.1 hkept
      obtain ⟨g', hg', rfl⟩ := apply_loadField_eq_ok_iff.1 hread
      obtain rfl := Option.some.inj (hg.symm.trans hg')
      have hmem := List.mem_of_find?_eq_some hg
      obtain rfl : g.field = name := by simpa using List.find?_some hg
      have hname : g.accessor.name ∈ s.accessorNames := by
        rw [hall]
        exact List.mem_cons_of_mem _ (List.mem_cons_of_mem _ (List.mem_map_of_mem hmem))
      rw [evaluate?_storeField hs hnames hf hc hstored hname]
      simp only [name_accessor_eq_iff hs hnames hmem hf]
    · rw [evaluate?_storeField hs hnames hf hc hstored (by simp [hall]), if_neg hpointer]
    · rw [evaluate?_storeField hs hnames hf hc hstored (by simp [hall]), if_neg htype]
    · exact Sexp.parse_render (readable_storeField hs hnames hf hc hstored ho hv)

end Sentence

/-! ## a sample -/

namespace Sample.Accounts

/-- The type that is designated as the base of exceptions. -/
def exception : TypeRef := .named "System" "Exception" []

/-- The type that is taken for the base of all exceptions. -/
def exceptionDef : TypeDef :=
  { type := exception, base := none, isValueType := false
    fields := [⟨"message", .string, false⟩] }

/-- A type with instance fields and a static one. -/
def account : TypeRef := .named "Demo" "Account" []

/-- One of the fields has the type itself. -/
def accountDef : TypeDef :=
  { type := account, base := none, isValueType := false
    fields := [⟨"owner", .string, false⟩, ⟨"balance", .int32, false⟩, ⟨"count", .int32, true⟩,
      ⟨"parent", account, false⟩] }

/-- Both types. -/
def program : Program := (Program.empty.addType exceptionDef).addType accountDef

/-- The instance field of the base of all exceptions cannot be read or replaced. -/
theorem identity_only : program.typeDef? exception = some exceptionDef ∧
    exceptionDef.instanceFields.map (·.name) = ["message"] ∧
    ∃ s, Sentence.encode (some exception) program exception = .ok s ∧ s.accessorNames.Nodup ∧
      s.apply (.loadField (.atom "o") "message") = .error ⟨"load-field", "System.Exception"⟩ ∧
      s.apply (.storeField (.atom "o") "message" (.atom "v")) =
        .error ⟨"store-field", "System.Exception"⟩ := by
  have hd : program.typeDef? exception = some exceptionDef := rfl
  exact ⟨hd, rfl, _, Sentence.encode_of_typeDef _ hd, by decide, rfl, rfl⟩

/-- An account with another balance has it, and the parent from before. -/
theorem balance_replaced : program.typeDef? account = some accountDef ∧
    ∃ s, Sentence.encode (some exception) program account = .ok s ∧ s.accessorNames.Nodup ∧
      ∃ stored c balance parent parent',
        s.apply (.storeField (.atom "o") "balance" (.atom "7")) = .ok stored ∧
        s.constructor? = some c ∧
        s.apply (.loadField stored "balance") = .ok balance ∧
        c.evaluate? balance = some (.atom "7") ∧
        s.apply (.loadField (.atom "o") "parent") = .ok parent ∧
        s.apply (.loadField stored "parent") = .ok parent' ∧ c.evaluate? parent' = some parent := by
  have hd : program.typeDef? account = some accountDef := rfl
  have hall : (Sentence.encode (some exception) program account).map Sentence.accessorNames =
      .ok ["Demo.Account_ptr", "Demo.Account_type", "Demo.Account_owner", "Demo.Account_balance",
        "Demo.Account_parent"] := rfl
  obtain ⟨s, hs, hall⟩ := map_eq_ok.1 hall
  have hnames : s.accessorNames.Nodup := by
    rw [hall]
    decide
  have hrecord := Sentence.load_store hd hs hnames
  have hload : ∀ o f, f ∈ ["owner", "balance", "parent"] → ∃ e, s.apply (.loadField o f) = .ok e :=
    fun o f hf => (hrecord o (.atom "7") f).1.2 ⟨by decide, hf⟩
  obtain ⟨-, hstore, hlaws⟩ := hrecord (.atom "o") (.atom "7") "balance"
  obtain ⟨stored, hstored⟩ := hstore.2 ⟨by decide, by decide⟩
  obtain ⟨c, hc, hread, -⟩ := hlaws stored hstored
  obtain ⟨balance, hbalance⟩ := hload (.atom "o") "balance" (by decide)
  obtain ⟨balance', hbalance'⟩ := hload stored "balance" (by decide)
  obtain ⟨parent, hparent⟩ := hload (.atom "o") "parent" (by decide)
  obtain ⟨parent', hparent'⟩ := hload stored "parent" (by decide)
  exact ⟨hd, s, hs, hnames, stored, c, balance', parent, parent', hstored, hc, hbalance',
    hread _ _ _ hbalance hbalance', hparent, hparent', hread _ _ _ hparent hparent'⟩

end Sample.Accounts

end Pathwise
