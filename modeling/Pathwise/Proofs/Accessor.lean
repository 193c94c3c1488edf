import Pathwise.Proofs.Readback.Value
import Pathwise.Proofs.TypeSymbol

/-!
# Pathwise.Proofs.Accessor

Names of accessors. The constructor of a type has an accessor for the pointer, one
for the runtime type, and one for each field; each is the symbol of the type, `_`
and a word, and for a field of letters and digits the word is its name. The names
differ unless a field is called like one of the first two
(`Sentence.nodup_accessorNames_iff`): nothing keeps `ptr` and `type` apart from
fields.
-/

namespace Pathwise

/-! ## symbols of plain names -/

instance (name : String) : Decidable (TypeRef.IsName name) :=
  inferInstanceAs (Decidable (name.toList.all Char.isAlphanum = true))

/-- A name of letters and digits is its own symbol. -/
theorem Text.symbol_of_isName {name : String} (h : TypeRef.IsName name) :
    Text.symbol name = name := by
  have hplain : name.toList.all Text.isPlain = true := by
    rw [List.all_eq_true]
    intro c hc
    simp [Text.isPlain, List.all_eq_true.1 h c hc]
  have hchars := Text.symbolChars_append hplain []
  rw [List.append_nil, show Text.symbolChars [] = [] from rfl, List.append_nil] at hchars
  rw [Text.symbol, hchars, String.ofList_toList]

namespace Accessor

theorem name_ofField {owner field : String} (h : TypeRef.IsName field) (sort : Sexp) :
    (ofField owner field sort).name = owner ++ "_" ++ field := by
  rw [ofField, Text.symbol_of_isName h]

theorem name_pointer (owner : String) (sort : Sexp) :
    (ofField owner "ptr" sort).name = owner ++ "_ptr" := by
  have hname : TypeRef.IsName "ptr" := rfl
  rw [name_ofField hname, String.append_assoc]
  rfl

theorem name_type (owner : String) (sort : Sexp) :
    (ofField owner "type" sort).name = owner ++ "_type" := by
  have hname : TypeRef.IsName "type" := rfl
  rw [name_ofField hname, String.append_assoc]
  rfl

end Accessor

namespace Sentence

/-- Names of the accessors of a sentence's constructor, in order. -/
def accessorNames (s : Sentence) : List String :=
  (s.constructor?.elim [] Constructor.accessors).map (·.name)

variable {exceptionBase : Option TypeRef} {p : Program} {t : TypeRef} {s : Sentence}

theorem pointerAccessor_of_hasDatatype (h : s.hasDatatype = true) :
    s.pointerAccessor = s.name ++ "_ptr" := by
  simp [pointerAccessor, TypeRepository.isArray_of_hasDatatype h]

theorem typeAccessor_of_hasDatatype (h : s.hasDatatype = true) :
    s.typeAccessor = s.name ++ "_type" := by
  simp [typeAccessor, TypeRepository.isArray_of_hasDatatype h]

theorem accessorNames_of_hasDatatype (h : s.hasDatatype = true) : s.accessorNames =
    (s.name ++ "_ptr") :: (s.name ++ "_type") :: s.fieldAccessors.map (·.name) := by
  simp [accessorNames, constructor?, h, Constructor.object, Accessor.name_pointer,
    Accessor.name_type]

/-! ## sentences of definitions -/

section

variable {space name : String} {arguments : List TypeRef} {d : TypeDef}

theorem encode_of_typeDef (exceptionBase : Option TypeRef)
    (hd : p.typeDef? (.named space name arguments) = some d) :
    encode exceptionBase p (.named space name arguments) =
      ofDef exceptionBase (.named space name arguments) d := by
  simp only [encode, hd]

/-- A definition has a sentence if no instance field is of type `Void`. -/
theorem exists_encode_of_typeDef (exceptionBase : Option TypeRef)
    (hd : p.typeDef? (.named space name arguments) = some d)
    (htypes : ∀ f ∈ d.instanceFields, f.type ≠ .void) :
    ∃ s, encode exceptionBase p (.named space name arguments) = .ok s := by
  have hfields : d.instanceFields.mapM (fieldAccessor (.named space name arguments)) =
      .ok (d.instanceFields.map fun f => ⟨f.name, f.type,
        .ofField (TypeRef.named space name arguments).symbol f.name f.type.sort⟩) := by
    refine mapM_eq_ok_of_forall_zip (by simp) fun q hq => ?_
    obtain ⟨f, hf, rfl⟩ : ∃ f ∈ d.instanceFields, (_, f) = q := by
      rwa [← List.map_id d.instanceFields, List.map_map, List.zip_map', List.mem_map] at hq
    exact if_neg (by simpa [TypeRef.isVoid] using htypes f hf)
  rw [encode_of_typeDef exceptionBase hd, ofDef]
  split
  · exact ⟨_, rfl⟩
  · rw [hfields]
    exact ⟨_, rfl⟩

theorem objectFields_of_typeDef (exceptionBase : Option TypeRef)
    (hd : p.typeDef? (.named space name arguments) = some d) :
    p.objectFields exceptionBase (.named space name arguments) =
      if exceptionBase = some (.named space name arguments) then [] else d.instanceFields := by
  rw [Program.objectFields, hd]
  rfl

/-- The accessors behind pointer and type are those of the fields. -/
theorem fieldAccessors_eq_map (h : encode exceptionBase p (.named space name arguments) = .ok s) :
    s.fieldAccessors = s.fields.map (·.accessor) := by
  obtain ⟨shape, ⟨ht, -⟩ | ⟨ht, -⟩ | ⟨ht, -⟩, -⟩ | ⟨ht, -⟩ | ⟨ht, -⟩ | ⟨e, ht, -⟩ |
    ⟨_, _, _, d, -, -, ⟨-, base, rfl⟩ | ⟨-, fields, flag, base, -, rfl⟩⟩ := encode_cases h
  case inr.inr.inr.inr.inl => rfl
  case inr.inr.inr.inr.inr => rfl
  all_goals contradiction

theorem hasDatatype_of_encode_named
    (h : encode exceptionBase p (.named space name arguments) = .ok s) : s.hasDatatype = true := by
  obtain ⟨ht, hencoded⟩ := encoded_of_encode h
  rw [hencoded.hasDatatype_iff, ht]
  simp [TypeRef.HasDatatype, TypeRef.IsReference]

/-- The names are made from words: `ptr`, `type` and the names of the fields. -/
theorem accessorNames_of_encode (h : encode exceptionBase p (.named space name arguments) = .ok s)
    (hnames : ∀ f ∈ p.objectFields exceptionBase (.named space name arguments),
      TypeRef.IsName f.name) :
    s.accessorNames = ("ptr" :: "type" ::
      (p.objectFields exceptionBase (.named space name arguments)).map (·.name)).map
        fun word => s.name ++ "_" ++ word := by
  have hwords : s.fieldAccessors.map (·.name) =
      ((p.objectFields exceptionBase (.named space name arguments)).map (·.name)).map
        fun word => s.name ++ "_" ++ word := by
    rw [fieldAccessors_eq_map h, fields_of_encode h, List.map_map, List.map_map, List.map_map,
      Sentence.name, type_of_encode h]
    exact List.map_congr_left fun f hf => Accessor.name_ofField (hnames f hf) f.type.sort
  rw [accessorNames_of_hasDatatype (hasDatatype_of_encode_named h), hwords, List.map_cons,
    List.map_cons, String.append_assoc, String.append_assoc]
  rfl

/-- **When the accessors of a constructor differ**: a definition whose instance fields have
different names of letters and digits, none of type `Void`, has a sentence. The accessors of its
constructor have different names exactly if no field is called `ptr` or `type`, or the type is the
base of all exceptions, whose fields have no accessors. -/
theorem nodup_accessorNames_iff (exceptionBase : Option TypeRef)
    (hd : p.typeDef? (.named space name arguments) = some d)
    (hnames : ∀ f ∈ d.instanceFields, TypeRef.IsName f.name)
    (hnodup : (d.instanceFields.map (·.name)).Nodup)
    (htypes : ∀ f ∈ d.instanceFields, f.type ≠ .void) :
    ∃ s, encode exceptionBase p (.named space name arguments) = .ok s ∧
      (s.accessorNames.Nodup ↔ exceptionBase = some (.named space name arguments) ∨
        ∀ f ∈ d.instanceFields, f.name ≠ "ptr" ∧ f.name ≠ "type") := by
  obtain ⟨s, hs⟩ := exists_encode_of_typeDef exceptionBase hd htypes
  have hfields := objectFields_of_typeDef exceptionBase hd
  have hinjective : Function.Injective fun word => s.name ++ "_" ++ word :=
    fun _ _ h => (String.append_right_inj _).1 h
  have hnames' : ∀ f ∈ p.objectFields exceptionBase (.named space name arguments),
      TypeRef.IsName f.name := by
    rw [hfields]
    split
    · simp
    · exact hnames
  refine ⟨s, hs, ?_⟩
  rw [accessorNames_of_encode hs hnames', List.nodup_map_iff hinjective, hfields]
  split
  · next hbase => simp [hbase]
  · next hbase =>
      simp only [List.nodup_cons, List.mem_cons, List.mem_map, hnodup, hbase, false_or]
      simp [forall_and]

end

end Sentence

/-! ## a sample -/

namespace Sample.Buffers

def buffer : TypeRef := .named "Demo" "Buffer" []

/-- A type with a field that is called like the accessor of pointers. -/
def bufferDef : TypeDef :=
  { type := buffer, base := none, isValueType := false
    fields := [⟨"size", .int32, false⟩, ⟨"ptr", .array .int32, false⟩] }

def page : TypeRef := .named "Demo" "Page" []

/-- A type whose field of that kind is static. -/
def pageDef : TypeDef :=
  { type := page, base := none, isValueType := false
    fields := [⟨"size", .int32, false⟩, ⟨"next", page, false⟩, ⟨"type", .int32, true⟩] }

/-- Both types. -/
def program : Program := (Program.empty.addType bufferDef).addType pageDef

/-- The constructor of buffers has two accessors of one name. -/
theorem repeated_accessor : program.typeDef? buffer = some bufferDef ∧
    bufferDef.instanceFields.map (·.name) = ["size", "ptr"] ∧ ["size", "ptr"].Nodup ∧
    TypeRef.IsName "size" ∧ TypeRef.IsName "ptr" ∧
    bufferDef.instanceFields.map (·.type) = [.int32, .array .int32] ∧
    (∃ s, Sentence.encode none program .int32 = .ok s) ∧
    (∃ s, Sentence.encode none program (.array .int32) = .ok s) ∧
    ∃ s, Sentence.encode none program buffer = .ok s ∧ s.accessorNames =
      ["Demo.Buffer_ptr", "Demo.Buffer_type", "Demo.Buffer_size", "Demo.Buffer_ptr"] ∧
      ¬ s.accessorNames.Nodup := by
  have hnames : (Sentence.encode none program buffer).map Sentence.accessorNames =
      .ok ["Demo.Buffer_ptr", "Demo.Buffer_type", "Demo.Buffer_size", "Demo.Buffer_ptr"] := rfl
  obtain ⟨s, hs, hnames⟩ := map_eq_ok.1 hnames
  refine ⟨rfl, rfl, by decide, rfl, rfl, rfl, ⟨_, rfl⟩, ⟨_, rfl⟩, s, hs, hnames, ?_⟩
  rw [hnames]
  decide

/-- The accessors of pages differ; a static field has none. -/
theorem distinct_accessors : program.typeDef? page = some pageDef ∧
    (∀ f ∈ pageDef.instanceFields, TypeRef.IsName f.name) ∧
    (pageDef.instanceFields.map (·.name)).Nodup ∧
    (∀ f ∈ pageDef.instanceFields, f.type ≠ .void) ∧
    ∃ s, Sentence.encode none program page = .ok s ∧ s.accessorNames.Nodup := by
  have hd : program.typeDef? page = some pageDef := rfl
  have hnames : ∀ f ∈ pageDef.instanceFields, TypeRef.IsName f.name := by decide
  obtain ⟨s, hs, hiff⟩ := Sentence.nodup_accessorNames_iff none hd hnames (by decide) (by decide)
  exact ⟨hd, hnames, by decide, by decide, s, hs, hiff.2 (Or.inr (by decide))⟩

end Sample.Buffers

end Pathwise
