import Pathwise.Proofs.Declarations.Order
import Pathwise.Proofs.Record
import Pathwise.Proofs.Typing.Signature

/-!
# Pathwise.Proofs.Typing.Operation

Operations keep to sorts. An operation expects its terms to have certain sorts
(`Operation.operands`) and promises one for its own term
(`Operation.resultSort?`). Under the declarations of a sentence it keeps the
promise (`Sentence.hasSort_apply`), for sentences of every shape; the declarations
of a repository have those of its sentences in them
(`TypeRepository.includes_declarations`).
-/

namespace Pathwise

/-! ## arrays -/

namespace Signature.Names

variable {Γ : Signature} (hΓ : Γ.Includes (.ofLines preamble)) {f : String}

include hΓ

/-- A function of the datatype that all arrays share, at a sort of elements. -/
theorem of_preamble (arguments : List Sexp) (result σ : Sexp)
    (h : ⟨f, ["E"], arguments, result⟩ ∈ preamble.flatMap Sexp.ranks)
    (hdetermined : "E" ∈ Sexp.atomsList arguments) :
    Γ.Names (.atom f) (arguments.map (·.instantiate (Function.update .atom "E" σ)))
      (result.instantiate (Function.update .atom "E" σ)) :=
  .at_sort (hΓ.mem_ranks h) hdetermined σ

/-- Such a function, with its result sort. -/
theorem as_of_preamble (arguments : List Sexp) (result σ : Sexp)
    (h : ⟨f, ["E"], arguments, result⟩ ∈ preamble.flatMap Sexp.ranks) :
    Γ.Names (.app "as" [.atom f, result.instantiate (Function.update .atom "E" σ)])
      (arguments.map (·.instantiate (Function.update .atom "E" σ)))
      (result.instantiate (Function.update .atom "E" σ)) :=
  .qualified (hΓ.mem_ranks h) (Rank.gives_at σ)

theorem arrayPointer (σ : Sexp) :
    Γ.Names (.atom SeqArray.pointer) [SeqArray.sort σ] intSort := by
  have hf := of_preamble hΓ (f := SeqArray.pointer) [SeqArray.sort (.atom "E")] intSort σ
    (by decide) (by decide)
  simpa [SeqArray.sort, Sexp.app, intSort] using hf

theorem arrayType (σ : Sexp) :
    Γ.Names (.atom SeqArray.type) [SeqArray.sort σ] typeSort := by
  have hf := of_preamble hΓ (f := SeqArray.type) [SeqArray.sort (.atom "E")] typeSort σ
    (by decide) (by decide)
  simpa [SeqArray.sort, Sexp.app, typeSort] using hf

end Signature.Names

namespace HasSort

variable {Γ : Signature} (hΓ : Γ.Includes (.ofLines preamble)) {σ a b c : Sexp}

include hΓ

theorem array (ha : HasSort Γ a intSort) (hb : HasSort Γ b typeSort)
    (hc : HasSort Γ c (seqSort σ)) :
    HasSort Γ (.app SeqArray.ctor [a, b, c]) (SeqArray.sort σ) := by
  have hf := Signature.Names.of_preamble hΓ (f := SeqArray.ctor)
    [intSort, typeSort, seqSort (.atom "E")]
    (SeqArray.sort (.atom "E")) σ (by decide) (by decide)
  exact app₃ (by simpa [SeqArray.sort, seqSort, Sexp.app, intSort, typeSort] using hf) ha hb hc

theorem arrayNull (σ : Sexp) :
    HasSort Γ (.app "as" [.atom SeqArray.null, SeqArray.sort σ]) (SeqArray.sort σ) := by
  have hf := Signature.Names.as_of_preamble hΓ (f := SeqArray.null) [] (SeqArray.sort (.atom "E")) σ
    (by decide)
  exact .constant (by simpa [SeqArray.sort, Sexp.app] using hf)

theorem contents (ha : HasSort Γ a (SeqArray.sort σ)) :
    HasSort Γ (.contents σ a) (seqSort σ) := by
  have hf := Signature.Names.as_of_preamble hΓ (f := SeqArray.contents) [SeqArray.sort (.atom "E")]
    (seqSort (.atom "E")) σ (by decide)
  exact app₁ (by simpa [SeqArray.sort, seqSort, Sexp.app] using hf) ha

end HasSort

/-! ## datatypes -/

namespace Sentence

variable {s : Sentence}

theorem Encoded.sort_of_hasDatatype (hs : s.Encoded) (hdatatype : s.hasDatatype = true) :
    s.sort = .atom s.name := by
  have ht := (hs.hasDatatype_iff.1 hdatatype).2
  rw [sort, TypeRef.sort]
  · rfl
  · exact fun e he => ht e he

/-- The declarations of a sentence with a datatype: the datatype, the tag, and its base. -/
theorem Encoded.declarations_of_datatypeBody? (hs : s.Encoded) {body : Sexp}
    (hbody : s.datatypeBody? = some body) :
    s.declarations = .declareDatatypes [] [body] :: s.tagLine :: s.baseLine?.toList := by
  obtain ⟨-, -, hnone, -⟩ | ⟨-, -, hnone, -⟩ | ⟨body', href, -, hbody', hline⟩ :=
    hs.datatypeDeclaration?_cases
  · exact absurd hbody (by simp [hnone])
  · exact absurd hbody (by simp [hnone])
  · obtain rfl := Option.some.inj (hbody'.symm.trans hbody)
    rw [declarations, hline, tagDeclarations_of_isReference href]
    rfl

theorem Encoded.ranks_of_hasDatatype (hs : s.Encoded) (hdatatype : s.hasDatatype = true) :
    (Constructor.null s.name).ranks [] s.sort ++
      (Constructor.object s.name s.fieldAccessors).ranks [] s.sort ⊆
        s.declarations.flatMap Sexp.ranks := by
  intro r hr
  have hbody : s.datatypeBody? = some (.app s.name [(Constructor.null s.name).sexp,
      (Constructor.object s.name s.fieldAccessors).sexp]) := by
    simp [datatypeBody?, nullConstructor?, constructor?, hdatatype]
  rw [hs.declarations_of_datatypeBody? hbody, List.flatMap_cons]
  rw [hs.sort_of_hasDatatype hdatatype] at hr
  refine List.mem_append_left _ ?_
  simpa [Sexp.ranks, Sexp.datatypeRanks, Sexp.declareDatatypes, Sexp.app] using hr

theorem tagRank_mem (href : s.isReference = true) :
    ⟨s.tag, [], [], typeSort⟩ ∈ s.declarations.flatMap Sexp.ranks := by
  rw [declarations, tagDeclarations_of_isReference href, List.flatMap_append, List.flatMap_cons]
  exact List.mem_append_right _ (List.mem_append_left _ (List.mem_singleton_self _))

section

variable {Γ : Signature} (hΓ : Γ.Includes (.ofLines s.declarations)) (hs : s.Encoded)
  (hdatatype : s.hasDatatype = true) (hnames : s.accessorNames.Nodup)

include hΓ hs hdatatype

/-- Null has the sort. -/
theorem hasSort_null : HasSort Γ (.atom (s.name ++ "_null")) s.sort := by
  refine .constant (.of_mem (hΓ.mem_ranks (hs.ranks_of_hasDatatype hdatatype ?_)))
  exact List.mem_append_left _ List.mem_cons_self

include hnames

theorem mem_constructorRanks {r : Rank} (hr : r ∈ ⟨s.name ++ "_ctor", [],
      intSort :: typeSort :: s.fieldAccessors.map (·.sort), s.sort⟩ ::
        ⟨s.name ++ "_ptr", [], [s.sort], intSort⟩ :: ⟨s.name ++ "_type", [], [s.sort], typeSort⟩ ::
          s.fieldAccessors.map fun a => (⟨a.name, [], [s.sort], a.sort⟩ : Rank)) :
    r ∈ Rank.theory ++ Γ.ranks := by
  have hnodup : ((Constructor.object s.name s.fieldAccessors).accessors.map (·.name)).Nodup := by
    rwa [accessorNames, constructor?, if_pos hdatatype] at hnames
  refine hΓ.mem_ranks (hs.ranks_of_hasDatatype hdatatype (List.mem_append_right _ ?_))
  rw [Constructor.ranks, if_pos hnodup]
  simp only [Constructor.object, List.map_cons, Accessor.name_pointer, Accessor.name_type]
  exact hr

/-- The constructor has its rank. -/
theorem names_constructor : Γ.Names (.atom (s.name ++ "_ctor"))
    (intSort :: typeSort :: s.fieldAccessors.map (·.sort)) s.sort :=
  .of_mem (mem_constructorRanks hΓ hs hdatatype hnames List.mem_cons_self)

/-- Accessors have their ranks. -/
theorem names_accessor {a : Accessor} (ha : a ∈ s.fieldAccessors) :
    Γ.Names (.atom a.name) [s.sort] a.sort := by
  refine .of_mem (mem_constructorRanks hΓ hs hdatatype hnames ?_)
  exact List.mem_cons_of_mem _ (List.mem_cons_of_mem _ (List.mem_cons_of_mem _
    (List.mem_map_of_mem ha)))

end

end Sentence

/-! ## sorts of operations -/

namespace Sentence

/-- Sort of the elements, for an array. -/
def elementSort? (s : Sentence) : Option Sexp :=
  match s.shape with
  | .array element => some element.sort
  | _ => none

/-- Sort of the values of a field. -/
def fieldSort? (s : Sentence) (field : String) : Option Sexp :=
  (s.field? field).map (·.type.sort)

end Sentence

namespace Operation

/-- The terms of an operation on values of a sentence, each with the sort that it should have. -/
def operands (s : Sentence) : Operation → List (Sexp × Sexp)
  | .equal a b | .notEqual a b | .compare _ a b | .arithmetic _ a b => [(a, s.sort), (b, s.sort)]
  | .isNull a | .isNotNull a | .isTrue a | .isFalse a | .not a | .length a | .typeOf a
  | .allocated a => [(a, s.sort)]
  | .elementAt array index | .belowLowerBound array index | .aboveUpperBound array index
  | .inRange array index => [(array, s.sort), (index, intSort)]
  | .storeElement array index value =>
    (array, s.sort) :: (index, intSort) :: (s.elementSort?.map (value, ·)).toList
  | .loadField object _ => [(object, s.sort)]
  | .storeField object field value =>
    (object, s.sort) :: ((s.fieldSort? field).map (value, ·)).toList
  | .instanceOf value tag | .hasExactType value tag => [(value, s.sort), (tag, typeSort)]
  | .convert value _ | .holdsLiteral value _ | .hasPointer value _ => [(value, s.sort)]

/-- Sort of the term of an operation on values of a sentence. -/
def resultSort? (s : Sentence) : Operation → Option Sexp
  | .arithmetic .. | .storeElement .. | .storeField .. => some s.sort
  | .length _ => some intSort
  | .elementAt .. => s.elementSort?
  | .loadField _ field => s.fieldSort? field
  | .typeOf _ => some typeSort
  | .convert _ target => some target.sort
  | .equal .. | .notEqual .. | .isNull _ | .isNotNull _ | .isTrue _ | .isFalse _ | .not _
  | .compare .. | .belowLowerBound .. | .aboveUpperBound .. | .inRange .. | .instanceOf ..
  | .hasExactType .. | .holdsLiteral .. | .allocated _ | .hasPointer .. => some boolSort

/-- A term has the sort that an operation promises. -/
def Keeps (Γ : Signature) (s : Sentence) (op : Operation) (e : Sexp) : Prop :=
  ∃ σ, op.resultSort? s = some σ ∧ HasSort Γ e σ

theorem Keeps.of_ok {Γ : Signature} {s : Sentence} {op : Operation} {a e σ : Sexp} {ε : Type}
    (h : (Except.ok a : Except ε Sexp) = .ok e) (hσ : op.resultSort? s = some σ)
    (ha : HasSort Γ a σ) : op.Keeps Γ s e :=
  ⟨σ, hσ, Except.ok.inj h ▸ ha⟩

end Operation

namespace Sentence

open Operation (Keeps)

variable {Γ : Signature} {s : Sentence} {op : Operation} {e : Sexp}

/-! ## scalars -/

/-- Booleans keep to sorts. -/
theorem keeps_applyBool (hsort : s.sort = boolSort) (hop : ∀ q ∈ op.operands s, HasSort Γ q.1 q.2)
    (h : s.applyBool op = .ok e) : op.Keeps Γ s e := by
  unfold applyBool at h
  split at h <;> simp only [Operation.operands, hsort, List.forall_mem_cons] at hop
  · exact .of_ok h rfl (.eq hop.1 hop.2.1)
  · exact .of_ok h rfl (.eq hop.1 hop.2.1)
  · exact .of_ok h rfl (.not (.eq hop.1 hop.2.1))
  · exact .of_ok h rfl (.not (.eq hop.1 hop.2.1))
  · exact .of_ok h rfl hop.1
  · exact .of_ok h rfl (.not hop.1)
  · exact .of_ok h rfl (.not hop.1)
  · next value b =>
      refine .of_ok h rfl (.eq hop.1 ?_)
      cases b with
      | true => exact .truth true
      | false => exact .truth false
  · exact .of_ok h rfl hop.1
  · exact .of_ok h rfl (.ite hop.1 (.numeral 1) (.numeral 0))
  · exact .of_ok h rfl (.ite hop.1 (.real false 1 0) (.real false 0 0))
  · contradiction

/-- Numbers keep to sorts. -/
theorem keeps_applyNumeric (hsort : HasSort.IsNumber s.sort) {zero : Sexp}
    (hzero : HasSort Γ zero s.sort) (hop : ∀ q ∈ op.operands s, HasSort Γ q.1 q.2)
    (h : s.applyNumeric zero op = .ok e) : op.Keeps Γ s e := by
  unfold applyNumeric at h
  split at h <;> simp only [Operation.operands, List.forall_mem_cons] at hop
  · exact .of_ok h rfl (.eq hop.1 hop.2.1)
  · exact .of_ok h rfl (.not (.eq hop.1 hop.2.1))
  · exact .of_ok h rfl (.comparison hsort _ hop.1 hop.2.1)
  · exact .of_ok h rfl (.arithmetic hsort _ hop.1 hop.2.1)
  · exact .of_ok h rfl (.not (.eq hop.1 hzero))
  · exact .of_ok h rfl (.eq hop.1 hzero)
  · exact .of_ok h rfl (.ite (.eq hop.1 hzero) (.truth false) (.truth true))
  · contradiction

theorem keeps_applyInt (hsort : s.sort = intSort) (hop : ∀ q ∈ op.operands s, HasSort Γ q.1 q.2)
    (h : s.applyInt op = .ok e) : op.Keeps Γ s e := by
  have hzero : HasSort Γ (.nat 0) s.sort := hsort ▸ .numeral 0
  unfold applyInt at h
  split at h
  case h_4 => exact keeps_applyNumeric (.inl hsort) hzero hop h
  all_goals simp only [Operation.operands, hsort, List.forall_mem_cons] at hop
  · exact .of_ok h rfl (.eq hop.1 (.int _))
  · exact .of_ok h rfl hop.1
  · exact .of_ok h rfl (.app₁ (.of_mem (List.mem_append_left _ (by decide))) hop.1)

theorem keeps_applyReal (hsort : s.sort = realSort)
    (hop : ∀ q ∈ op.operands s, HasSort Γ q.1 q.2) (h : s.applyReal op = .ok e) :
    op.Keeps Γ s e := by
  have hzero : HasSort Γ (.atom "0.0") s.sort := hsort ▸ .real false 0 0
  unfold applyReal at h
  split at h
  case h_5 => exact keeps_applyNumeric (.inr hsort) hzero hop h
  all_goals simp only [Operation.operands, hsort, List.forall_mem_cons] at hop
  · exact .of_ok h rfl (.eq hop.1 (.real _ _ _))
  · exact .of_ok h rfl (.eq hop.1 (.real _ _ _))
  · exact .of_ok h rfl hop.1
  · exact .of_ok h rfl (.app₁ (.of_mem (List.mem_append_left _ (by decide))) hop.1)

/-! ## references -/

/-- What all references share: how tags are ordered, and the objects that they can become. -/
structure HasObjects (Γ : Signature) : Prop where
  subtype : Γ.Names (.atom "subtype") [typeSort, typeSort] boolSort
  null : HasSort Γ (.atom "Object_null") TypeRef.object.sort
  constructor : Γ.Names (.atom "Object_ctor") [intSort, typeSort] TypeRef.object.sort

/-- What the operations of a reference use: its null, its pointer and type, and its tag. -/
structure Referable (Γ : Signature) (s : Sentence) (null : Sexp) : Prop where
  null : HasSort Γ null s.sort
  pointer : Γ.Names (.atom s.pointerAccessor) [s.sort] intSort
  type : Γ.Names (.atom s.typeAccessor) [s.sort] typeSort
  tag : HasSort Γ (.atom s.tag) typeSort

/-- References keep to sorts. -/
theorem keeps_applyReference (hobjects : HasObjects Γ) {null : Sexp} (hs : s.Referable Γ null)
    (hop : ∀ q ∈ op.operands s, HasSort Γ q.1 q.2) (h : s.applyReference null op = .ok e) :
    op.Keeps Γ s e := by
  -- tests for null are left out for value types
  have hnullable : ∀ {a}, op.resultSort? s = some boolSort → HasSort Γ a boolSort →
      (if s.isNullable then .ok a else s.unsupported op) = .ok e → op.Keeps Γ s e := by
    intro a hσ ha h
    split at h
    · exact .of_ok h hσ ha
    · contradiction
  unfold applyReference at h
  dsimp only at h
  split at h <;> simp only [Operation.operands, List.forall_mem_cons] at hop
  · exact .of_ok h rfl (.eq hop.1 hop.2.1)
  · exact .of_ok h rfl (.eq hop.1 hop.2.1)
  · exact .of_ok h rfl (.not (.eq hop.1 hop.2.1))
  · exact .of_ok h rfl (.not (.eq hop.1 hop.2.1))
  · exact hnullable rfl (.eq hop.1 hs.null) h
  · exact hnullable rfl (.eq hop.1 hs.null) h
  · exact hnullable rfl (.eq hop.1 hs.null) h
  · exact hnullable rfl (.not (.eq hop.1 hs.null)) h
  · exact hnullable rfl (.not (.eq hop.1 hs.null)) h
  · exact .of_ok h rfl (.app₁ hs.type hop.1)
  · exact .of_ok h rfl (.and (.not (.eq hop.1 hs.null))
      (.app₂ hobjects.subtype (.app₁ hs.type hop.1) hop.2.1))
  · exact .of_ok h rfl (.eq (.app₁ hs.type hop.1) hop.2.1)
  · exact .of_ok h rfl (.and (.not (.eq hop.1 hs.null)) (.eq (.app₁ hs.type hop.1) hs.tag))
  · exact .of_ok h rfl (.eq (.app₁ hs.pointer hop.1) (.numeral _))
  · next value target =>
      split at h
      · next htarget =>
          subst htarget
          exact .of_ok h rfl (.ite (.eq hop.1 hs.null) hobjects.null
            (.app₂ hobjects.constructor (.app₁ hs.pointer hop.1) (.app₁ hs.type hop.1)))
      · split at h
        · next htarget =>
            subst htarget
            exact .of_ok h rfl hop.1
        · contradiction
  · contradiction

/-- Strings keep to sorts. -/
theorem keeps_applyStr (hobjects : HasObjects Γ) (hs : s.Referable Γ (.atom (s.name ++ "_null")))
    (hvalue : Γ.Names (.atom (s.name ++ "_value")) [s.sort] textSort)
    (hop : ∀ q ∈ op.operands s, HasSort Γ q.1 q.2) (h : s.applyStr op = .ok e) :
    op.Keeps Γ s e := by
  unfold applyStr at h
  split at h
  case h_3 => exact keeps_applyReference hobjects hs hop h
  all_goals simp only [Operation.operands, List.forall_mem_cons] at hop
  · exact .of_ok h rfl (.app₁ (.of_mem (List.mem_append_left _ (by decide))) (.app₁ hvalue hop.1))
  · exact .of_ok h rfl (.and (.not (.eq hop.1 hs.null)) (.eq (.app₁ hvalue hop.1) (.text _)))

/-- Arrays keep to sorts. -/
theorem keeps_applyArray {element : TypeRef} (hsort : s.sort = SeqArray.sort element.sort)
    (helement : s.elementSort? = some element.sort) (hΓ : Γ.Includes (.ofLines preamble))
    (hobjects : HasObjects Γ)
    (hs : s.Referable Γ (.app "as" [.atom SeqArray.null, SeqArray.sort element.sort]))
    (hop : ∀ q ∈ op.operands s, HasSort Γ q.1 q.2) (h : s.applyArray element.sort op = .ok e) :
    op.Keeps Γ s e := by
  have hlength : ∀ {a}, HasSort Γ a (SeqArray.sort element.sort) →
      HasSort Γ (.app "seq.len" [.contents element.sort a]) intSort :=
    fun ha => .seqLen (.contents hΓ ha)
  unfold applyArray at h
  dsimp only at h
  split at h
  case h_7 => exact keeps_applyReference hobjects hs hop h
  all_goals simp only [Operation.operands, hsort, helement, Option.map_some, Option.toList_some,
    List.forall_mem_cons] at hop
  · exact .of_ok h rfl (hlength hop.1)
  · exact .of_ok h helement (.seqNth (.contents hΓ hop.1) hop.2.1)
  · refine .of_ok h (congrArg some hsort) (.array hΓ (.app₁ (.arrayPointer hΓ _) hop.1)
      (.app₁ (.arrayType hΓ _) hop.1) ?_)
    exact .seqUpdate (.contents hΓ hop.1) hop.2.1 (.seqUnit hop.2.2.1)
  · exact .of_ok h rfl (.comparison (.inl rfl) .lt hop.2.1 (.numeral 0))
  · exact .of_ok h rfl (.comparison (.inl rfl) .ge hop.2.1 (hlength hop.1))
  · exact .of_ok h rfl (.and (.comparison (.inl rfl) .le (.numeral 0) hop.2.1)
      (.comparison (.inl rfl) .lt hop.2.1 (hlength hop.1)))

/-! ## fields -/

section

variable {exceptionBase : Option TypeRef} {p : Program} {space name : String}
  {arguments : List TypeRef} (hs : encode exceptionBase p (.named space name arguments) = .ok s)
  (hnames : s.accessorNames.Nodup) (hΓ : Γ.Includes (.ofLines s.declarations)) {g : FieldAccessor}

include hs

theorem sort_accessor_of_mem_fields (hg : g ∈ s.fields) :
    g.accessor.sort = g.type.sort := by
  rw [fields_of_encode hs] at hg
  obtain ⟨field, -, rfl⟩ := List.mem_map.1 hg
  rfl

include hnames hΓ

theorem names_fieldAccessor (hg : g ∈ s.fields) :
    Γ.Names (.atom g.accessor.name) [s.sort] g.type.sort := by
  rw [← sort_accessor_of_mem_fields hs hg]
  refine names_accessor hΓ (encoded_of_encode hs).2 (hasDatatype_of_encode_named hs) hnames ?_
  rw [fieldAccessors_eq_map hs]
  exact List.mem_map_of_mem hg

variable {a v : Sexp} {f : String}

/-- Reading keeps to sorts. -/
theorem keeps_loadField (ha : HasSort Γ a s.sort) (h : s.apply (.loadField a f) = .ok e) :
    (Operation.loadField a f).Keeps Γ s e := by
  obtain ⟨g, hg, rfl⟩ := apply_loadField_eq_ok_iff.1 h
  have hsort : s.fieldSort? f = some g.type.sort := by rw [fieldSort?, hg]; rfl
  exact ⟨_, hsort, .app₁ (names_fieldAccessor hs hnames hΓ (List.mem_of_find?_eq_some hg)) ha⟩

/-- The stored value takes the place of a value of the same sort. -/
theorem hasSort_stored (ha : HasSort Γ a s.sort) (hv : ∀ σ, s.fieldSort? f = some σ → HasSort Γ v σ)
    (hg : g ∈ s.fields) :
    HasSort Γ (if g.field = f then v else .app g.accessor.name [a]) g.type.sort := by
  split
  · next hfield =>
      -- the sort of a stored value is that of the first field with the name, which is this one
      obtain ⟨g', hg'⟩ := exists_field?_iff.2 ⟨g, hg, hfield⟩
      have hfield' : g'.field = f := by simpa using List.find?_some hg'
      obtain rfl := eq_of_field_eq hs hnames hg (List.mem_of_find?_eq_some hg')
        (hfield.trans hfield'.symm)
      exact hv _ (by rw [fieldSort?, hg']; rfl)
  · exact .app₁ (names_fieldAccessor hs hnames hΓ hg) ha

/-- Replacing keeps to sorts. -/
theorem keeps_storeField (hpointer : Γ.Names (.atom s.pointerAccessor) [s.sort] intSort)
    (htype : Γ.Names (.atom s.typeAccessor) [s.sort] typeSort) (ha : HasSort Γ a s.sort)
    (hv : ∀ σ, s.fieldSort? f = some σ → HasSort Γ v σ)
    (h : s.apply (.storeField a f v) = .ok e) : (Operation.storeField a f v).Keeps Γ s e := by
  obtain ⟨-, rfl⟩ := apply_storeField_eq_ok_iff.1 h
  have hctor :=
    names_constructor hΓ (encoded_of_encode hs).2 (hasDatatype_of_encode_named hs) hnames
  have hsorts : s.fieldAccessors.map (·.sort) = s.fields.map (·.type.sort) := by
    rw [fieldAccessors_eq_map hs, List.map_map]
    exact List.map_congr_left fun g hg => sort_accessor_of_mem_fields hs hg
  refine ⟨_, rfl, .app hctor (by simp) (by simp [hsorts]) ?_⟩
  rw [hsorts]
  simp only [List.zip_cons_cons, List.forall_mem_cons, List.zip_map', List.forall_mem_map]
  exact ⟨.app₁ hpointer ha, .app₁ htype ha, fun g hg => hasSort_stored hs hnames hΓ ha hv hg⟩

end

end Sentence

/-! ## declarations of repositories -/

namespace TypeRepository

variable {X : List Sentence} {s : Sentence}

section

variable {α : Type} (read part : Sexp → List α)
  (hread : ∀ bodies, read (.declareDatatypes [] bodies) = bodies.flatMap part)

include hread

/-- What a reader finds in the declarations of a sentence stands in those of its group. -/
theorem read_subset_of_mem (hX : IsGroup X) (hs : s ∈ X) :
    s.declarations.flatMap read ⊆ (jointDeclarations X).flatMap read := by
  obtain ⟨x, rfl⟩ | ⟨hne, hdatatype⟩ := hX.kind
  · rw [List.mem_singleton.1 hs]
    exact List.Subset.refl _
  · obtain ⟨body, hbody, -⟩ := Sentence.datatypeBody?_of_hasDatatype (hdatatype s hs)
    have htag := tagLine_mem hs (isReference_of_hasDatatype (hdatatype s hs))
    have hlines : s.tagLine :: s.baseLine?.toList ⊆
        (X.filter (·.isReference)).map (·.tagLine) ++ X.filterMap (·.baseLine?) := by
      refine List.cons_subset.2 ⟨List.mem_append_left _ htag, fun line hline => ?_⟩
      exact List.mem_append_right _
        (List.mem_filterMap.2 ⟨s, hs, Option.mem_toList.1 hline⟩)
    rw [(hX.encoded s hs).declarations_of_datatypeBody? hbody, jointDeclarations_eq hX,
      sortLines_of_ne hne, List.flatMap_append, List.flatMap_cons, List.flatMap_singleton, hread,
      hread]
    intro a ha
    obtain ha | ha := List.mem_append.1 ha
    · obtain ⟨b, hb, ha⟩ := List.mem_flatMap.1 ha
      rw [List.mem_singleton.1 hb] at ha
      exact List.mem_append_left _
        (List.mem_flatMap.2 ⟨body, List.mem_filterMap.2 ⟨s, hs, hbody⟩, ha⟩)
    · obtain ⟨line, hline, ha⟩ := List.mem_flatMap.1 ha
      exact List.mem_append_right _ (List.mem_flatMap.2 ⟨line, hlines hline, ha⟩)

theorem read_subset_of_find? {r : TypeRepository} (hr : r.Declarable) {t : TypeRef}
    (hs : r.find? t = some s) :
    s.declarations.flatMap read ⊆ r.declarations.flatMap read := by
  obtain ⟨X, hX, hmem⟩ := (grouping_groups hr).exists_mem hr hs
  intro a ha
  have ha := read_subset_of_mem read part hread ((grouping_groups hr).isGroup hr hX) hmem ha
  rw [declarations_eq, List.flatMap_append, List.flatMap_assoc]
  exact List.mem_append_right _ (List.mem_flatMap.2 ⟨X, hX, ha⟩)

end

theorem includes_declarations {r : TypeRepository} (hr : r.Declarable) {t : TypeRef}
    (hs : r.find? t = some s) :
    (Signature.ofLines r.declarations).Includes (.ofLines s.declarations) := by
  rw [Signature.includes_ofLines]
  exact ⟨read_subset_of_find? Sexp.ranks (Sexp.datatypeRanks []) (fun _ => rfl) hr hs,
    read_subset_of_find? Sexp.sortDefinitions (fun _ => []) (fun bodies => by simp) hr hs⟩

end TypeRepository

namespace Sentence

variable {exceptionBase : Option TypeRef} {p : Program} {t : TypeRef} {s o : Sentence}
  {Γ : Signature}

/-! ## sentences of types -/

theorem hasObjects_of_encode (hpreamble : Γ.Includes (.ofLines preamble))
    (ho : encode exceptionBase p .object = .ok o) (hΓ : Γ.Includes (.ofLines o.declarations)) :
    HasObjects Γ := by
  have hencoded := (encoded_of_encode ho).2
  obtain rfl := Except.ok.inj ho
  exact ⟨.of_mem (hpreamble.mem_ranks (by decide)), hasSort_null hΓ hencoded rfl,
    names_constructor hΓ hencoded rfl (by decide)⟩

theorem Encoded.referable_of_hasDatatype (hs : s.Encoded) (hdatatype : s.hasDatatype = true)
    (hnames : s.accessorNames.Nodup) (hΓ : Γ.Includes (.ofLines s.declarations)) :
    s.Referable Γ (.atom (s.name ++ "_null")) := by
  have href := TypeRepository.isReference_of_hasDatatype hdatatype
  refine ⟨hasSort_null hΓ hs hdatatype, ?_, ?_,
    .constant (.of_mem (hΓ.mem_ranks (tagRank_mem href)))⟩
  · rw [pointerAccessor_of_hasDatatype hdatatype]
    exact .of_mem (mem_constructorRanks hΓ hs hdatatype hnames (by simp))
  · rw [typeAccessor_of_hasDatatype hdatatype]
    exact .of_mem (mem_constructorRanks hΓ hs hdatatype hnames (by simp))

theorem referable_array {element : TypeRef} (hpreamble : Γ.Includes (.ofLines preamble))
    (hs : s = .reference (.array element) (.array element) (some .object) [element])
    (hΓ : Γ.Includes (.ofLines s.declarations)) :
    s.Referable Γ (.app "as" [.atom SeqArray.null, SeqArray.sort element.sort]) := by
  have htag := hΓ.mem_ranks (tagRank_mem (s := s) (by rw [hs]; rfl))
  subst hs
  exact ⟨.arrayNull hpreamble _, .arrayPointer hpreamble _, .arrayType hpreamble _,
    .constant (.of_mem htag)⟩

/-- One sentence at a time: the shape of a sentence and its declarations belong together. -/
theorem keeps_apply (hs : encode exceptionBase p t = .ok s) (hnames : s.accessorNames.Nodup)
    (hpreamble : Γ.Includes (.ofLines preamble)) (hobjects : HasObjects Γ)
    (hΓ : Γ.Includes (.ofLines s.declarations)) {op : Operation} {e : Sexp}
    (hop : ∀ q ∈ op.operands s, HasSort Γ q.1 q.2) (h : s.apply op = .ok e) :
    op.Keeps Γ s e := by
  have hencoded := (encoded_of_encode hs).2
  have href : s.hasDatatype = true → s.Referable Γ (.atom (s.name ++ "_null")) :=
    fun hdatatype => hencoded.referable_of_hasDatatype hdatatype hnames hΓ
  obtain ⟨shape, ⟨rfl, rfl⟩ | ⟨rfl, rfl⟩ | ⟨rfl, rfl⟩, rfl⟩ | ⟨rfl, rfl⟩ | ⟨rfl, rfl⟩ |
    ⟨element, rfl, rfl⟩ |
    ⟨space, name, arguments, d, rfl, -, ⟨-, base, rfl⟩ | ⟨-, fields, flag, base, -, rfl⟩⟩ :=
    encode_cases hs
  · exact keeps_applyBool rfl hop h
  · exact keeps_applyInt rfl hop h
  · exact keeps_applyReal rfl hop h
  · have hvalue := names_accessor hΓ hencoded rfl hnames (List.mem_singleton_self _)
    exact keeps_applyStr hobjects (href rfl) hvalue hop h
  · exact keeps_applyReference hobjects (href rfl) hop h
  · exact keeps_applyArray rfl rfl hpreamble hobjects (referable_array hpreamble rfl hΓ) hop h
  · exact keeps_applyReference hobjects (href rfl) hop h
  · have href := href rfl
    cases op with
    | loadField a f =>
        simp only [Operation.operands, List.forall_mem_cons] at hop
        exact keeps_loadField hs hnames hΓ hop.1 h
    | storeField a f v =>
        simp only [Operation.operands, List.forall_mem_cons] at hop
        refine keeps_storeField hs hnames hΓ href.pointer href.type hop.1 (fun σ hσ => ?_) h
        exact hop.2 (v, σ) (by rw [hσ]; exact List.mem_singleton_self _)
    | _ => exact keeps_applyReference hobjects href hop h

/-- **Operations keep to sorts**: take a sentence whose accessors have different names, and an
operation whose terms have the sorts that it expects of them. If the sentence has the operation, the
term that it writes has the sort of the operation, under any declarations that include the preamble
and those of `Object` and of the sentence. The declarations of a repository include them. -/
theorem hasSort_apply (hs : encode exceptionBase p t = .ok s)
    (ho : encode exceptionBase p .object = .ok o) (hnames : s.accessorNames.Nodup) :
    (∀ Γ : Signature, Γ.Includes (.ofLines (preamble ++ o.declarations ++ s.declarations)) →
      ∀ (op : Operation) (e : Sexp), (∀ q ∈ op.operands s, HasSort Γ q.1 q.2) →
        s.apply op = .ok e → ∃ σ, op.resultSort? s = some σ ∧ HasSort Γ e σ) ∧
    ∀ r : TypeRepository, r.Declarable → r.find? t = some s → r.find? .object = some o →
      (Signature.ofLines r.declarations).Includes
        (.ofLines (preamble ++ o.declarations ++ s.declarations)) := by
  constructor
  · intro Γ hΓ op e hop h
    rw [Signature.includes_append, Signature.includes_append] at hΓ
    obtain ⟨⟨hpreamble, hobject⟩, hown⟩ := hΓ
    exact keeps_apply hs hnames hpreamble (hasObjects_of_encode hpreamble ho hobject) hown hop h
  · intro r hr hfind hobject
    rw [Signature.includes_append, Signature.includes_append]
    refine ⟨⟨?_, TypeRepository.includes_declarations hr hobject⟩,
      TypeRepository.includes_declarations hr hfind⟩
    rw [TypeRepository.declarations_eq]
    exact (Signature.includes_append.1 (.refl _)).1

end Sentence

/-! ## a sample -/

namespace Sample

/-- Arrays of arrays. -/
def rows : TypeRef := .array (.array .int32)

/-- A repository with rows and what they refer to. -/
def grid : TypeRepository := .encodeAll tree [rows, .array .int32, .int32, .object]

/-- Two arrays: one whose elements are arrays, one that can be an element of it. Their sorts go by
the names that the declarations give them. -/
def gridLines : List Sexp :=
  [.declareConst "xs" (.atom "Int_Array_Array"), .declareConst "x" (.atom "Int_Array")]

/-- An element of an array of arrays is replaced. -/
theorem row_replaced : ∃ s o e, Sentence.encode none tree rows = .ok s ∧
    Sentence.encode none tree .object = .ok o ∧ s.accessorNames.Nodup ∧ grid.Declarable ∧
    grid.find? rows = some s ∧ grid.find? .object = some o ∧
    s.apply (.storeElement (.atom "xs") (.nat 0) (.atom "x")) = .ok e ∧
    HasSort (.ofLines (grid.declarations ++ gridLines)) e
      (SeqArray.sort (SeqArray.sort intSort)) := by
  have hstored : ∀ t s, grid.find? t = some s → (t, s) ∈ grid.sentences.entries :=
    fun t s => Table.mem_entries_of_find?
  have hclosed : (grid.sentences.entries.all fun entry =>
      entry.2.dependencies.all grid.contains) = true := rfl
  have hsymbols : ∀ entry ∈ grid.sentences.entries, ∀ other ∈ grid.sentences.entries,
      entry.1.symbol = other.1.symbol → entry.1 = other.1 := by decide
  have hbases : ∀ entry ∈ grid.sentences.entries, ∀ b ∈ entry.2.base.toList, b = .object := by
    decide
  have hgrid : grid.Declarable :=
    { built := TypeRepository.built_encodeAll _ _
      closed := fun t s hs => List.all_eq_true.1 (List.all_eq_true.1 hclosed _ (hstored t s hs))
      symbols := fun t u ht hu => by
        obtain ⟨s, hs⟩ := Option.isSome_iff_exists.1 ht
        obtain ⟨x, hx⟩ := Option.isSome_iff_exists.1 hu
        exact hsymbols _ (hstored t s hs) _ (hstored u x hx)
      bases := fun t s b hs hb => by
        rw [hbases _ (hstored t s hs) b (Option.mem_toList.2 hb)]
        simp [TypeRef.HasDatatype, TypeRef.IsReference] }
  have hs : Sentence.encode none tree rows =
      .ok (.reference rows (.array (.array .int32)) (some .object) [.array .int32]) := rfl
  have ho : Sentence.encode none tree .object = .ok (.reference .object .object none []) := rfl
  have hfind : grid.find? rows =
      some (.reference rows (.array (.array .int32)) (some .object) [.array .int32]) := rfl
  have hfind' : grid.find? .object = some (.reference .object .object none []) := rfl
  have hrow : grid.find? (.array .int32) =
      some (.reference (.array .int32) (.array .int32) (some .object) [.int32]) := rfl
  obtain ⟨hsorts, hincludes⟩ := Sentence.hasSort_apply hs ho List.nodup_nil
  obtain ⟨hdeclared, hlines⟩ :=
    Signature.includes_append.1 (.refl (.ofLines (grid.declarations ++ gridLines)))
  have hΓ := hdeclared.trans (hincludes grid hgrid hfind hfind')
  have hΓrow := hdeclared.trans (TypeRepository.includes_declarations hgrid hrow)
  -- the constants have the sorts that the names stand for
  have hxs : HasSort (.ofLines (grid.declarations ++ gridLines)) (.atom "xs") rows.sort :=
    .alias (hΓ.aliases (by decide : ("Int_Array_Array", rows.sort) ∈ _))
      (.constant (.of_mem (hlines.mem_ranks (by decide))))
  have hx :
      HasSort (.ofLines (grid.declarations ++ gridLines)) (.atom "x") (SeqArray.sort intSort) :=
    .alias (hΓrow.aliases (by decide : ("Int_Array", SeqArray.sort intSort) ∈ _))
      (.constant (.of_mem (hlines.mem_ranks (by decide))))
  have hoperands : ∀ q ∈ [(.atom "xs", rows.sort), (.nat 0, intSort), (.atom "x",
      SeqArray.sort intSort)], HasSort (.ofLines (grid.declarations ++ gridLines)) q.1 q.2 := by
    simpa using ⟨hxs, .numeral 0, hx⟩
  obtain ⟨σ, hσ, he⟩ :=
    hsorts _ hΓ (.storeElement (.atom "xs") (.nat 0) (.atom "x")) _ hoperands rfl
  obtain rfl := Option.some.inj hσ
  exact ⟨_, _, _, hs, ho, List.nodup_nil, hgrid, hfind, hfind', rfl, he⟩

end Sample

end Pathwise
