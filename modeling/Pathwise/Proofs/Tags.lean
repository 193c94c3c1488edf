import Pathwise.Proofs.Declarations.Lines
import Pathwise.Proofs.Renumbering.Form
import Pathwise.Proofs.Resolution.Independence

/-!
# Pathwise.Proofs.Tags

Which tags are used, and which are declared. The declarations of a repository
introduce the tags of the reference types that it stores, and no other constants
(`TypeRepository.Built.declareConst_mem_iff`); what they assert orders a type below
its base (`TypeRepository.Built.assert_mem_cases`).

A form uses only tags of types that its method mentions, and these are stored with
it. Hence the tags that are used are declared, but for those of scalars
(`Engine.declares_tags`): scalars have sentences, but a tag only by name.
-/

namespace Pathwise

namespace TypeRef

theorem getLast?_tag (t : TypeRef) : t.tag.toList.getLast? = some 'g' := by
  simp [tag]

/-- No tag is a truth value, a numeral or a null. -/
theorem tag_ne_of_getLast? {t : TypeRef} {x : String} (h : x.toList.getLast? ≠ some 'g') :
    x ≠ t.tag := by
  rintro rfl
  exact h t.getLast?_tag

end TypeRef

/-! ## what is declared -/

/-- Commands other than those for sorts. -/
def Sexp.IsTagLine (line : Sexp) : Prop :=
  line.head? ≠ some "define-sort" ∧ line.head? ≠ some "declare-datatypes"

theorem Sexp.IsTagLine.declareConst (x : String) (sort : Sexp) :
    (Sexp.declareConst x sort).IsTagLine := by
  simp [IsTagLine, Sexp.declareConst, app, head?]

theorem Sexp.IsTagLine.assert (a : Sexp) : (Sexp.assert a).IsTagLine := by
  simp [IsTagLine, Sexp.assert, app, head?]

namespace Sentence

variable {s : Sentence} {line a : Sexp} {x : String}

theorem not_mem_datatypeDeclaration? (h : line.IsTagLine) :
    line ∉ s.datatypeDeclaration?.toList := by
  intro hmem
  rw [Option.mem_toList] at hmem
  unfold datatypeDeclaration? at hmem
  split at hmem
  · obtain rfl := Option.some.inj hmem
    exact h.1 rfl
  · obtain ⟨body, -, rfl⟩ := Option.map_eq_some_iff.1 hmem
    exact h.2 rfl

theorem declareConst_mem_tagDeclarations :
    .declareConst x typeSort ∈ s.tagDeclarations ↔ s.isReference = true ∧ s.tag = x := by
  by_cases href : s.isReference = true
  · have hbase : .declareConst x typeSort ∉ s.baseLine?.toList := by
      unfold baseLine?
      cases s.base <;> simp [Sexp.declareConst, Sexp.assert, Sexp.app]
    rw [tagDeclarations_of_isReference href, List.mem_cons, or_iff_left hbase]
    simp [href, tagLine, Sexp.declareConst, Sexp.app, eq_comm]
  · simp [tagDeclarations, href]

theorem assert_mem_tagDeclarations (h : .assert a ∈ s.tagDeclarations) :
    s.isReference = true ∧ ∃ b, s.base = some b ∧ a = .subtype (.atom s.tag) (.atom b.tag) := by
  by_cases href : s.isReference = true
  · refine ⟨href, ?_⟩
    rw [tagDeclarations_of_isReference href] at h
    cases List.mem_cons.1 h with
    | inl heq => simp [Sexp.assert, tagLine, Sexp.declareConst, Sexp.app] at heq
    | inr hmem =>
        obtain ⟨b, hb, heq⟩ := Option.map_eq_some_iff.1 (Option.mem_toList.1 hmem)
        have ha : Sexp.subtype (.atom s.tag) (.atom b.tag) = a := by
          simpa [Sexp.assert, Sexp.app] using heq
        exact ⟨b, hb, ha.symm⟩
  · simp [tagDeclarations, href] at h

end Sentence

namespace TypeRepository

variable {r : TypeRepository} {line a : Sexp} {x : String}

/-- Apart from sorts a group declares what each of its sentences does. -/
theorem mem_jointDeclarations_iff (h : line.IsTagLine) {X : List Sentence} :
    line ∈ jointDeclarations X ↔ ∃ s ∈ X, line ∈ s.tagDeclarations := by
  unfold jointDeclarations
  split
  · next s =>
      have hsort := s.not_mem_datatypeDeclaration? h
      simp [Sentence.declarations, hsort]
  · have hsorts : line ≠ .declareDatatypes [] (X.filterMap (·.datatypeBody?)) := by
      rintro rfl
      exact h.2 rfl
    have hsplit : ∀ s : Sentence, line ∈ s.tagDeclarations ↔
        s.tagDeclarations.head? = some line ∨ line ∈ s.tagDeclarations.tail := by
      intro s
      cases s.tagDeclarations <;> simp [eq_comm]
    rw [List.mem_cons, or_iff_right hsorts, List.mem_append, List.mem_filterMap, List.mem_flatMap]
    simp only [hsplit, and_or_left, exists_or]

/-- Apart from sorts a repository declares what each of its sentences does. -/
theorem Built.mem_declarations_iff (hr : r.Built) (h : line.IsTagLine) :
    line ∈ r.declarations ↔
      line ∈ preamble ∨ ∃ t s, r.find? t = some s ∧ line ∈ s.tagDeclarations := by
  have hgroups : (∃ X ∈ r.groups, line ∈ jointDeclarations X) ↔
      ∃ s ∈ r.groups.flatten, line ∈ s.tagDeclarations := by
    simp only [mem_jointDeclarations_iff h, List.mem_flatten]
    constructor
    · rintro ⟨X, hX, s, hs, hline⟩
      exact ⟨s, ⟨X, hX, hs⟩, hline⟩
    · rintro ⟨s, ⟨X, hX, hs⟩, hline⟩
      exact ⟨X, hX, s, hs, hline⟩
  rw [declarations_eq, List.mem_append, List.mem_flatMap, hgroups]
  refine or_congr_right ?_
  constructor
  · rintro ⟨s, hs, hline⟩
    exact ⟨s.type, s, hr.mem_sorted.1 (hr.perm_groups.mem_iff.1 hs), hline⟩
  · rintro ⟨t, s, hs, hline⟩
    obtain ⟨rfl, -⟩ := hr.encoded hs
    exact ⟨s, hr.perm_groups.mem_iff.2 (hr.mem_sorted.2 hs), hline⟩

/-- **Declared tags** are those of the stored reference types. -/
theorem Built.declareConst_mem_iff (hr : r.Built) : .declareConst x typeSort ∈ r.declarations ↔
    ∃ t s, r.find? t = some s ∧ s.isReference = true ∧ s.tag = x := by
  have hpreamble : .declareConst x typeSort ∉ preamble := by
    simp [preamble, Sexp.declareConst, Sexp.assert, Sexp.declareDatatypes, Sexp.app]
  rw [hr.mem_declarations_iff (.declareConst x typeSort)]
  simp only [hpreamble, false_or, Sentence.declareConst_mem_tagDeclarations]

/-- **What declarations assert**: that a type is a subtype of its base. The preamble asserts nothing
about tags. -/
theorem Built.assert_mem_cases (hr : r.Built) (h : .assert a ∈ r.declarations) :
    (∀ t : TypeRef, t.tag ∉ a.constants) ∨ ∃ t s b, r.find? t = some s ∧ s.isReference = true ∧
      s.base = some b ∧ a = .subtype (.atom s.tag) (.atom b.tag) := by
  obtain hpreamble | ⟨t, s, hs, hline⟩ := (hr.mem_declarations_iff (.assert a)).1 h
  · refine Or.inl fun t ht => ?_
    have hlines : ∀ line ∈ preamble, ∀ x ∈ line.constants, x.toList.getLast? ≠ some 'g' := by
      decide
    have hmem : t.tag ∈ (Sexp.assert a).constants := by
      simpa [Sexp.assert, Sexp.app, Sexp.constants, Sexp.constantsList] using ht
    exact TypeRef.tag_ne_of_getLast? (hlines _ hpreamble _ hmem) rfl
  · obtain ⟨href, b, hb, ha⟩ := Sentence.assert_mem_tagDeclarations hline
    exact Or.inr ⟨t, s, b, hs, href, hb, ha⟩

end TypeRepository

/-! ## bases -/

/-- No declared base is a scalar. -/
def Program.HasReferenceBases (p : Program) : Prop :=
  ∀ t d b, p.typeDef? t = some d → d.base = some b → b.IsReference

theorem Program.HasReferenceBases.isReference_of_encode {p : Program} (hp : p.HasReferenceBases)
    {exceptionBase : Option TypeRef} {t b : TypeRef} {s : Sentence}
    (h : Sentence.encode exceptionBase p t = .ok s) (hb : s.base = some b) : b.IsReference := by
  have hobject : TypeRef.object.IsReference := by simp [TypeRef.IsReference]
  unfold Sentence.encode at h
  split at h
  · obtain rfl := Except.ok.inj h; contradiction
  · obtain rfl := Except.ok.inj h; contradiction
  · obtain rfl := Except.ok.inj h; contradiction
  · obtain rfl := Except.ok.inj h
    exact Option.some.inj hb ▸ hobject
  · obtain rfl := Except.ok.inj h; contradiction
  · contradiction
  · split at h
    · contradiction
    · obtain rfl := Except.ok.inj h
      exact Option.some.inj hb ▸ hobject
  · split at h
    · contradiction
    · next d hd =>
        unfold Sentence.ofDef at h
        split at h
        · obtain rfl := Except.ok.inj h
          have hbase : d.base.getD .object = b := Option.some.inj hb
          cases hdeclared : d.base with
          | none =>
              rw [hdeclared] at hbase
              exact hbase ▸ hobject
          | some b' =>
              rw [hdeclared] at hbase
              exact hp _ d b hd (hdeclared.trans (congrArg some hbase))
        · simp only [bind_eq_ok, pure_eq_ok] at h
          obtain ⟨fields, -, rfl⟩ := h
          have hbase : Sentence.baseOf d = some b := hb
          unfold Sentence.baseOf at hbase
          split at hbase
          · next b' hdeclared => exact hp _ d b hd (hdeclared.trans hbase)
          · split at hbase
            · contradiction
            · exact Option.some.inj hbase ▸ hobject

/-! ## what is used -/

/-- A tag that a form uses: a constant of its assertions and guards, unless the form itself declares
a static field of that name. -/
def Form.UsesTag (f : Form) (t : TypeRef) : Prop :=
  t.tag ∉ f.symbols ∧ ∃ q ∈ f.statements, ∃ a ∈ q.statement.terms, t.tag ∈ a.constants

instance (f : Form) (t : TypeRef) : Decidable (f.UsesTag t) :=
  inferInstanceAs (Decidable (_ ∧ ∃ q ∈ f.statements, ∃ a ∈ q.statement.terms, _))

namespace Engine

variable {e : Engine} {t : TypeRef}

/-- The declarations introduce the tag of a type. -/
def DeclaresTag (e : Engine) (t : TypeRef) : Prop := .declareConst t.tag typeSort ∈ e.declarations

/-- The declarations assert something about the tag of a type. -/
def OrdersTag (e : Engine) (t : TypeRef) : Prop :=
  ∃ a, .assert a ∈ e.declarations ∧ t.tag ∈ a.constants

/-- The names without a mark, among them only those tags whose types are stored. -/
def Names (e : Engine) (x : String) : Prop :=
  '!' ∉ x.toList ∧ ∀ t : TypeRef, x = t.tag → ∃ u, e.types.contains u = true ∧ x = u.tag

theorem names_of_getLast? {x : String} (hmark : '!' ∉ x.toList)
    (h : x.toList.getLast? ≠ some 'g') : e.Names x :=
  ⟨hmark, fun _ heq => absurd heq (TypeRef.tag_ne_of_getLast? h)⟩

theorem names_tag (h : e.types.contains t = true) : e.Names t.tag :=
  ⟨t.mark_not_mem_tag, fun _ _ => ⟨t, h, rfl⟩⟩

theorem names_null (t : TypeRef) : e.Names (t.symbol ++ "_null") :=
  names_of_getLast? (by simp [TypeRef.mark_not_mem_symbol]) (by simp)

theorem vocabulary_names (e : Engine) : Vocabulary e.Names where
  mark_not_mem h := h.1
  truth b := by cases b <;> exact names_of_getLast? (by decide) (by decide)
  numeral {x} h := by
    refine names_of_getLast? (fun hmem => absurd (h.2 _ hmem) (by decide)) fun hlast => ?_
    exact absurd (h.2 _ (List.mem_of_getLast? hlast)) (by decide)
  objectNull := names_null .object

/-- A stored sentence speaks of stored tags only. -/
theorem Valid.speaks (he : e.Valid) {s : Sentence} (hs : e.types.find? t = some s) :
    s.Speaks e.Names := by
  have hencode := he.types t s hs
  refine ⟨e.vocabulary_names, names_null s.type, ?_, fun hshape f hf => ?_⟩
  · rw [Sentence.tag, Sentence.type_of_encode hencode]
    exact names_tag (Option.isSome_iff_exists.2 ⟨s, hs⟩)
  · exact Sentence.mark_not_mem_accessor hencode hshape hf

/-- **Used tags** are those of stored types. -/
theorem Grounded.exists_of_usesTag (he : e.Grounded) {m : MethodRef} {f : Form}
    (hf : e.form? m = some f) (h : f.UsesTag t) :
    ∃ u, e.types.contains u = true ∧ t.tag = u.tag := by
  obtain ⟨hown, q, hq, a, ha, hmem⟩ := h
  obtain ⟨-, rfl⟩ | ⟨hm, g, hg, -, hof⟩ := Program.formOutcome_cases (he.forms m f hf)
  · simp [Form.statements, Form.empty, Block.statements] at hq
  · have hstored : ∀ t ∈ g.mentionedTypes, e.types.contains t = true := fun t ht =>
      he.mentions m t (Option.isSome_iff_exists.2 ⟨f, hf⟩) (.mention hm hg ht)
    -- the types that matter are stored, so that the form is the one the stored sentences give
    have hform : Form.ofGraph (Staging.empty.lookup e) g = .ok f := by
      rw [← hof]
      refine Form.ofGraph_congr fun t ht => ?_
      exact lookup_of_hasType he.valid e.staged_empty (by simp [Staging.hasType, hstored t ht])
    have hspeaks : SentenceLookup.Speaks e.Names (Staging.empty.lookup e) := by
      intro t s hs
      obtain ⟨handled, hstaged⟩ | hfind := lookup_cases hs
      · contradiction
      · exact he.valid.speaks hfind
    obtain hdeclares | hscoped := Form.scoped_of_mem_statements hspeaks
      (fun t ht => names_tag (hstored t ht)) hform hq
    · obtain ⟨b, hb, hdeclares⟩ := hdeclares
      obtain ⟨v, -, offset, s, -, hst⟩ := Form.declares_of_ofGraph hform hb hdeclares
      rw [hst] at ha
      contradiction
    · obtain hnames | hdeclared := (hscoped.terms a ha).constants _ hmem
      · exact hnames.2 t rfl
      · contradiction

/-- Stored reference types have their tags declared. -/
theorem declaresTag_of_contains (hr : e.types.Built) (h : e.types.contains t = true)
    (ht : t.IsReference) : e.DeclaresTag t := by
  obtain ⟨s, hs⟩ : ∃ s, e.types.find? t = some s := Option.isSome_iff_exists.1 h
  obtain ⟨rfl, hencoded⟩ := hr.encoded hs
  exact hr.declareConst_mem_iff.2 ⟨_, s, hs, hencoded.isReference_iff.2 ht, rfl⟩

theorem Grounded.declaresTag_of_ordersTag (he : e.Grounded) (hr : e.types.Built)
    (hbases : e.program.HasReferenceBases) (h : e.OrdersTag t) : e.DeclaresTag t := by
  obtain ⟨a, ha, ht⟩ := h
  obtain hnone | ⟨u, s, b, hs, href, hb, rfl⟩ := hr.assert_mem_cases ha
  · exact absurd ht (hnone t)
  · obtain ⟨rfl, hencoded⟩ := hr.encoded hs
    obtain htag | htag : t.tag = s.tag ∨ t.tag = b.tag := by
      simpa [Sexp.subtype, Sexp.app, Sexp.constants, Sexp.constantsList] using ht
    · exact hr.declareConst_mem_iff.2 ⟨_, s, hs, href, htag.symm⟩
    · have hstored := he.closed.dependencies _ s hs b (hencoded.base_mem hb)
      have hbase := hbases.isReference_of_encode (he.valid.types _ s hs) hb
      have hdeclared := declaresTag_of_contains hr hstored hbase
      rwa [DeclaresTag, ← htag] at hdeclared

/-- **Used tags are declared**: after any requests without handlers those that a form uses, unless
they are the tags of scalars, and those that the declarations order. -/
theorem declares_tags {p : Program} (o : Options) (hbases : p.HasReferenceBases)
    {requests : List Request} (h : ∀ q ∈ requests, q.IsUnaided) :
    let e := (Engine.new p o).performAll requests
    (∀ m f t, e.form? m = some f → f.UsesTag t →
      e.DeclaresTag t ∨ ∃ u : TypeRef, ¬u.IsReference ∧ t.tag = u.tag) ∧
    ∀ t, e.OrdersTag t → e.DeclaresTag t := by
  obtain ⟨he, hprogram, -⟩ := grounded_performAll p o h
  have hr := built_performAll p o h
  refine ⟨fun m f t hf ht => ?_, fun t ht => ?_⟩
  · obtain ⟨u, hu, htag⟩ := he.exists_of_usesTag hf ht
    by_cases href : u.IsReference
    · have hdeclared := declaresTag_of_contains hr hu href
      exact Or.inl (by rwa [DeclaresTag, ← htag] at hdeclared)
    · exact Or.inr ⟨u, href, htag⟩
  · exact he.declaresTag_of_ordersTag hr (hprogram.symm ▸ hbases) ht

end Engine

/-! ## a sample -/

namespace Sample.Casts

/-- A type with a subtype. -/
def shape : TypeRef := .named "Sample" "Shape" []

/-- The subtype. -/
def square : TypeRef := .named "Sample" "Square" []

/-- Whether its argument is an instance of a type. -/
def isOf : MethodRef := .static shape "IsOf" [.object] .bool

/-- The graph of `isOf`. -/
def graph (t : TypeRef) : MethodGraph :=
  { method := isOf
    blocks := [
      { index := 0
        instructions := [⟨0, .isInstance t, some ⟨.stack 0, .bool⟩, [⟨.parameter 0, .object⟩]⟩,
          ⟨1, .ret, none, [⟨.stack 0, .bool⟩]⟩]
        successors := [] }] }

/-- Both types. -/
def types : Program :=
  (Program.empty.addType
    { type := shape, base := none, fields := [], isValueType := false }).addType
    { type := square, base := some shape, fields := [], isValueType := false }

/-- The types, and the method that tests for one of them. -/
def program (t : TypeRef) : Program := types.addMethod (graph t)

/-- The engine that has resolved `isOf`. -/
def engine (t : TypeRef) : Engine := (Engine.new (program t) {}).performAll [.method isOf [] []]

theorem hasReferenceBases_program (t : TypeRef) : (program t).HasReferenceBases := by
  intro u d b hd hb
  have hbases : ∀ entry ∈ types.types.entries, ∀ b ∈ entry.2.base, b = shape := by decide
  rw [hbases _ (Table.mem_entries_of_find? hd) b hb]
  simp [shape, TypeRef.IsReference]

theorem isUnaided_request : ∀ q ∈ [Engine.Request.method isOf [] []], q.IsUnaided := by
  simp [Engine.Request.IsUnaided]

/-- A test for `square` has its tag and that of its base declared. -/
theorem declares_square : (program square).HasReferenceBases ∧
    (∃ f, (engine square).form? isOf = some f ∧ f.UsesTag square) ∧
    (engine square).OrdersTag shape ∧ (engine square).DeclaresTag square ∧
    (engine square).DeclaresTag shape := by
  have hbases := hasReferenceBases_program square
  obtain ⟨hforms, hordered⟩ := Engine.declares_tags {} hbases isUnaided_request
  have huses : ((engine square).form? isOf).any (·.UsesTag square) = true := by decide +kernel
  obtain ⟨f, hf, huses⟩ := (Option.any_eq_true _ _).1 huses
  have hstored : ((engine square).types.find? square).any
      (.assert (.subtype (.atom square.tag) (.atom shape.tag)) ∈ ·.tagDeclarations) = true := by
    decide +kernel
  obtain ⟨s, hs, hline⟩ := (Option.any_eq_true _ _).1 hstored
  have hr := Engine.built_performAll (program square) {} isUnaided_request
  have horders : (engine square).OrdersTag shape :=
    ⟨_, (hr.mem_declarations_iff (.assert _)).2 (Or.inr ⟨_, s, hs, of_decide_eq_true hline⟩),
      by simp [Sexp.subtype, Sexp.app, Sexp.constants, Sexp.constantsList]⟩
  refine ⟨hbases, ⟨f, hf, of_decide_eq_true huses⟩, horders, ?_, hordered shape horders⟩
  refine (hforms isOf f square hf (of_decide_eq_true huses)).resolve_right ?_
  rintro ⟨u, hu, htag⟩
  have hscalar : u = .bool ∨ u = .int32 ∨ u = .float64 := by
    simpa [TypeRef.IsReference, or_iff_not_imp_left] using hu
  obtain rfl | rfl | rfl := hscalar <;> exact absurd htag (by decide +kernel)

/-- A test for `Int32` uses a tag that is not declared. -/
theorem undeclared_scalar : (program .int32).HasReferenceBases ∧
    (∃ f, (engine .int32).form? isOf = some f ∧ f.UsesTag .int32) ∧
    ¬(engine .int32).DeclaresTag .int32 := by
  have huses : ((engine .int32).form? isOf).any (·.UsesTag .int32) = true := by decide +kernel
  have hdeclared : ∀ entry ∈ (engine .int32).types.sentences.entries,
      ¬(entry.2.isReference = true ∧ entry.2.tag = TypeRef.int32.tag) := by decide +kernel
  obtain ⟨f, hf, huses⟩ := (Option.any_eq_true _ _).1 huses
  refine ⟨hasReferenceBases_program .int32, ⟨f, hf, of_decide_eq_true huses⟩, fun hline => ?_⟩
  have hr := Engine.built_performAll (program .int32) {} isUnaided_request
  obtain ⟨u, s, hs, href, htag⟩ := hr.declareConst_mem_iff.1 hline
  exact hdeclared _ (Table.mem_entries_of_find? hs) ⟨href, htag⟩

end Sample.Casts

end Pathwise
