import Pathwise.Proofs.Declarations.Groups

/-!
# Pathwise.Proofs.Declarations.Lines

The commands that declare one group of sentences. Readers say what a command
introduces. The declarations of a group have a normal form,
`jointDeclarations_eq`: the commands for sorts, then the tags, then how the tags
are ordered; what each reader finds in a group follows from it
(`read_jointDeclarations`).
-/

namespace Pathwise

/-! ## readers -/

namespace Sexp

/-- The datatypes that a command introduces together. -/
def datatypes : Sexp → List Sexp
  | .list [.atom "declare-datatypes", _, .list bodies] => bodies
  | _ => []

/-- The sort that a command gives a name, behind the name. -/
def sortDefinitions : Sexp → List (String × Sexp)
  | .list [.atom "define-sort", .atom name, _, sort] => [(name, sort)]
  | _ => []

/-- The constant that a command introduces. -/
def declared : Sexp → List String
  | .list [.atom "declare-const", .atom name, _] => [name]
  | _ => []

/-- The runtime types that a command puts below each other. -/
def subtypes : Sexp → List (String × String)
  | .list [.atom "assert", .list [.atom "subtype", .atom a, .atom b]] => [(a, b)]
  | _ => []

/-- Names of all sorts that a command introduces. -/
def sorts (line : Sexp) : List String :=
  line.datatypes.filterMap head? ++ line.sortDefinitions.map (·.1)

/-- `(define-sort name () sort)` -/
def defineSort (name : String) (sort : Sexp) : Sexp :=
  app "define-sort" [.atom name, .list [], sort]

@[simp]
theorem read_declareDatatypes (parameters : List String) (bodies : List Sexp) :
    (declareDatatypes parameters bodies).datatypes = bodies ∧
      (declareDatatypes parameters bodies).sortDefinitions = [] ∧
      (declareDatatypes parameters bodies).declared = [] ∧
      (declareDatatypes parameters bodies).subtypes = [] :=
  ⟨rfl, rfl, rfl, rfl⟩

@[simp]
theorem read_defineSort (name : String) (sort : Sexp) :
    (defineSort name sort).datatypes = [] ∧
      (defineSort name sort).sortDefinitions = [(name, sort)] ∧
      (defineSort name sort).declared = [] ∧ (defineSort name sort).subtypes = [] :=
  ⟨rfl, rfl, rfl, rfl⟩

@[simp]
theorem read_declareConst (name : String) (sort : Sexp) :
    (declareConst name sort).datatypes = [] ∧ (declareConst name sort).sortDefinitions = [] ∧
      (declareConst name sort).declared = [name] ∧ (declareConst name sort).subtypes = [] :=
  ⟨rfl, rfl, rfl, rfl⟩

@[simp]
theorem read_assert_subtype (a b : String) :
    (assert (subtype (.atom a) (.atom b))).datatypes = [] ∧
      (assert (subtype (.atom a) (.atom b))).sortDefinitions = [] ∧
      (assert (subtype (.atom a) (.atom b))).declared = [] ∧
      (assert (subtype (.atom a) (.atom b))).subtypes = [(a, b)] :=
  ⟨rfl, rfl, rfl, rfl⟩

end Sexp

/-! ## what sentences contribute -/

namespace Sentence

/-- The datatype of a sentence is among those that a command introduces. -/
def DeclaredIn (s : Sentence) (line : Sexp) : Prop :=
  ∃ body ∈ line.datatypes, s.datatypeBody? = some body

/-- The line that declares the tag. -/
def tagLine (s : Sentence) : Sexp := .declareConst s.tag typeSort

/-- The line that relates the tag to that of the base. -/
def baseLine? (s : Sentence) : Option Sexp :=
  s.base.map fun b => .assert (.subtype (.atom s.tag) (.atom b.tag))

/-- The sort that an array defines. -/
def sortDefinition? (s : Sentence) : Option (String × Sexp) :=
  if s.isArray then some (s.name, s.sort) else none

/-- The tag that a reference declares. -/
def tag? (s : Sentence) : Option String := if s.isReference then some s.tag else none

/-- The tags that a base relates. -/
def subtype? (s : Sentence) : Option (String × String) := s.base.map fun b => (s.tag, b.tag)

variable {s : Sentence}

theorem datatypeBody?_of_hasDatatype (h : s.hasDatatype = true) :
    ∃ body, s.datatypeBody? = some body ∧ body.head? = some s.name := by
  simp [datatypeBody?, nullConstructor?, constructor?, h, Sexp.app, Sexp.head?]

theorem hasDatatype_of_datatypeBody? {body : Sexp} (h : s.datatypeBody? = some body) :
    s.hasDatatype = true := by
  by_contra hnot
  simp [datatypeBody?, nullConstructor?, hnot] at h

theorem head?_of_datatypeBody? {body : Sexp} (h : s.datatypeBody? = some body) :
    body.head? = some s.name := by
  obtain ⟨body', hbody, hname⟩ := datatypeBody?_of_hasDatatype (hasDatatype_of_datatypeBody? h)
  rwa [← Option.some.inj (hbody.symm.trans h)]

/-- The command for the sort of a sentence, by its kind. -/
theorem Encoded.datatypeDeclaration?_cases (h : s.Encoded) :
    (s.isReference = false ∧ s.isArray = false ∧ s.datatypeBody? = none ∧
      s.datatypeDeclaration? = none) ∨
    (s.isReference = true ∧ s.isArray = true ∧ s.datatypeBody? = none ∧
      s.datatypeDeclaration? = some (.defineSort s.name s.sort)) ∨
    ∃ body, s.isReference = true ∧ s.isArray = false ∧ s.datatypeBody? = some body ∧
      s.datatypeDeclaration? = some (.declareDatatypes [] [body]) := by
  cases h with
  | scalar ht hshape => obtain rfl | rfl | rfl := hshape <;> exact Or.inl ⟨rfl, rfl, rfl, rfl⟩
  | array e => exact Or.inr (Or.inl ⟨rfl, rfl, rfl, rfl⟩)
  | plain base ht hshape =>
      obtain rfl | rfl | rfl := hshape <;> exact Or.inr (Or.inr ⟨_, rfl, rfl, rfl, rfl⟩)
  | composite fields isValueType base ht =>
      exact Or.inr (Or.inr ⟨_, rfl, rfl, rfl, rfl⟩)

theorem Encoded.isReference_of_base (h : s.Encoded) {b : TypeRef} (hb : s.base = some b) :
    s.isReference = true :=
  h.isReference_of_mem_precursors (u := b) (by simp [TypeRepository.precursors, hb])

theorem tagDeclarations_of_isReference (h : s.isReference = true) :
    s.tagDeclarations = s.tagLine :: s.baseLine?.toList :=
  if_pos h

end Sentence

/-! ## one group -/

namespace TypeRepository

/-- The commands for the sorts of a group. -/
def sortLines : List Sentence → List Sexp
  | [s] => s.datatypeDeclaration?.toList
  | group => [.declareDatatypes [] (group.filterMap (·.datatypeBody?))]

/-- The groups that are declared: a single sentence, or several that have datatypes. -/
structure IsGroup (X : List Sentence) : Prop where
  encoded : ∀ s ∈ X, s.Encoded
  kind : (∃ s, X = [s]) ∨ (∀ s, X ≠ [s]) ∧ ∀ s ∈ X, s.hasDatatype = true

section Group

variable {X : List Sentence} {s : Sentence} {line : Sexp}

theorem sortLines_of_ne (h : ∀ s, X ≠ [s]) :
    sortLines X = [.declareDatatypes [] (X.filterMap (·.datatypeBody?))] := by
  unfold sortLines
  split
  · next s => exact absurd rfl (h s)
  · rfl

theorem jointDeclarations_of_ne (h : ∀ s, X ≠ [s]) : jointDeclarations X =
    .declareDatatypes [] (X.filterMap (·.datatypeBody?)) ::
      (X.filterMap (·.tagDeclarations.head?) ++ X.flatMap (·.tagDeclarations.tail)) := by
  unfold jointDeclarations
  split
  · next s => exact absurd rfl (h s)
  · rfl

theorem isReference_of_hasDatatype (h : s.hasDatatype = true) :
    s.isReference = true :=
  (Bool.and_eq_true_iff.1 h).1

theorem isArray_of_hasDatatype (h : s.hasDatatype = true) : s.isArray = false := by
  simpa using (Bool.and_eq_true_iff.1 h).2

/-- **Normal form of a group**: sorts, then tags, then their order. -/
theorem jointDeclarations_eq (hX : IsGroup X) : jointDeclarations X =
    sortLines X ++ ((X.filter (·.isReference)).map (·.tagLine) ++ X.filterMap (·.baseLine?)) := by
  obtain ⟨s, rfl⟩ | ⟨hne, hdatatype⟩ := hX.kind
  · change s.datatypeDeclaration?.toList ++ s.tagDeclarations = s.datatypeDeclaration?.toList ++ _
    refine congrArg _ ?_
    by_cases href : s.isReference = true
    · rw [Sentence.tagDeclarations_of_isReference href, List.filterMap_eq_flatMap_toList]
      simp [href]
    · have hbase : s.baseLine? = none := by
        cases hb : s.base with
        | none => simp [Sentence.baseLine?, hb]
        | some b => exact absurd ((hX.encoded s (by simp)).isReference_of_base hb) href
      simp [Sentence.tagDeclarations, href, hbase]
  · have href : ∀ s ∈ X, s.isReference = true := fun s hs =>
      isReference_of_hasDatatype (hdatatype s hs)
    have hheads : X.filterMap (·.tagDeclarations.head?) = X.map (·.tagLine) := by
      rw [← List.filterMap_eq_map]
      refine List.filterMap_congr fun s hs => ?_
      rw [Sentence.tagDeclarations_of_isReference (href s hs)]
      rfl
    have htails : X.flatMap (·.tagDeclarations.tail) = X.filterMap (·.baseLine?) := by
      rw [List.filterMap_eq_flatMap_toList]
      refine List.flatMap_congr fun s hs => ?_
      rw [Sentence.tagDeclarations_of_isReference (href s hs)]
      rfl
    rw [jointDeclarations_of_ne hne, sortLines_of_ne hne, hheads, htails,
      List.filter_eq_self.2 href]
    rfl

theorem read_sortLines (hX : IsGroup X) :
    (sortLines X).flatMap Sexp.datatypes = X.filterMap (·.datatypeBody?) ∧
      (sortLines X).flatMap Sexp.sortDefinitions = X.filterMap (·.sortDefinition?) ∧
      (sortLines X).flatMap Sexp.declared = [] ∧ (sortLines X).flatMap Sexp.subtypes = [] := by
  obtain ⟨s, rfl⟩ | ⟨hne, hdatatype⟩ := hX.kind
  · obtain ⟨-, harray, hbody, hline⟩ | ⟨-, harray, hbody, hline⟩ |
      ⟨body, -, harray, hbody, hline⟩ :=
      (hX.encoded s (by simp)).datatypeDeclaration?_cases
    · simp [sortLines, Sentence.sortDefinition?, harray, hbody, hline]
    · simp [sortLines, Sentence.sortDefinition?, harray, hbody, hline]
    · simp [sortLines, Sentence.sortDefinition?, harray, hbody, hline]
  · have hnone : X.filterMap (·.sortDefinition?) = [] := by
      refine List.filterMap_eq_nil_iff.2 fun s hs => ?_
      simp [Sentence.sortDefinition?, isArray_of_hasDatatype (hdatatype s hs)]
    rw [sortLines_of_ne hne, hnone]
    simp

theorem read_tagLines (X : List Sentence) :
    ((X.filter (·.isReference)).map (·.tagLine)).flatMap Sexp.datatypes = [] ∧
      ((X.filter (·.isReference)).map (·.tagLine)).flatMap Sexp.sortDefinitions = [] ∧
      ((X.filter (·.isReference)).map (·.tagLine)).flatMap Sexp.declared = X.filterMap (·.tag?) ∧
      ((X.filter (·.isReference)).map (·.tagLine)).flatMap Sexp.subtypes = [] := by
  induction X with
  | nil => exact ⟨rfl, rfl, rfl, rfl⟩
  | cons s X ih =>
      by_cases href : s.isReference = true
      · simpa [href, Sentence.tag?, Sentence.tagLine] using ih
      · simpa [href, Sentence.tag?] using ih

theorem read_baseLines (X : List Sentence) :
    (X.filterMap (·.baseLine?)).flatMap Sexp.datatypes = [] ∧
      (X.filterMap (·.baseLine?)).flatMap Sexp.sortDefinitions = [] ∧
      (X.filterMap (·.baseLine?)).flatMap Sexp.declared = [] ∧
      (X.filterMap (·.baseLine?)).flatMap Sexp.subtypes = X.filterMap (·.subtype?) := by
  induction X with
  | nil => exact ⟨rfl, rfl, rfl, rfl⟩
  | cons s X ih =>
      cases hb : s.base with
      | none => simpa [Sentence.baseLine?, Sentence.subtype?, hb] using ih
      | some b => simpa [Sentence.baseLine?, Sentence.subtype?, hb] using ih

/-- **What readers find in a group**: what each of its sentences contributes. -/
theorem read_jointDeclarations (hX : IsGroup X) :
    (jointDeclarations X).flatMap Sexp.datatypes = X.filterMap (·.datatypeBody?) ∧
      (jointDeclarations X).flatMap Sexp.sortDefinitions = X.filterMap (·.sortDefinition?) ∧
      (jointDeclarations X).flatMap Sexp.declared = X.filterMap (·.tag?) ∧
      (jointDeclarations X).flatMap Sexp.subtypes = X.filterMap (·.subtype?) := by
  rw [jointDeclarations_eq hX]
  simp only [List.flatMap_append, read_sortLines hX, read_tagLines, read_baseLines, List.nil_append,
    List.append_nil, and_self]

theorem tagLine_mem {x : Sentence} (hx : x ∈ X) (href : x.isReference = true) :
    x.tagLine ∈ (X.filter (·.isReference)).map (·.tagLine) :=
  List.mem_map_of_mem (List.mem_filter.2 ⟨hx, href⟩)

/-- All tags of a group stand before the commands that order them. -/
theorem tagLine_mem_of_subtypes (hX : IsGroup X) {pre post : List Sexp}
    (hsplit : jointDeclarations X = pre ++ line :: post) (hline : line.subtypes ≠ []) {x : Sentence}
    (hx : x ∈ X) (href : x.isReference = true) : x.tagLine ∈ pre := by
  obtain ⟨-, -, -, hsorts⟩ := read_sortLines hX
  obtain ⟨-, -, -, htags⟩ := read_tagLines X
  rw [List.flatMap_eq_nil_iff] at hsorts htags
  have hmem : x.tagLine ∈ sortLines X ++ (X.filter (·.isReference)).map (·.tagLine) :=
    List.mem_append_right _ (tagLine_mem hx href)
  have hnot : line ∉ sortLines X ++ (X.filter (·.isReference)).map (·.tagLine) := by
    intro h
    exact hline ((List.mem_append.1 h).elim (hsorts line) (htags line))
  rw [jointDeclarations_eq hX, ← List.append_assoc] at hsplit
  obtain ⟨rest, rfl, -⟩ | ⟨rest, heq, hrest⟩ := List.append_eq_append_iff.1 hsplit
  · exact List.mem_append_left _ hmem
  · cases rest with
    | nil => rwa [heq, List.append_nil] at hmem
    | cons line' rest =>
        obtain ⟨rfl, -⟩ := List.cons.inj hrest
        exact absurd (heq ▸ by simp) hnot

theorem mem_sorts_of_mem_sortLines (hX : IsGroup X) (hs : s ∈ X) (href : s.isReference = true) :
    ∃ line ∈ sortLines X, s.name ∈ line.sorts := by
  obtain ⟨hdatatypes, hdefinitions, -, -⟩ := read_sortLines hX
  obtain ⟨hnot, -, -, -⟩ | ⟨-, harray, -, -⟩ | ⟨body, -, -, hbody, -⟩ :=
    (hX.encoded s hs).datatypeDeclaration?_cases
  · exact absurd href (by simp [hnot])
  · have hmem : (s.name, s.sort) ∈ (sortLines X).flatMap Sexp.sortDefinitions := by
      rw [hdefinitions]
      exact List.mem_filterMap.2 ⟨s, hs, by simp [Sentence.sortDefinition?, harray]⟩
    obtain ⟨line, hline, hmem⟩ := List.mem_flatMap.1 hmem
    exact ⟨line, hline, List.mem_append_right _ (List.mem_map.2 ⟨_, hmem, rfl⟩)⟩
  · have hmem : body ∈ (sortLines X).flatMap Sexp.datatypes := by
      rw [hdatatypes]
      exact List.mem_filterMap.2 ⟨s, hs, hbody⟩
    obtain ⟨line, hline, hmem⟩ := List.mem_flatMap.1 hmem
    refine ⟨line, hline, List.mem_append_left _ (List.mem_filterMap.2 ⟨body, hmem, ?_⟩)⟩
    exact Sentence.head?_of_datatypeBody? hbody

/-- Only the commands for sorts introduce sorts. -/
theorem mem_sortLines_of_mem_sorts (hX : IsGroup X) (hline : line ∈ jointDeclarations X)
    {name : String} (h : name ∈ line.sorts) :
    line ∈ sortLines X := by
  obtain ⟨htags, htags', -, -⟩ := read_tagLines X
  obtain ⟨hbases, hbases', -, -⟩ := read_baseLines X
  rw [List.flatMap_eq_nil_iff] at htags htags' hbases hbases'
  rw [jointDeclarations_eq hX, List.mem_append, List.mem_append] at hline
  unfold Sexp.sorts at h
  obtain hline | hline | hline := hline
  · exact hline
  · simp [htags line hline, htags' line hline] at h
  · simp [hbases line hline, hbases' line hline] at h

/-- A command introduces sorts of the sentences of its group only. -/
theorem exists_of_mem_sorts (hX : IsGroup X) (hline : line ∈ jointDeclarations X) {name : String}
    (h : name ∈ line.sorts) : ∃ s ∈ X, s.name = name := by
  obtain ⟨hdatatypes, hdefinitions, -, -⟩ := read_jointDeclarations hX
  cases List.mem_append.1 h with
  | inl h =>
      obtain ⟨body, hbody, hname⟩ := List.mem_filterMap.1 h
      have hmem : body ∈ X.filterMap (·.datatypeBody?) := by
        rw [← hdatatypes]
        exact List.mem_flatMap.2 ⟨line, hline, hbody⟩
      obtain ⟨s, hs, hbody⟩ := List.mem_filterMap.1 hmem
      exact ⟨s, hs, Option.some.inj ((Sentence.head?_of_datatypeBody? hbody).symm.trans hname)⟩
  | inr h =>
      obtain ⟨definition, hdefinition, rfl⟩ := List.mem_map.1 h
      have hmem : definition ∈ X.filterMap (·.sortDefinition?) := by
        rw [← hdefinitions]
        exact List.mem_flatMap.2 ⟨line, hline, hdefinition⟩
      obtain ⟨s, hs, hsome⟩ := List.mem_filterMap.1 hmem
      unfold Sentence.sortDefinition? at hsome
      split at hsome
      · obtain rfl := Option.some.inj hsome
        exact ⟨s, hs, rfl⟩
      · contradiction

end Group

end TypeRepository

end Pathwise
