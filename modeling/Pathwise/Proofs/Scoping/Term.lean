import Pathwise.Proofs.Filled
import Pathwise.Proofs.Wording.Name
import Pathwise.Proofs.Wording.Term

/-!
# Pathwise.Proofs.Scoping.Term

Which constants a term may use. The constants of a term are its atoms in argument
position (`Sexp.constants`); a term is `Scoped` if each of them is declared or
provided by the language and the sentences of the program, and every atom with
the mark of a local constant is declared, wherever it stands.

What may be used without a declaration is a `Vocabulary`. Terms that are made from
scoped ones are scoped, in any vocabulary that the sentences speak
(`Sexp.Made.scoped`).
-/

namespace Pathwise

/-! ## atoms and constants -/

namespace Sexp

mutual

/-- All atoms of an expression. -/
def atoms : Sexp → List String
  | .atom t => [t]
  | .quoted _ => []
  | .list items => atomsList items

/-- The atoms of the terms of a list. -/
def atomsList : List Sexp → List String
  | [] => []
  | e :: es => e.atoms ++ atomsList es

end

mutual

/-- The constants of a term. The head of a list is a function and no constant; `as` gives a name a
sort. -/
def constants : Sexp → List String
  | .atom t => [t]
  | .quoted _ => []
  | .list [] => []
  | .list (head :: arguments) => if head = .atom "as" then [] else constantsList arguments

/-- The constants of the terms of a list. -/
def constantsList : List Sexp → List String
  | [] => []
  | e :: es => e.constants ++ constantsList es

end

theorem mem_atomsList {x : String} {es : List Sexp} :
    x ∈ atomsList es ↔ ∃ e ∈ es, x ∈ e.atoms := by
  induction es with
  | nil => simp [atomsList]
  | cons e es ih => simp [atomsList, ih]

theorem mem_constantsList {x : String} {es : List Sexp} :
    x ∈ constantsList es ↔ ∃ e ∈ es, x ∈ e.constants := by
  induction es with
  | nil => simp [constantsList]
  | cons e es ih => simp [constantsList, ih]

mutual

theorem atoms_mapAtoms (f : String → String) (e : Sexp) :
    (e.mapAtoms f).atoms = e.atoms.map f := by
  match e with
  | .atom t => rfl
  | .quoted t => rfl
  | .list items => exact atomsList_mapAtomsList f items

theorem atomsList_mapAtomsList (f : String → String) (es : List Sexp) :
    atomsList (mapAtomsList f es) = (atomsList es).map f := by
  match es with
  | [] => rfl
  | e :: es =>
      rw [mapAtomsList, atomsList, atoms_mapAtoms f e, atomsList_mapAtomsList f es, atomsList,
        List.map_append]

end

mutual

/-- Renaming a term renames its constants, if it leaves `as` alone. -/
theorem constants_mapAtoms {f : String → String} (hf : f "as" = "as") (e : Sexp) :
    (e.mapAtoms f).constants ⊆ e.constants.map f := by
  match e with
  | .atom t => exact List.Subset.refl _
  | .quoted t => exact List.Subset.refl _
  | .list [] => exact List.Subset.refl _
  | .list (head :: arguments) =>
      rw [mapAtoms, mapAtomsList, constants, constants]
      by_cases hhead : head = .atom "as"
      · subst hhead
        simp [mapAtoms, hf]
      · rw [if_neg hhead]
        split
        · simp
        · exact constantsList_mapAtomsList hf arguments

theorem constantsList_mapAtomsList {f : String → String} (hf : f "as" = "as") (es : List Sexp) :
    constantsList (mapAtomsList f es) ⊆ (constantsList es).map f := by
  match es with
  | [] => exact List.Subset.refl _
  | e :: es =>
      rw [mapAtomsList, constantsList, constantsList, List.map_append]
      exact List.append_subset.2
        ⟨List.subset_append_of_subset_left _ (constants_mapAtoms hf e),
          List.subset_append_of_subset_right _ (constantsList_mapAtomsList hf es)⟩

end

/-! ## scoped terms -/

/-- The constants of a term are provided or declared, and every atom with a mark is declared. -/
structure Scoped (provided : String → Prop) (declared : List String) (e : Sexp) : Prop where
  constants : ∀ x ∈ e.constants, provided x ∨ x ∈ declared
  marked : ∀ x ∈ e.atoms, '!' ∈ x.toList → x ∈ declared

namespace Scoped

variable {V : String → Prop} {D D' : List String} {a b : Sexp} {f : String}

/-- More declarations keep the scope. -/
theorem mono (h : Scoped V D a) (hD : D ⊆ D') : Scoped V D' a where
  constants x hx := (h.constants x hx).imp_right fun hmem => hD hmem
  marked x hx hm := hD (h.marked x hx hm)

theorem constant {x : String} (hx : x ∈ D) : Scoped V D (.atom x) where
  constants y hy := Or.inr (by rwa [List.mem_singleton.1 hy])
  marked y hy _ := by rwa [List.mem_singleton.1 hy]

theorem provided {x : String} (hx : V x) (hmark : '!' ∉ x.toList) : Scoped V D (.atom x) where
  constants y hy := Or.inl (by rwa [List.mem_singleton.1 hy])
  marked y hy hm := by
    rw [List.mem_singleton.1 hy] at hm
    contradiction

theorem quoted (text : String) : Scoped V D (.quoted text) where
  constants y hy := by simp [Sexp.constants] at hy
  marked y hy := by simp [Sexp.atoms] at hy

/-- Applications of scoped terms. -/
theorem app {args : List Sexp} (hf : '!' ∉ f.toList) (h : ∀ a ∈ args, Scoped V D a) :
    Scoped V D (.app f args) where
  constants x hx := by
    rw [Sexp.app, Sexp.constants] at hx
    split at hx
    · contradiction
    · obtain ⟨a, ha, hx⟩ := mem_constantsList.1 hx
      exact (h a ha).constants x hx
  marked x hx hm := by
    rw [Sexp.app, Sexp.atoms, atomsList, List.mem_append] at hx
    cases hx with
    | inl hx =>
        rw [List.mem_singleton.1 hx] at hm
        contradiction
    | inr hx =>
        obtain ⟨a, ha, hx⟩ := mem_atomsList.1 hx
        exact (h a ha).marked x hx hm

theorem eq (ha : Scoped V D a) (hb : Scoped V D b) : Scoped V D (.eq a b) :=
  app (by decide) (by simpa using ⟨ha, hb⟩)

/-- A name with a sort has no constants. -/
theorem ofSort {args : List Sexp} (h : ∀ x ∈ atomsList args, '!' ∉ x.toList) :
    Scoped V D (.app "as" args) where
  constants x hx := by simp [Sexp.app, Sexp.constants] at hx
  marked x hx hm := by
    rw [Sexp.app, Sexp.atoms, atomsList, List.mem_append] at hx
    cases hx with
    | inl hx =>
        rw [List.mem_singleton.1 hx] at hm
        exact absurd hm (by decide)
    | inr hx => exact absurd hm (h x hx)

/-- Renaming keeps terms scoped, if it changes only atoms with a mark. -/
theorem rename {r : String → String} (hr : ∀ x, '!' ∉ x.toList → r x = x)
    (hV : ∀ x, V x → '!' ∉ x.toList) (h : Scoped V D a) :
    Scoped V (D.map r) (a.mapAtoms r) where
  constants y hy := by
    obtain ⟨x, hx, rfl⟩ := List.mem_map.1 (constants_mapAtoms (hr _ (by decide)) a hy)
    cases h.constants x hx with
    | inl hprovided =>
        rw [hr x (hV x hprovided)]
        exact Or.inl hprovided
    | inr hdeclared => exact Or.inr (List.mem_map_of_mem hdeclared)
  marked y hy hm := by
    rw [atoms_mapAtoms] at hy
    obtain ⟨x, hx, rfl⟩ := List.mem_map.1 hy
    by_cases hmark : '!' ∈ x.toList
    · exact List.mem_map_of_mem (h.marked x hx hmark)
    · rw [hr x hmark] at hm
      contradiction

end Scoped

end Sexp

/-! ## constants of the language -/

/-- The constants that need no declaration in a group: truth values, numerals, and for every type of
the program its null and its tag. -/
inductive Program.Provides (p : Program) (exceptionBase : Option TypeRef) : String → Prop where
  | truth (b : Bool) : Provides p exceptionBase (toString b)
  | numeral {x : String} (h : IsNumeral x) : Provides p exceptionBase x
  | null {t : TypeRef} {s : Sentence} (h : Sentence.encode exceptionBase p t = .ok s) :
      Provides p exceptionBase (s.name ++ "_null")
  | tag {t : TypeRef} {s : Sentence} (h : Sentence.encode exceptionBase p t = .ok s) :
      Provides p exceptionBase s.tag

/-- No provided constant holds a mark. -/
theorem Program.Provides.mark_not_mem {p : Program} {exceptionBase : Option TypeRef} {x : String}
    (h : p.Provides exceptionBase x) : '!' ∉ x.toList := by
  cases h with
  | truth b => cases b <;> decide
  | numeral h =>
      intro hmark
      have hdigit := h.2 _ hmark
      revert hdigit
      decide
  | @null t s h => simp [Sentence.name, TypeRef.mark_not_mem_symbol]
  | @tag t s h => exact s.type.mark_not_mem_tag

/-! ## vocabularies -/

/-- Names that every term may use without declaring them. None of them holds a mark. -/
structure Vocabulary (V : String → Prop) : Prop where
  mark_not_mem : ∀ {x}, V x → '!' ∉ x.toList
  truth : ∀ b : Bool, V (toString b)
  numeral : ∀ {x}, IsNumeral x → V x
  objectNull : V (TypeRef.object.symbol ++ "_null")

/-- A sentence whose own names are in a vocabulary, and whose accessors hold no mark. -/
structure Sentence.Speaks (V : String → Prop) (s : Sentence) : Prop extends Vocabulary V where
  null : V (s.name ++ "_null")
  tag : V s.tag
  accessors : ∀ {fields isValueType}, s.shape = .composite fields isValueType →
    ∀ f ∈ fields, '!' ∉ f.accessor.name.toList

/-- A lookup that gives sentences of one vocabulary. -/
def SentenceLookup.Speaks (V : String → Prop) (lookup : SentenceLookup) : Prop :=
  ∀ t s, lookup t = .ok s → s.Speaks V

/-! ## made terms -/

namespace Sentence

theorem mark_not_mem_name_append (s : Sentence) {suffix : String} (h : '!' ∉ suffix.toList) :
    '!' ∉ (s.name ++ suffix).toList := by
  simp [name, TypeRef.mark_not_mem_symbol, h]

theorem mark_not_mem_commonFunctions : ∀ f ∈ commonFunctions, '!' ∉ f.toList := by decide

theorem Speaks.mark_not_mem_function {V : String → Prop} {s : Sentence} (hs : s.Speaks V)
    {f : String} (hf : s.Provides f) : '!' ∉ f.toList := by
  cases hf with
  | own h =>
      refine s.mark_not_mem_name_append ?_
      decide +revert
  | accessor hshape hf => exact hs.accessors hshape _ hf

/-- The sorts of types hold no mark. -/
theorem mark_not_mem_sort (t : TypeRef) : ∀ x ∈ t.sort.atoms, '!' ∉ x.toList := by
  fun_induction TypeRef.sort t with
  | case1 e ih =>
      intro x hx
      simp only [SeqArray.sort, Sexp.app, Sexp.atoms, Sexp.atomsList, List.append_nil,
        List.mem_append, List.mem_singleton] at hx
      obtain rfl | hx := hx
      · decide
      · exact ih x hx
  | case2 t ht =>
      intro x hx
      rw [List.mem_singleton.1 hx]
      exact t.mark_not_mem_symbol

end Sentence

namespace Sexp

variable {V : String → Prop} {D : List String}

theorem Scoped.contents {sort a : Sexp} (hsort : ∀ x ∈ sort.atoms, '!' ∉ x.toList)
    (ha : Scoped V D a) : Scoped V D (.contents sort a) where
  constants x hx := by
    simp only [Sexp.contents, Sexp.app, Sexp.constants, reduceCtorEq, if_false, Sexp.constantsList,
      List.append_nil] at hx
    exact ha.constants x hx
  marked x hx hm := by
    have hhead : ∀ y ∈ (Sexp.app "as" [.atom SeqArray.contents, .app "Seq" [sort]]).atoms,
        '!' ∉ y.toList := by
      intro y hy
      simp only [Sexp.app, Sexp.atoms, Sexp.atomsList, List.append_nil, List.mem_append,
        List.mem_singleton] at hy
      obtain rfl | rfl | rfl | hy := hy
      · decide
      · decide
      · decide
      · exact hsort y hy
    rw [Sexp.contents, Sexp.atoms, Sexp.atomsList, Sexp.atomsList, Sexp.atomsList,
      List.append_nil, List.mem_append] at hx
    cases hx with
    | inl hx => exact absurd hm (hhead x hx)
    | inr hx => exact ha.marked x hx hm

/-- **What is made from scoped terms is scoped**, in a vocabulary that the sentences speak. -/
theorem Made.scoped {S : Sentence → Prop} {B : Sexp → Prop} {e : Sexp}
    (hS : ∀ s, S s → s.Speaks V) (hB : ∀ a, B a → Scoped V D a) (h : Made S B e) :
    Scoped V D e := by
  have hname : ∀ {s x}, S s → V x → Scoped V D (.atom x) :=
    fun hs hx => .provided hx ((hS _ hs).mark_not_mem hx)
  induction h with
  | given h => exact hB _ h
  | text t => exact .quoted t
  | truth hs b => exact hname hs ((hS _ hs).truth b)
  | numeral hs h => exact hname hs ((hS _ hs).numeral h)
  | objectNull hs => exact hname hs (hS _ hs).objectNull
  | null hs => exact hname hs (hS _ hs).null
  | tag hs => exact hname hs (hS _ hs).tag
  | common hf _ ih => exact .app (Sentence.mark_not_mem_commonFunctions _ hf) ih
  | provided hs hf _ ih => exact .app ((hS _ hs).mark_not_mem_function hf) ih
  | arrayNull element =>
      refine .ofSort fun x hx => ?_
      simp only [SeqArray.sort, Sexp.app, Sexp.atoms, Sexp.atomsList, List.append_nil,
        List.mem_append, List.mem_singleton] at hx
      obtain rfl | rfl | hx := hx
      · decide
      · decide
      · exact Sentence.mark_not_mem_sort element x hx
  | contents element _ ih => exact .contents (Sentence.mark_not_mem_sort element) ih

end Sexp

namespace Sentence

/-! ## the vocabulary of a program -/

section

variable {exceptionBase : Option TypeRef} {p : Program} {t : TypeRef} {s : Sentence}

/-- The accessors of a composite type hold no mark. -/
theorem mark_not_mem_accessor (hs : encode exceptionBase p t = .ok s)
    {fields : List FieldAccessor} {isValueType : Bool}
    (hshape : s.shape = .composite fields isValueType) {f : FieldAccessor} (hf : f ∈ fields) :
    '!' ∉ f.accessor.name.toList := by
  obtain ⟨-, d, -, hfields⟩ := composite_of_encode hs hshape
  obtain ⟨def', -, hdef⟩ := exists_of_mem_of_mapM_eq_ok hfields hf
  obtain ⟨-, rfl⟩ := fieldAccessor_eq_ok hdef
  simp [Accessor.ofField, TypeRef.mark_not_mem_symbol, Text.mark_not_mem_symbol]

end

end Sentence

namespace Program

variable {p : Program} {exceptionBase : Option TypeRef}

theorem vocabulary_provides (p : Program) (exceptionBase : Option TypeRef) :
    Vocabulary (p.Provides exceptionBase) where
  mark_not_mem := Provides.mark_not_mem
  truth := .truth
  numeral := .numeral
  objectNull := .null (t := .object) (s := .reference .object .object none []) rfl

/-- The sentence of a type speaks of what the program provides. -/
theorem speaks_of_encode {t : TypeRef} {s : Sentence}
    (h : Sentence.encode exceptionBase p t = .ok s) : s.Speaks (p.Provides exceptionBase) where
  toVocabulary := p.vocabulary_provides exceptionBase
  null := .null h
  tag := .tag h
  accessors hshape _ hf := Sentence.mark_not_mem_accessor h hshape hf

/-- Sentences use names of the program. -/
theorem Encodes.speaks {lookup : SentenceLookup} (h : p.Encodes exceptionBase lookup) :
    lookup.Speaks (p.Provides exceptionBase) := fun t s hs => speaks_of_encode (h t s hs)

/-- A program provides the tags of the types that it can encode. -/
theorem provides_tag {t : TypeRef} (h : ∃ s, Sentence.encode exceptionBase p t = .ok s) :
    p.Provides exceptionBase t.tag := by
  obtain ⟨s, hs⟩ := h
  have htag := Provides.tag hs
  rwa [Sentence.tag, Sentence.type_of_encode hs] at htag

end Program

end Pathwise
