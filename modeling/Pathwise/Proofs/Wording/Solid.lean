import Pathwise.Proofs.Declarations.Groups
import Pathwise.Proofs.Wording.Name
import Pathwise.Proofs.Wording.Term

/-!
# Pathwise.Proofs.Wording.Solid

Terms and declarations can be read. A term is `Solid` if it is clean and no gap: it
is read as one expression wherever it stands. Terms that are made from solid ones
are solid (`Sexp.Made.solid`), since every name a sentence brings in is plain.

A `Command` is a clean list. All declarations of a repository are commands
(`TypeRepository.Built.command_of_mem_declarations`).
-/

namespace Pathwise

open Sexp (IsPlain IsAtom isPlain_append gap)

/-! ## solid terms -/

namespace Sexp

variable {args : List Sexp} {f : String} {e : Sexp}

/-- An expression that is read as one, whatever stands around it. -/
def Solid (e : Sexp) : Prop := e.Clean ∧ e ≠ gap

/-- An expression that is read as one list. -/
def Command (e : Sexp) : Prop := e.Clean ∧ ∃ items, e = .list items

theorem solid_atom {t : String} (h : IsAtom t) : (Sexp.atom t).Solid :=
  ⟨h.2, ne_gap_of_readable (e := .atom t) h⟩

theorem clean_app (hf : IsPlain f) (h : ∀ a ∈ args, a.Clean) :
    (app f args).Clean := ⟨hf, cleanAll_iff.2 h⟩

theorem command_app (hf : IsPlain f) (h : ∀ a ∈ args, a.Clean) :
    (app f args).Command := ⟨clean_app hf h, _, rfl⟩

/-- Commands are solid. -/
theorem Command.solid (h : e.Command) : e.Solid := by
  obtain ⟨hclean, items, rfl⟩ := h
  exact ⟨hclean, by simp⟩

theorem solid_app (hf : IsPlain f) (h : ∀ a ∈ args, a.Clean) :
    (app f args).Solid := (command_app hf h).solid

/-- No argument of an application gets lost if all of them are solid. -/
theorem squeeze_app (hf : IsAtom f) (h : ∀ a ∈ args, a.Solid) :
    (app f args).squeeze = app f (args.map squeeze) := by
  have hargs : squeezeAll args = args.map squeeze := by
    induction args with
    | nil => rfl
    | cons a args ih =>
        rw [List.forall_mem_cons] at h
        rw [squeezeAll, if_neg h.1.2, ih h.2, List.map_cons]
  simp only [app, squeeze, squeezeAll, if_neg (solid_atom hf).2, hargs]

theorem solid_arraySort (element : TypeRef) : (SeqArray.sort element.sort).Solid :=
  solid_app (by decide) (by simpa using element.clean_sort)

theorem solid_arrayNull (element : TypeRef) :
    (app "as" [.atom SeqArray.null, SeqArray.sort element.sort]).Solid := by
  have hname : (Sexp.atom SeqArray.null).Clean := (by decide : IsPlain SeqArray.null)
  exact solid_app (by decide) (by simpa using ⟨hname, (solid_arraySort element).1⟩)

theorem solid_eq {a b : Sexp} (ha : a.Solid) (hb : b.Solid) : (eq a b).Solid :=
  solid_app (by decide) (by simpa using ⟨ha.1, hb.1⟩)

/-- A command is read as a list. -/
theorem Command.parse_render (h : e.Command) :
    ∃ items, parse e.render = .ok (.list items) := by
  have hread := parse_render_clean h.1 h.solid.2
  obtain ⟨-, items, rfl⟩ := h
  exact ⟨squeezeAll items, hread⟩

mutual

/-- Renaming keeps terms clean. -/
theorem clean_mapAtoms {f : String → String} (hf : ∀ t, IsPlain t → IsPlain (f t)) :
    {e : Sexp} → e.Clean → (e.mapAtoms f).Clean
  | .atom t, h => hf t h
  | .quoted _, _ => trivial
  | .list _, h => cleanAll_mapAtomsList hf h

theorem cleanAll_mapAtomsList {f : String → String} (hf : ∀ t, IsPlain t → IsPlain (f t)) :
    {es : List Sexp} → CleanAll es → CleanAll (mapAtomsList f es)
  | [], _ => trivial
  | _ :: _, h => ⟨clean_mapAtoms hf h.1, cleanAll_mapAtomsList hf h.2⟩

end

/-- Renaming keeps an expression solid if it keeps atoms. -/
theorem Solid.mapAtoms {f : String → String} (hplain : ∀ t, IsPlain t → IsPlain (f t))
    (hatom : ∀ t, IsAtom t → IsAtom (f t)) (h : e.Solid) : (e.mapAtoms f).Solid := by
  refine ⟨clean_mapAtoms hplain h.1, ?_⟩
  cases e with
  | atom t => exact (solid_atom (hatom t (isAtom_of_isPlain h.1 h.2))).2
  | quoted t => simp [Sexp.mapAtoms]
  | list items => simp [Sexp.mapAtoms]

end Sexp

/-! ## sentences -/

theorem isAtom_of_isNumeral {x : String} (h : IsNumeral x) : IsAtom x := by
  refine ⟨fun hnil => h.1 (String.toList_inj.1 hnil), fun c hc => ?_⟩
  obtain hdigit | rfl := h.2 c hc
  · exact Sexp.isAtomChar_of_isDigit hdigit
  · decide

namespace Sentence

/-- A sentence whose accessors have plain names and clean sorts. -/
def Plain (s : Sentence) : Prop := ∀ fields isValueType, s.shape = .composite fields isValueType →
  ∀ f ∈ fields, IsPlain f.accessor.name ∧ f.accessor.sort.Clean

variable {s : Sentence}

/-- Sentences are plain. -/
theorem plain_of_encode {exceptionBase : Option TypeRef} {p : Program} {t : TypeRef}
    (h : encode exceptionBase p t = .ok s) : s.Plain := by
  intro fields isValueType hshape f hf
  obtain ⟨-, d, -, hfields⟩ := composite_of_encode h hshape
  obtain ⟨def', -, hdef⟩ := exists_of_mem_of_mapM_eq_ok hfields hf
  obtain ⟨-, rfl⟩ := fieldAccessor_eq_ok hdef
  have hname : IsPlain (t.symbol ++ "_" ++ Text.symbol def'.name) :=
    isPlain_append.2 ⟨isPlain_append.2 ⟨t.isPlain_symbol, by decide⟩, Sexp.isPlain_symbol _⟩
  exact ⟨hname, def'.type.clean_sort⟩

theorem isPlain_name_append (s : Sentence) {part : String} (h : IsPlain part) :
    IsPlain (s.name ++ part) := isPlain_append.2 ⟨s.type.isPlain_symbol, h⟩

theorem isAtom_null (s : Sentence) : IsAtom (s.name ++ "_null") :=
  Sexp.isAtom_append s.type.isPlain_symbol (by decide)

theorem solid_null? {e : Sexp} (h : s.null? = some e) : e.Solid := by
  unfold null? at h
  split at h
  · next element hshape => exact Option.some.inj h ▸ Sexp.solid_arrayNull element
  · obtain ⟨c, hc, rfl⟩ := Option.map_eq_some_iff.1 h
    obtain ⟨-, rfl⟩ := Option.ite_some_none_eq_some.1 hc
    exact Sexp.solid_atom s.isAtom_null

theorem isPlain_commonFunctions : ∀ f ∈ commonFunctions, IsPlain f := by decide

theorem Plain.isPlain_function (hs : s.Plain) {f : String} (hf : s.Provides f) : IsPlain f := by
  cases hf with
  | own h =>
      refine s.isPlain_name_append ?_
      decide +revert
  | accessor hshape hf => exact (hs _ _ hshape _ hf).1

end Sentence

/-- **What is made from solid terms is solid**, if the sentences are plain. -/
theorem Sexp.Made.solid {S : Sentence → Prop} {B : Sexp → Prop} {e : Sexp}
    (hS : ∀ s, S s → s.Plain) (hB : ∀ a, B a → a.Solid) (h : Made S B e) : e.Solid := by
  induction h with
  | given h => exact hB _ h
  | text t => exact ⟨trivial, by simp⟩
  | truth hs b => cases b <;> exact solid_atom (by decide)
  | numeral hs h => exact solid_atom (isAtom_of_isNumeral h)
  | objectNull hs => exact solid_atom (by decide)
  | @null s hs => exact solid_atom s.isAtom_null
  | @tag s hs => exact solid_atom s.type.isAtom_tag
  | common hf _ ih =>
      exact solid_app (Sentence.isPlain_commonFunctions _ hf) fun a ha => (ih a ha).1
  | provided hs hf _ ih =>
      exact solid_app ((hS _ hs).isPlain_function hf) fun a ha => (ih a ha).1
  | arrayNull element => exact solid_arrayNull element
  | contents element _ ih =>
      have hsort : (app "Seq" [element.sort]).Clean :=
        clean_app (by decide) (by simpa using element.clean_sort)
      have hname : (Sexp.atom SeqArray.contents).Clean := (by decide : IsPlain SeqArray.contents)
      have hhead : (app "as" [.atom SeqArray.contents, app "Seq" [element.sort]]).Clean :=
        clean_app (by decide) (by simpa using ⟨hname, hsort⟩)
      exact ⟨⟨hhead, ih.1, trivial⟩, by simp [Sexp.contents]⟩

/-! ## declarations -/

namespace Sentence

open Sexp (clean_app command_app)

variable {s : Sentence}

theorem command_declareConst {x : String} {sort : Sexp} (hx : IsPlain x) (hsort : sort.Clean) :
    (Sexp.declareConst x sort).Command := by
  have hname : (Sexp.atom x).Clean := hx
  exact command_app (by decide) (by simpa using ⟨hname, hsort⟩)

theorem command_assert {e : Sexp} (h : e.Clean) : (Sexp.assert e).Command :=
  command_app (by decide) (by simpa using h)

theorem command_declareDatatypes {parameters : List String} {bodies : List Sexp}
    (hparameters : ∀ x ∈ parameters, IsPlain x) (hbodies : ∀ e ∈ bodies, e.Clean) :
    (Sexp.declareDatatypes parameters bodies).Command := by
  have hnames : (Sexp.list (parameters.map .atom)).Clean :=
    Sexp.cleanAll_iff.2 (List.forall_mem_map.2 hparameters)
  have hlist : (Sexp.list bodies).Clean := Sexp.cleanAll_iff.2 hbodies
  exact command_app (by decide) (by simpa using ⟨hnames, hlist⟩)

theorem clean_accessor {a : Accessor} (hname : IsPlain a.name) (hsort : a.sort.Clean) :
    a.sexp.Clean := ⟨hname, hsort, trivial⟩

theorem clean_constructor {c : Constructor} (hname : IsPlain c.name)
    (haccessors : ∀ a ∈ c.accessors, IsPlain a.name ∧ a.sort.Clean) : c.sexp.Clean := by
  unfold Constructor.sexp
  split
  · exact hname
  · refine clean_app hname (List.forall_mem_map.2 fun a ha => ?_)
    exact clean_accessor (haccessors a ha).1 (haccessors a ha).2

theorem clean_ofField {owner field : String} {sort : Sexp} (howner : IsPlain owner)
    (hsort : sort.Clean) : IsPlain (Accessor.ofField owner field sort).name ∧
      (Accessor.ofField owner field sort).sort.Clean :=
  ⟨isPlain_append.2 ⟨isPlain_append.2 ⟨howner, by decide⟩, Sexp.isPlain_symbol field⟩, hsort⟩

theorem Plain.clean_fieldAccessors (hs : s.Plain) :
    ∀ a ∈ s.fieldAccessors, IsPlain a.name ∧ a.sort.Clean := by
  have hname : IsPlain s.name := s.type.isPlain_symbol
  unfold fieldAccessors
  split
  · have hsort : (Sexp.atom "String").Clean := (by decide : IsPlain "String")
    exact List.forall_mem_singleton.2 (clean_ofField hname hsort)
  · next hshape => exact List.forall_mem_map.2 (hs _ _ hshape)
  · simp

theorem Plain.clean_datatypeBody? (hs : s.Plain) {body : Sexp} (h : s.datatypeBody? = some body) :
    body.Clean := by
  have hname : IsPlain s.name := s.type.isPlain_symbol
  have hint : (Sexp.atom "Int").Clean := (by decide : IsPlain "Int")
  have htype : typeSort.Clean := (by decide : IsPlain "Type")
  unfold datatypeBody? nullConstructor? constructor? at h
  by_cases hdatatype : s.hasDatatype = true
  · simp only [hdatatype, if_true, Option.bind_eq_bind, Option.bind_some, Option.pure_def,
      Option.some.injEq] at h
    have hnull : (Constructor.null s.name).sexp.Clean :=
      clean_constructor (s.isPlain_name_append (by decide)) (by simp [Constructor.null])
    have hctor : (Constructor.object s.name s.fieldAccessors).sexp.Clean := by
      refine clean_constructor (s.isPlain_name_append (by decide)) ?_
      simp only [Constructor.object, List.forall_mem_cons]
      exact ⟨clean_ofField hname hint, clean_ofField hname htype, hs.clean_fieldAccessors⟩
    rw [← h]
    exact clean_app hname (by simpa using ⟨hnull, hctor⟩)
  · simp [hdatatype] at h

theorem command_of_mem_tagDeclarations {line : Sexp} (h : line ∈ s.tagDeclarations) :
    line.Command := by
  have htype : typeSort.Clean := (by decide : IsPlain "Type")
  have htag : ∀ t : TypeRef, (Sexp.atom t.tag).Clean := fun t => t.isAtom_tag.2
  unfold tagDeclarations at h
  split at h
  · cases List.mem_cons.1 h with
    | inl heq => exact heq ▸ command_declareConst s.type.isAtom_tag.2 htype
    | inr hmem =>
        obtain ⟨b, -, rfl⟩ := Option.map_eq_some_iff.1 (Option.mem_toList.1 hmem)
        refine command_assert (clean_app (by decide) ?_)
        simpa using ⟨htag s.type, htag b⟩
  · contradiction

/-- Declarations are commands. -/
theorem Plain.command_of_mem_declarations (hs : s.Plain) {line : Sexp}
    (h : line ∈ s.declarations) : line.Command := by
  cases List.mem_append.1 h with
  | inr htags => exact command_of_mem_tagDeclarations htags
  | inl hsort =>
      rw [Option.mem_toList] at hsort
      unfold datatypeDeclaration? at hsort
      split at hsort
      · next element hshape =>
          obtain rfl := Option.some.inj hsort
          have hname : (Sexp.atom s.name).Clean := s.type.isPlain_symbol
          have hnone : (Sexp.list []).Clean := trivial
          have hsort := (Sexp.solid_arraySort element).1
          exact command_app (by decide) (by simpa using ⟨hname, hnone, hsort⟩)
      · obtain ⟨body, hbody, rfl⟩ := Option.map_eq_some_iff.1 hsort
        exact command_declareDatatypes (by simp) (by simpa using hs.clean_datatypeBody? hbody)

end Sentence

namespace TypeRepository

open Sentence (command_declareDatatypes command_of_mem_tagDeclarations)

theorem command_of_mem_preamble : ∀ line ∈ preamble, line.Command := by
  simp only [preamble, List.forall_mem_cons]
  refine ⟨?_, ?_, ?_, ?_, ?_, by simp⟩ <;> refine ⟨?_, _, rfl⟩
  all_goals
    simp only [Sexp.app, Sexp.assert, Sexp.subtype, Sexp.and, Sexp.nat, Sexp.forallTypes,
      Sexp.declareDatatypes, Constructor.sexp, Accessor.sexp, typeSort, List.map, reduceCtorEq,
      if_false, Sexp.Clean, Sexp.CleanAll]
    decide

theorem command_of_mem_jointDeclarations {X : List Sentence} (hX : ∀ s ∈ X, s.Plain) {line : Sexp}
    (h : line ∈ jointDeclarations X) : line.Command := by
  unfold jointDeclarations at h
  split at h
  · exact (hX _ (List.mem_singleton_self _)).command_of_mem_declarations h
  · rw [List.mem_cons, List.mem_append] at h
    obtain rfl | htag | hbase := h
    · refine command_declareDatatypes (by simp) fun body hbody => ?_
      obtain ⟨s, hs, hbody⟩ := List.mem_filterMap.1 hbody
      exact (hX s hs).clean_datatypeBody? hbody
    · obtain ⟨s, -, hs⟩ := List.mem_filterMap.1 htag
      exact command_of_mem_tagDeclarations (List.mem_of_mem_head? hs)
    · obtain ⟨s, -, hs⟩ := List.mem_flatMap.1 hbase
      exact command_of_mem_tagDeclarations (List.mem_of_mem_tail hs)

/-- **Declarations are commands**, whatever the names in the program are. -/
theorem Built.command_of_mem_declarations {r : TypeRepository} (hr : r.Built)
    (hplain : ∀ t s, r.find? t = some s → s.Plain) {line : Sexp} (h : line ∈ r.declarations) :
    line.Command := by
  rw [declarations_eq, List.mem_append, List.mem_flatMap] at h
  obtain hpreamble | ⟨X, hX, hline⟩ := h
  · exact command_of_mem_preamble line hpreamble
  · refine command_of_mem_jointDeclarations (fun s hs => ?_) hline
    have hmem : s ∈ r.groups.flatten := List.mem_flatten.2 ⟨X, hX, hs⟩
    exact hplain _ s (hr.mem_sorted.1 (hr.perm_groups.mem_iff.1 hmem))

end TypeRepository

end Pathwise
