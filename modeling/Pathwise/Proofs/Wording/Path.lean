import Pathwise.Proofs.Invariant
import Pathwise.Proofs.Resolution.Independence
import Pathwise.Proofs.Scoping.Group
import Pathwise.Proofs.Wording.Solid

/-!
# Pathwise.Proofs.Wording.Path

Everything that is written for a solver can be read, whatever the names in the
program are (`Engine.parse_lines_of_filled`). Names are made plain before they are
used, so the statements of a form are `Legible`: they declare atoms and assert solid
terms. Renaming, inlining and the pointers of new objects keep that, step by step,
for all paths that are rendered (`Reference.legible_render`).
-/

namespace Pathwise

open Sexp (IsPlain IsAtom Solid)

/-! ## renaming -/

namespace Renaming

theorem isPlain_symbol (f : Form) (site : Site) {x : String} (h : IsPlain x) :
    IsPlain ((of f site).symbol x) :=
  isPlain_symbol_of_isPlain (r := of f site) site.isPlain_suffix h

theorem isAtom_symbol (f : Form) (site : Site) {x : String} (h : IsAtom x) :
    IsAtom ((of f site).symbol x) := by
  refine ⟨fun hnil => h.1 ?_, isPlain_symbol f site h.2⟩
  unfold symbol at hnil
  split at hnil
  · simp at hnil
  · exact hnil

/-- Renamed terms stay solid. -/
theorem solid_term (f : Form) (site : Site) {e : Sexp} (h : e.Solid) :
    ((of f site).term e).Solid :=
  h.mapAtoms (fun _ => isPlain_symbol f site) fun _ => isAtom_symbol f site

end Renaming

/-! ## lines and statements -/

/-- A line that declares an atom or asserts a solid term. -/
def Line.Legible : Line → Prop
  | .declare x sort => IsAtom x ∧ sort.Clean
  | .assert t => t.Solid

theorem Line.Legible.rename {l : Line} (h : l.Legible) (f : Form) (site : Site) :
    ((Renaming.of f site).line l).Legible := by
  cases l with
  | declare x sort => exact ⟨Renaming.isAtom_symbol f site h.1, h.2⟩
  | assert t => exact Renaming.solid_term f site h

theorem Line.legible_asserts {terms : List Sexp} (h : ∀ t ∈ terms, t.Solid) :
    ∀ l ∈ terms.map Line.assert, l.Legible := List.forall_mem_map.2 h

/-- A legible line is read as one list, with one term in an assertion. -/
theorem Line.Legible.parse_render {l : Line} (h : l.Legible) :
    (∃ t, l = .assert t ∧ Sexp.parse l.render = .ok (.list [.atom "assert", t.squeeze])) ∨
    ∃ x sort rest, l = .declare x sort ∧
      Sexp.parse l.render = .ok (.list (.atom "declare-const" :: .atom x :: rest)) := by
  cases l with
  | assert t =>
      have hcommand := Sentence.command_assert h.1
      have hread := Sexp.parse_render_clean hcommand.1 hcommand.solid.2
      rw [Sexp.assert, Sexp.squeeze_app (by decide) (List.forall_mem_singleton.2 h)] at hread
      exact Or.inl ⟨t, rfl, hread⟩
  | declare x sort =>
      have hcommand := Sentence.command_declareConst h.1.2 h.2
      have hread := Sexp.parse_render_clean hcommand.1 hcommand.solid.2
      simp only [Sexp.declareConst, Sexp.app, Sexp.squeeze, Sexp.squeezeAll,
        if_neg (Sexp.solid_atom h.1).2] at hread
      exact Or.inr ⟨x, sort, _, rfl, hread⟩

/-- A statement of legible lines, with an effect on atoms and solid terms. -/
structure Statement.Legible (st : Statement) : Prop where
  lines : ∀ l ∈ st.lines, l.Legible
  effect : st.effect.All Solid IsAtom

theorem Statement.All.legible {st : Statement} (h : st.All Solid IsAtom) : st.Legible := by
  refine ⟨?_, h.effect⟩
  rw [Statement.lines_eq h.asserts]
  exact Line.legible_asserts h.terms

theorem MethodRef.isAtom_variableSymbol (m : MethodRef) (v : Variable) :
    IsAtom (m.variableSymbol v) := by
  rw [variableSymbol_eq]
  exact m.isAtom_slotSymbol v.slot

theorem Lowering.Declares.legible {c : Lowering} {vs : List Variable} {p : Placed}
    (h : c.Declares vs p) : p.statement.Legible := by
  obtain ⟨v, -, offset, s, -, hst⟩ := h
  rw [hst]
  refine ⟨List.forall_mem_singleton.2 ⟨c.method.isAtom_variableSymbol v, ?_⟩, trivial⟩
  exact s.type.isPlain_symbol

/-! ## forms -/

/-- A form of legible statements. -/
structure Form.Legible (f : Form) : Prop where
  statements : ∀ p ∈ f.statements, p.statement.Legible
  parameters : ∀ q ∈ f.parameters, IsAtom q.symbol ∧ q.sort.Clean

namespace Form

variable {lookup : SentenceLookup} {g : MethodGraph} {f : Form}

theorem legible_empty (m : MethodRef) : (Form.empty m).Legible := by
  constructor <;> simp [statements, empty, Block.statements]

/-- Forms are legible. -/
theorem legible_of_ofGraph (hl : ∀ t s, lookup t = .ok s → s.Plain)
    (h : Form.ofGraph lookup g = .ok f) : f.Legible := by
  have hstatements : ∀ p ∈ f.statements, p.statement.Legible := by
    refine forall_statements_of_ofGraph (fun st k hst => ⟨hst.lines, hst.effect⟩)
      (fun p hp => hp.legible) (fun b hb i hi => ⟨fun p hp => hp.legible, fun l hlower => ?_⟩) h
    have hwords : (Lowering.mk g.method lookup).Words i Sentence.Plain Solid IsAtom :=
      { sentences := hl
        symbols := fun x _ => g.method.isAtom_variableSymbol x
        constants := fun x => Sexp.solid_atom
        tags := fun t _ => Sexp.solid_atom t.isAtom_tag }
    intro st hst
    have hmade := (Lowering.all_lower hwords hlower).statements st hst
    exact (hmade.imp (fun _ he => he.solid (fun _ => id) fun _ => id) fun _ => id).legible
  refine ⟨hstatements, fun q hq => ?_⟩
  obtain ⟨p, slot, ⟨b, hb, hp⟩, hbody⟩ := exists_declares_of_mem_parameters h hq
  have hmem : p ∈ f.statements :=
    List.mem_flatMap.2 ⟨b, hb, by simp [Block.statements, hp]⟩
  refine (hstatements p hmem).lines (.declare q.symbol q.sort) ?_
  simp [Statement.lines, hbody]

end Form

theorem Engine.Valid.legible {e : Engine} (he : e.Valid) {m : MethodRef} {f : Form}
    (hf : e.form? m = some f) : f.Legible := by
  cases he.forms m f hf with
  | leftOut => exact Form.legible_empty m
  | encoded hg hl ht hf =>
      exact Form.legible_of_ofGraph (fun t s hs => Sentence.plain_of_encode (hl t s hs)) hf

/-! ## paths -/

/-- A path of legible lines that returns a solid term, if any. -/
structure PathState.Legible (s : PathState) : Prop where
  lines : ∀ l ∈ s.lines.toList, l.Legible
  value : ∀ v ∈ s.returnValue, v.Solid

namespace PathState.Legible

variable {s : PathState}

theorem empty : PathState.Legible {} := by
  constructor <;> simp

/-- A line keeps paths legible. -/
theorem push (hs : s.Legible) {l : Line} (hl : l.Legible) : (s.push l).Legible := by
  obtain ⟨-, -, heq⟩ | ⟨-, heq⟩ := s.push_cases l
  · rw [heq]
    exact hs
  · rw [heq]
    refine ⟨?_, hs.value⟩
    rw [Array.toList_push, List.forall_mem_append, List.forall_mem_singleton]
    exact ⟨hs.lines, hl⟩

theorem pushAll (hs : s.Legible) {ls : List Line} (h : ∀ l ∈ ls, l.Legible) :
    (s.pushAll ls).Legible := by
  induction ls generalizing s with
  | nil => exact hs
  | cons l ls ih =>
      rw [List.forall_mem_cons] at h
      exact ih (hs.push h.1) h.2

theorem append (hs : s.Legible) {path : PathState} (hpath : path.Legible) :
    (s.append path).Legible := by
  have hall := hs.pushAll hpath.lines
  exact ⟨hall.lines, hall.value⟩

end PathState.Legible

/-! ## rendering -/

namespace Reference

variable {s : PathState} (c : Context) (site : Site) (stack : List Site)

theorem legible_record (hs : s.Legible) (offset : Nat) (source : Sexp) (target : String) :
    (record c site stack offset source target s).Legible := ⟨hs.lines, hs.value⟩

theorem legible_bindParameters {r : Renaming} (offset : Nat)
    {bound : List (Form.Parameter × Sexp)}
    (hbound : ∀ b ∈ bound, IsAtom (r.symbol b.1.symbol) ∧ b.2.Solid) (hs : s.Legible) :
    (bindParameters c r site stack offset bound s).Legible := by
  induction bound generalizing s with
  | nil => exact hs
  | cons b bound ih =>
      rw [List.forall_mem_cons] at hbound
      obtain ⟨⟨hparameter, hargument⟩, hrest⟩ := hbound
      have hassert : (s.push (.assert (.eq (.atom (r.symbol b.1.symbol)) b.2))).Legible :=
        hs.push (Sexp.solid_eq (Sexp.solid_atom hparameter) hargument)
      exact ih hrest (legible_record c site stack hassert offset _ _)

/-- A callee as it is inlined: its form and its paths are legible. -/
structure LegibleInlined (inlined : Inlined) : Prop where
  form : inlined.form.Legible
  paths : ∀ path ∈ inlined.paths, path.Legible

theorem legible_enter (offset : Nat) {inlined : Inlined} (hform : inlined.form.Legible)
    {arguments : List Sexp} (harguments : ∀ a ∈ arguments, a.Solid) (hs : s.Legible) :
    (enter c site stack offset inlined arguments s).Legible := by
  have hparameter : ∀ q ∈ inlined.form.parameters,
      IsAtom ((Renaming.of inlined.form inlined.site).symbol q.symbol) := fun q hq =>
    Renaming.isAtom_symbol _ _ (hform.parameters q hq).1
  refine legible_bindParameters c site stack offset (fun b hb => ?_) (hs.pushAll ?_)
  · exact ⟨hparameter b.1 (List.of_mem_zip hb).1, harguments b.2 (List.of_mem_zip hb).2⟩
  · exact List.forall_mem_map.2 fun q hq => ⟨hparameter q hq, (hform.parameters q hq).2⟩

theorem legible_bindResult (offset : Nat) {target : Option String} {value : Option Sexp}
    (htarget : ∀ x ∈ target, IsAtom x) (hvalue : ∀ v ∈ value, v.Solid) (hs : s.Legible) :
    (bindResult c site stack offset target value s).Legible := by
  cases target with
  | none => exact hs
  | some x =>
      cases value with
      | none => exact hs
      | some v =>
          have hassert : (s.push (.assert (.eq (.atom x) v))).Legible :=
            hs.push (Sexp.solid_eq (Sexp.solid_atom (htarget x rfl)) (hvalue v rfl))
          exact legible_record c site stack hassert offset v x

theorem legible_comeBack (offset : Nat) {target : Option String} {path : PathState}
    (htarget : ∀ x ∈ target, IsAtom x) (hpath : path.Legible) (hs : s.Legible) :
    (comeBack c site stack offset target path s).Legible := by
  unfold comeBack
  split
  · exact legible_bindResult c site stack offset htarget hpath.value hs
  · exact legible_bindResult c site stack offset htarget hpath.value hs
  · exact ⟨hs.lines, hs.value⟩

/-- Paths behind calls are legible. -/
theorem legible_afterCall (offset : Nat)
    {call : Option (MethodRef × List Sexp × Option String)} {inlined : Option Inlined}
    (hcall : ∀ callee arguments target, call = some (callee, arguments, target) →
      (∀ a ∈ arguments, a.Solid) ∧ ∀ x ∈ target, IsAtom x)
    (hinlined : ∀ i ∈ inlined, LegibleInlined i) (hs : s.Legible) :
    ∀ t ∈ afterCall c site stack offset s call inlined, t.Legible := by
  unfold afterCall
  split
  · next callee arguments target i =>
      obtain ⟨harguments, htarget⟩ := hcall callee arguments target rfl
      have hi := hinlined i rfl
      refine List.forall_mem_map.2 fun path hpath => ?_
      have henter := legible_enter c site stack offset hi.form harguments hs
      exact legible_comeBack c site stack offset htarget (hi.paths path hpath)
        (henter.append (hi.paths path hpath))
  · exact List.forall_mem_singleton.2 hs

section Statements

variable {e : Engine} (f : Form) {p : Placed}

theorem legible_extraLines (he : e.Valid) (hp : p.statement.effect.All Solid IsAtom) :
    ∀ l ∈ extraLines e c (.of f site) site p, l.Legible := by
  have hplain : ∀ t s, e.types.find? t = some s → s.Plain := fun t s hs =>
    Sentence.plain_of_encode (he.types t s hs)
  have hconstant : ∀ x, IsAtom x → (Sexp.atom ((Renaming.of f site).symbol x)).Solid :=
    fun x hx => Sexp.solid_atom (Renaming.isAtom_symbol f site hx)
  obtain ⟨terms, hlines, hmade⟩ := made_extraLines hplain hconstant c site hp
  rw [hlines]
  exact Line.legible_asserts fun t ht => (hmade t ht).solid (fun _ => id) fun _ => id

theorem legible_perform {effect : Effect} (h : effect.All Solid IsAtom) (offset : Nat)
    (hs : s.Legible) : (perform c (.of f site) site stack offset s effect).Legible := by
  cases effect with
  | assign source target => exact legible_record c site stack hs offset _ _
  | ret value =>
      refine ⟨hs.lines, fun v hv => ?_⟩
      obtain ⟨a, ha, rfl⟩ := Option.map_eq_some_iff.1 hv
      exact Renaming.solid_term f site (h a ha)
  | _ => exact hs

/-- Reached statements are legible. -/
theorem legible_reach (he : e.Valid) (hp : p.statement.Legible) (hs : s.Legible) :
    (reach e c site stack (.of f site) p s).Legible := by
  have hlines : (s.pushAll (p.statement.lines.map (Renaming.of f site).line)).Legible :=
    hs.pushAll (List.forall_mem_map.2 fun l hl => (hp.lines l hl).rename f site)
  have hextra := hlines.pushAll (legible_extraLines c site f he hp.effect)
  exact legible_perform c site stack f hp.effect p.statement.offset hextra

variable {inline : Inliner}

/-- **One statement** keeps a path legible. -/
theorem legible_statement (he : e.Valid)
    (hinline : ∀ offset callee, ∀ i ∈ inline offset callee, LegibleInlined i)
    (hp : p.statement.Legible) (hs : s.Legible) :
    ∀ t ∈ statement e c site stack inline (.of f site) p s, t.Legible := by
  unfold statement
  split
  · exact List.forall_mem_singleton.2 hs
  · refine legible_afterCall c site stack p.statement.offset (fun _ _ _ => ?_) (fun i hi => ?_)
      (legible_reach c site stack f he hp hs)
    · exact Run.all_call (fun _ => Renaming.solid_term f site)
        (fun _ => Renaming.isAtom_symbol f site) hp.effect
    · obtain ⟨call, -, hi⟩ := Option.bind_eq_some_iff.1 hi
      exact hinline _ call.1 i hi

end Statements

variable {c site stack}

/-- Paths stay legible. -/
theorem invariant_legible {e : Engine} (he : e.Valid) :
    Invariant e c Form.Legible PathState.Legible where
  forms _ _ hform := he.legible hform
  start := .empty
  complete _ _ hs := ⟨hs.lines, hs.value⟩
  statement f site stack _ hf hinline p hp _ hs :=
    legible_statement c site stack f he
      (fun offset callee i hi => ⟨(hinline offset callee i hi).1, (hinline offset callee i hi).2⟩)
      (hf.statements p hp) hs

/-- **Rendered paths are legible**, with their callees inlined. -/
theorem legible_render {e : Engine} (he : e.Valid) (depth : Nat) {form : Form}
    (hform : form.Legible) : ∀ t ∈ render e c depth form site stack, t.Legible :=
  (invariant_legible he).render hform site stack depth

end Reference

namespace Engine

/-- **Everything that is written can be read**, whatever the names and texts in the program are.
Each declaration is one list, and so is each line of a group: it asserts one term, or declares a
constant. -/
theorem parse_lines_of_filled {e : Engine} (he : e.Filled) :
    (∀ line ∈ e.declarations, ∃ items, Sexp.parse line.render = .ok (.list items)) ∧
    ∀ m c groups, c.Used → (e.cover m c).1 = .ok groups → ∀ g ∈ groups, ∀ l ∈ g.lines,
      (∃ t, l = .assert t ∧ Sexp.parse l.render = .ok (.list [.atom "assert", t.squeeze])) ∨
      ∃ x sort rest, l = .declare x sort ∧
        Sexp.parse l.render = .ok (.list (.atom "declare-const" :: .atom x :: rest)) := by
  constructor
  · intro line hline
    have hplain : ∀ t s, e.types.find? t = some s → s.Plain := fun t s hs =>
      Sentence.plain_of_encode (he.valid.types t s hs)
    exact (he.built.command_of_mem_declarations hplain hline).parse_render
  · intro m c groups hc h g hg l hl
    obtain ⟨rendered, hrun, rfl⟩ := (cover_eq_ok_iff_eraseDups he hc).1 h
    rw [List.mem_eraseDups] at hg
    obtain ⟨form, root, d, hform, -, -, -, rfl⟩ := renderGroups_eq_reference hc hrun
    obtain ⟨s, hs, rfl⟩ := List.mem_map.1 hg
    have hlegible := Reference.legible_render he.valid e.inliningDepth (he.valid.legible hform) s hs
    exact (hlegible.lines l hl).parse_render

end Engine

namespace Sample.Quoting

/-- A type with names that cannot stand in a text as they are. -/
def parcel : TypeRef := .named "a (b" "\"c;" []

/-- Returns a text with a quote and a bracket in it. -/
def label : MethodRef := .static parcel "to text(" [parcel] .string

/-- Where the text is put. -/
def result : Variable := ⟨.stack 0, .string⟩

/-- Return a text with a quote and a bracket. -/
def graph : MethodGraph :=
  { method := label
    blocks := [
      { index := 0
        instructions :=
          [⟨0, .constant (.str "say \"(\""), some result, []⟩, ⟨1, .ret, none, [result]⟩]
        successors := [] }] }

/-- A type and the method. -/
def program : Program :=
  (Program.empty.addType
    { type := parcel, base := none, fields := [], isValueType := false }).addMethod graph

/-- The engine that has resolved `label`. -/
def engine : Engine := ((Engine.new program {}).resolveMethod label [] []).2

theorem filled : engine.Filled := .of_isOk (.new program {}) (by decide)

/-- The one group of `label` is read line by line, and so are the declarations for it. -/
theorem parse_lines_label : ∃ groups g t, (engine.cover label .empty).1 = .ok groups ∧ g ∈ groups ∧
    g.lines.length = 3 ∧ g.lines[2]? = some (.assert t) ∧ '"' ∈ t.render.toList ∧
    Sexp.parse (Line.assert t).render = .ok (.list [.atom "assert", t.squeeze]) ∧
    ∀ line ∈ engine.declarations, ∃ items, Sexp.parse line.render = .ok (.list items) := by
  obtain ⟨hdeclarations, hlines⟩ := Engine.parse_lines_of_filled filled
  have hgroup : (engine.renderGroups label .empty).1.toOption.bind (fun groups =>
      groups.eraseDups[0]?.bind fun g => g.lines[2]?.bind fun l => l.term?.map fun t =>
        (g.lines.length, decide ('"' ∈ t.render.toList))) = some (3, true) := by
    decide +kernel
  cases hrun : (engine.renderGroups label .empty).1 with
  | error err =>
      rw [hrun] at hgroup
      contradiction
  | ok rendered =>
      rw [hrun] at hgroup
      change rendered.eraseDups[0]?.bind _ = _ at hgroup
      obtain ⟨g, hg, hgroup⟩ := Option.bind_eq_some_iff.1 hgroup
      obtain ⟨l, hl, hgroup⟩ := Option.bind_eq_some_iff.1 hgroup
      obtain ⟨t, ht, heq⟩ := Option.map_eq_some_iff.1 hgroup
      obtain ⟨hlength, hquote⟩ := Prod.mk.inj heq
      have hcover : (engine.cover label .empty).1 = .ok rendered.eraseDups :=
        (Engine.cover_eq_ok_iff_eraseDups filled used_empty).2 ⟨rendered, hrun, rfl⟩
      have hmem : g ∈ rendered.eraseDups := List.mem_of_getElem? hg
      cases l with
      | declare x sort => contradiction
      | assert t' =>
          obtain rfl : t' = t := Option.some.inj ht
          refine ⟨_, g, t', hcover, hmem, hlength, hl, of_decide_eq_true hquote, ?_,
            hdeclarations⟩
          obtain ⟨a, ha, hread⟩ | ⟨x, sort, rest, hdeclare, -⟩ :=
            hlines label .empty _ used_empty hcover g hmem _ (List.mem_of_getElem? hl)
          · obtain rfl := Line.assert.inj ha
            exact hread
          · contradiction

end Sample.Quoting

end Pathwise
