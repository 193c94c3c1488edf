import Pathwise.Proofs.Resolution.Closure
import Pathwise.Proofs.Scoping.Path
import Pathwise.Proofs.Segmentation.Repetition

/-!
# Pathwise.Proofs.Scoping.Group

Every group of an answer is closed (`Engine.closed_of_mem_cover`): an assertion
uses what the group has declared before, and a constant with a mark carries the
suffix of the invocation that it belongs to. If the program is unambiguous, a
group declares no constant twice: a constant that comes up again has the same
sort, and a declaration that is there already is not repeated.
-/

namespace Pathwise

/-! ## unambiguous programs -/

/-- Every slot of a method has one type, methods have different symbols, and so have static fields
of different types. -/
structure Program.Unambiguous (p : Program) : Prop where
  slots : ∀ m g, p.methodGraph? m = some g → ∀ v ∈ g.variables, ∀ w ∈ g.variables,
    v.slot = w.slot → v.type = w.type
  symbols : ∀ m m' g g', p.methodGraph? m = some g → p.methodGraph? m' = some g' →
    g.method.symbol = g'.method.symbol → m = m'
  fields : ∀ m m' g g', p.methodGraph? m = some g → p.methodGraph? m' = some g' →
    ∀ v ∈ g.variables, ∀ w ∈ g'.variables, ∀ field field', v.slot = .staticField field →
      w.slot = .staticField field' → Text.symbol field.text = Text.symbol field'.text →
      v.type = w.type

theorem Slot.exists_staticField {slot : Slot} (h : slot.isLocal = false) :
    ∃ field, slot = .staticField field := by
  cases slot with
  | staticField field => exact ⟨field, rfl⟩
  | _ => simp [Slot.isLocal] at h

namespace Site

/-- Local constants have a mark. -/
theorem mark_mem_constant_iff (site : Site) (m : MethodRef) (slot : Slot) :
    '!' ∈ (site.constant m slot).toList ↔ slot.isLocal := by
  unfold constant
  split
  · next h => simp [h]
  · exact m.mark_mem_slotSymbol_iff slot

theorem constant_of_isLocal (site : Site) (m : MethodRef) {slot : Slot} (h : slot.isLocal) :
    site.constant m slot = m.slotSymbol slot ++ "!" ++ site.suffix := if_pos h

end Site

/-- A constant that is renamed is no constant of a slot as its method names it. -/
theorem MethodRef.slotSymbol_ne_renamed (m m' : MethodRef) {slot slot' : Slot}
    (h : slot.isLocal) (h' : slot'.isLocal) (suffix : String) :
    m.slotSymbol slot ≠ m'.slotSymbol slot' ++ "!" ++ suffix := by
  intro heq
  rw [m.slotSymbol_of_isLocal h, m'.slotSymbol_of_isLocal h'] at heq
  have hchars := congrArg String.toList heq
  simp only [String.toList_append, List.append_assoc] at hchars
  obtain ⟨-, hrest⟩ := append_mark_inj m.mark_not_mem_symbol m'.mark_not_mem_symbol hchars
  have htext : slot.text.toList = slot'.text.toList ++ '!' :: suffix.toList := hrest
  exact Slot.mark_not_mem_text h (by simp [htext])

namespace Engine

variable {e : Engine} {c : Context} {root : Site} {x : String}

/-- A constant of an unambiguous program has one sort. -/
theorem Declares.sort_eq (hp : e.program.Unambiguous) {sort sort' : Sexp}
    (h : e.Declares c root x sort) (h' : e.Declares c root x sort') : sort = sort' := by
  generalize hx : x = y at h'
  obtain @⟨site, g, v, s, -, hg, hv, hs⟩ := h
  obtain @⟨site', g', v', s', -, hg', hv', hs'⟩ := h'
  have htype : v.type = v'.type := by
    have hlocal : v.slot.isLocal ↔ v'.slot.isLocal := by
      rw [← site.mark_mem_constant_iff g.method, hx, site'.mark_mem_constant_iff]
    cases hslot : v.slot.isLocal with
    | true =>
        have hslot' : v'.slot.isLocal := hlocal.1 hslot
        rw [Site.constant_of_isLocal _ _ hslot, Site.constant_of_isLocal _ _ hslot'] at hx
        obtain ⟨hsymbol, heq⟩ := MethodRef.slotSymbol_inj hslot hslot' hx
        have hm := hp.symbols _ _ _ _ hg hg' hsymbol
        rw [hm] at hg
        obtain rfl := Option.some.inj (hg.symm.trans hg')
        exact hp.slots _ _ hg' v hv v' hv' heq
    | false =>
        have hslot' : v'.slot.isLocal = false := by
          rwa [← Bool.not_eq_true, ← hlocal, Bool.not_eq_true]
        obtain ⟨field, hfield⟩ := Slot.exists_staticField hslot
        obtain ⟨field', hfield'⟩ := Slot.exists_staticField hslot'
        rw [hfield, hfield'] at hx
        exact hp.fields _ _ _ _ hg hg' v hv v' hv' field field' hfield hfield' hx
  rw [htype, hs'] at hs
  rw [Except.ok.inj hs]

/-- A constant with a mark carries the suffix of its invocation. -/
theorem Declares.exists_local {sort : Sexp} (h : e.Declares c root x sort)
    (hmark : '!' ∈ x.toList) :
    ∃ site g v, c.Invokes root site ∧ e.program.methodGraph? site.method = some g ∧
      v ∈ g.variables ∧ v.slot.isLocal ∧
      x = g.method.slotSymbol v.slot ++ "!" ++ site.suffix := by
  obtain @⟨site, g, v, s, hsite, hg, hv, hs⟩ := h
  have hlocal := (site.mark_mem_constant_iff g.method v.slot).1 hmark
  exact ⟨site, g, v, hsite, hg, hv, hlocal, site.constant_of_isLocal g.method hlocal⟩

/-- Sorts have no mark. -/
theorem Declares.mark_not_mem_sort {sort : Sexp} (h : e.Declares c root x sort) :
    ∀ y ∈ sort.atoms, '!' ∉ y.toList := by
  obtain @⟨site, g, v, s, -, -, -, -⟩ := h
  simp [Sexp.atoms, Sentence.name, TypeRef.mark_not_mem_symbol]

end Engine

/-! ## closed groups -/

theorem Line.mem_declared {x : String} {ls : List Line} :
    x ∈ declared ls ↔ ∃ sort, Line.declare x sort ∈ ls := by
  constructor
  · intro h
    obtain ⟨l, hl, hx⟩ := List.mem_filterMap.1 h
    cases l with
    | assert t => contradiction
    | declare y sort =>
        obtain rfl := Option.some.inj hx
        exact ⟨sort, hl⟩
  · rintro ⟨sort, h⟩
    exact List.mem_filterMap.2 ⟨_, h, rfl⟩

namespace PathState.Sound

variable {V : String → Prop} {P : String → Sexp → Prop} {s : PathState}

/-- A constant with one sort is declared once. -/
theorem nodup_declared (hs : s.Sound V P)
    (hsort : ∀ x sort sort', P x sort → P x sort' → sort = sort') :
    (Line.declared s.lines.toList).Nodup := by
  have hdistinct := hs.distinct
  unfold List.Nodup at hdistinct ⊢
  rw [List.pairwise_filter] at hdistinct
  unfold Line.declared
  rw [List.pairwise_filterMap]
  refine hdistinct.imp_of_mem fun {a b} ha hb hne x hx y hy hxy => ?_
  cases a with
  | assert t => contradiction
  | declare x' sort =>
      cases b with
      | assert t => contradiction
      | declare y' sort' =>
          obtain rfl := Option.some.inj hx
          obtain rfl := (Option.some.inj hy).trans hxy.symm
          have heq := hsort _ _ _ (hs.declares _ _ ha) (hs.declares _ _ hb)
          exact hne rfl rfl (by rw [heq])

/-- An atom with a mark is declared. -/
theorem exists_declares_of_marked (hs : s.Sound V P)
    (hsorts : ∀ x sort, P x sort → ∀ y ∈ sort.atoms, '!' ∉ y.toList) {l : Line}
    (hl : l ∈ s.lines.toList) {x : String} (hx : x ∈ l.sexp.atoms) (hmark : '!' ∈ x.toList) :
    ∃ sort, P x sort := by
  cases l with
  | declare y sort =>
      have hdeclares := hs.declares y sort hl
      simp only [Line.sexp, Sexp.declareConst, Sexp.app, Sexp.atoms, Sexp.atomsList,
        List.mem_append, List.mem_singleton, List.not_mem_nil, or_false] at hx
      rcases hx with rfl | rfl | hx
      · exact absurd hmark (by decide)
      · exact ⟨sort, hdeclares⟩
      · exact absurd hmark (hsorts y sort hdeclares x hx)
  | assert t =>
      simp only [Line.sexp, Sexp.assert, Sexp.app, Sexp.atoms, Sexp.atomsList,
        List.mem_append, List.mem_singleton, List.not_mem_nil, or_false] at hx
      rcases hx with rfl | hx
      · exact absurd hmark (by decide)
      · obtain ⟨before, after, heq⟩ := List.append_of_mem hl
        have hmem := (hs.closed.scoped_of_eq_append heq).marked x hx hmark
        obtain ⟨sort, hsort⟩ := Line.mem_declared.1 (by simpa using hmem)
        refine ⟨sort, hs.declares x sort ?_⟩
        rw [heq]
        exact List.mem_append_left _ hsort

end PathState.Sound

/-- Forgetting flows keeps the invocations of a run. -/
theorem Context.Invokes.release {c : Context} {root site : Site} (h : c.Invokes root site)
    (other : Site) : (c.release other).Invokes root site := by
  induction h with
  | root => exact .root
  | call _ hs ih => exact .call ih hs

namespace Engine

theorem Declares.release {e : Engine} {c : Context} {root : Site} {x : String} {sort : Sexp}
    (h : e.Declares c root x sort) (other : Site) : e.Declares (c.release other) root x sort := by
  obtain ⟨hsite, hg, hv, hs⟩ := h
  exact .ofVariable (hsite.release other) hg hv hs

/-- The lines of a group are those of a sound path. -/
theorem exists_sound_of_mem_cover {e : Engine} (he : e.Filled) (hfew : e.FewFaults)
    {m : MethodRef} {c : Context} (hc : c.Used) {groups : List PathGroup}
    (h : (e.cover m c).1 = .ok groups) {g : PathGroup}
    (hg : g ∈ groups) :
    ∃ s : PathState, s.Sound e.Provides (e.Declares (e.cover m c).2 g.site) ∧
      g.lines = s.lines.toList := by
  obtain ⟨rendered, hrun, rfl⟩ := (cover_eq_ok_iff_eraseDups he hc).1 h
  rw [List.mem_eraseDups] at hg
  obtain ⟨form, root, d, hform, hroot, hd, hcontext, rfl⟩ := renderGroups_eq_reference hc hrun
  obtain ⟨s, hs, rfl⟩ := List.mem_map.1 hg
  have hmethod : root.method = m := by rw [hroot]; rfl
  have hsound := Reference.sound_render he.valid hfew hd.sound e.inliningDepth
    (.root : d.Invokes root root) (by rw [hmethod]; exact hform) [root] s hs
  refine ⟨s, ⟨hsound.closed, fun x sort hx => ?_, hsound.distinct, hsound.value⟩, rfl⟩
  change e.Declares (e.renderGroups m c).2 root x sort
  rw [hcontext]
  exact (hsound.declares x sort hx).release root

/-- **Groups are closed**. Every constant that a group asserts something of is provided by the
language or declared before, and constants with a mark are always declared. A mark stands only in
the constants of invoked methods' local slots, each with the suffix of its invocation; none is left
as its method names it. In an unambiguous program no constant is declared twice. -/
theorem closed_of_mem_cover {e : Engine} (he : e.Filled) (hfew : e.FewFaults) {m : MethodRef}
    {c : Context} (hc : c.Used) {groups : List PathGroup}
    (h : (e.cover m c).1 = .ok groups) {g : PathGroup}
    (hg : g ∈ groups) :
    (∀ before t after, g.lines = before ++ .assert t :: after →
      (∀ x ∈ t.constants, e.Provides x ∨ ∃ sort, .declare x sort ∈ before) ∧
      ∀ x ∈ t.atoms, '!' ∈ x.toList → ∃ sort, .declare x sort ∈ before) ∧
    (∀ l ∈ g.lines, ∀ x ∈ l.sexp.atoms, '!' ∈ x.toList →
      ∃ site graph v, (e.cover m c).2.Invokes g.site site ∧
        e.program.methodGraph? site.method = some graph ∧ v ∈ graph.variables ∧ v.slot.isLocal ∧
        x = graph.method.slotSymbol v.slot ++ "!" ++ site.suffix) ∧
    (∀ l ∈ g.lines, ∀ (m' : MethodRef) (slot : Slot), slot.isLocal →
      m'.slotSymbol slot ∉ l.sexp.atoms) ∧
    (e.program.Unambiguous → (Line.declared g.lines).Nodup) := by
  obtain ⟨s, hs, hlines⟩ := exists_sound_of_mem_cover he hfew hc h hg
  rw [hlines]
  have hmarked : ∀ l ∈ s.lines.toList, ∀ x ∈ l.sexp.atoms, '!' ∈ x.toList →
      ∃ site graph v, (e.cover m c).2.Invokes g.site site ∧
        e.program.methodGraph? site.method = some graph ∧ v ∈ graph.variables ∧ v.slot.isLocal ∧
        x = graph.method.slotSymbol v.slot ++ "!" ++ site.suffix := by
    intro l hl x hx hmark
    obtain ⟨sort, hdeclares⟩ :=
      hs.exists_declares_of_marked (fun _ _ h => h.mark_not_mem_sort) hl hx hmark
    exact hdeclares.exists_local hmark
  refine ⟨fun before t after heq => ?_, hmarked, ?_, fun hp => ?_⟩
  · have hscoped := hs.closed.scoped_of_eq_append heq
    rw [List.nil_append] at hscoped
    simp only [← Line.mem_declared]
    exact ⟨hscoped.constants, hscoped.marked⟩
  · intro l hl m' slot hslot hmem
    obtain ⟨site, graph, v, -, -, -, hlocal, heq⟩ :=
      hmarked l hl _ hmem ((m'.mark_mem_slotSymbol_iff slot).2 hslot)
    exact m'.slotSymbol_ne_renamed graph.method hslot hlocal site.suffix heq
  · exact hs.nodup_declared fun x sort sort' h h' => h.sort_eq hp h'

end Engine

namespace Sample

theorem methodGraph?_program {m : MethodRef} {g : MethodGraph}
    (h : program.methodGraph? m = some g) :
    m = entry ∧ g = entryGraph ∨ m = check ∧ g = checkGraph := by
  simp only [program, Program.methodGraph?, Program.addMethod, Table.find?_set] at h
  split at h
  · next hm => exact Or.inl ⟨hm.symm, (Option.some.inj h).symm⟩
  · split at h
    · next hm => exact Or.inr ⟨hm.symm, (Option.some.inj h).symm⟩
    · contradiction

/-- Both methods have the one variable. -/
theorem unambiguous_program : program.Unambiguous := by
  have hvariables : ∀ m g, program.methodGraph? m = some g → ∀ v ∈ g.variables, v = argument := by
    intro m g hg
    obtain ⟨-, rfl⟩ | ⟨-, rfl⟩ := methodGraph?_program hg <;> decide
  refine ⟨fun m g hg v hv w hw _ => ?_, fun m m' g g' hg hg' hsymbol => ?_, ?_⟩
  · rw [hvariables m g hg v hv, hvariables m g hg w hw]
  · obtain ⟨rfl, rfl⟩ | ⟨rfl, rfl⟩ := methodGraph?_program hg <;>
      obtain ⟨rfl, rfl⟩ | ⟨rfl, rfl⟩ := methodGraph?_program hg'
    · rfl
    · exact absurd hsymbol (by decide)
    · exact absurd hsymbol (by decide)
    · rfl
  · intro m m' g g' hg _ v hv w _ field field' hslot
    rw [hvariables m g hg v hv] at hslot
    contradiction

/-- Both methods have a few instructions. -/
theorem fewFaults_engine : engine.FewFaults := by
  intro m g lookup hg _ source hsource
  refine Nat.lt_of_le_of_lt List.countP_le_length ?_
  obtain ⟨-, rfl⟩ | ⟨-, rfl⟩ := methodGraph?_program hg <;>
    revert source <;> decide

/-- Where `check` throws, its argument and that of `entry` are declared, each once and before it is
used. -/
theorem closed_entry : ∃ groups g, (engine.cover entry .empty).1 = .ok groups ∧ g ∈ groups ∧
    Line.declared g.lines =
      ["Sample.Checks.Run_Bool!p0!0_0", "Sample.Checks.Check_Bool!p0!0_1"] ∧
    g.lines.length = 4 ∧ (Line.declared g.lines).Nodup ∧
    ∀ before t after, g.lines = before ++ .assert t :: after → ∀ x ∈ t.atoms, '!' ∈ x.toList →
      ∃ sort, .declare x sort ∈ before := by
  obtain ⟨rendered, hrun, -, -⟩ := renderGroups_entry
  have hcover : (engine.cover entry .empty).1 = .ok rendered.eraseDups :=
    (Engine.cover_eq_ok_iff_eraseDups filled_engine used_empty).2 ⟨rendered, hrun, rfl⟩
  have hfirst : (engine.renderGroups entry .empty).1.toOption.bind (fun groups =>
      groups.eraseDups[0]?.map fun g => (Line.declared g.lines, g.lines.length)) =
      some (["Sample.Checks.Run_Bool!p0!0_0", "Sample.Checks.Check_Bool!p0!0_1"], 4) := by
    decide +kernel
  rw [hrun] at hfirst
  obtain ⟨g, hg, heq⟩ := Option.map_eq_some_iff.1 hfirst
  obtain ⟨hdeclared, hlength⟩ := Prod.mk.inj heq
  have hmem : g ∈ rendered.eraseDups := List.mem_of_getElem? hg
  obtain ⟨hclosed, -, -, hnodup⟩ :=
    Engine.closed_of_mem_cover filled_engine fewFaults_engine used_empty hcover hmem
  refine ⟨_, g, hcover, hmem, hdeclared, hlength, hnodup unambiguous_program, ?_⟩
  exact fun before t after hlines => (hclosed before t after hlines).2

end Sample

namespace Sample.Reread

open MethodGraph (Instruction)

variable {n : Nat}

/-- The method that reads too often. -/
def program (n : Nat) : Program := Program.empty.addMethod (graph n)

/-! ## filling an engine -/

theorem mem_instructions {i : Instruction} (hi : i ∈ (source n).instructions) :
    i = read ∨ i = ⟨1, .ret, none, []⟩ := by
  rcases List.mem_append.1 hi with hi | hi
  · exact Or.inl (List.eq_of_mem_replicate hi)
  · exact Or.inr (List.mem_singleton.1 hi)

/-- The types that come up. -/
def types : List TypeRef := [.array .int32, .int32, .object]

/-- The types in use. -/
theorem mentionedTypes_subset (n : Nat) : (graph n).mentionedTypes ⊆ types := by
  intro t ht
  simp only [MethodGraph.mentionedTypes, List.mem_eraseDups, List.mem_append,
    List.mem_flatMap] at ht
  rcases ht with (ht | ⟨b, hb, i, hi, ht⟩) | ht
  · obtain rfl := List.mem_singleton.1 ht
    decide
  · obtain rfl := List.mem_singleton.1 hb
    have hall : ∀ i ∈ [read, ⟨1, .ret, none, []⟩],
        i.variables.map (·.type) ++ i.namedTypes ⊆ types := by decide
    exact hall i (by simpa using mem_instructions hi) (List.mem_append.2 ht)
  · obtain rfl := List.mem_singleton.1 ht
    decide

theorem exists_encode {t : TypeRef} (ht : t ∈ types) :
    ∃ s, Sentence.encode none (program n) t = .ok s ∧ s.dependencies ⊆ types := by
  simp only [types, List.mem_cons, List.not_mem_nil, or_false] at ht
  rcases ht with rfl | rfl | rfl <;> exact ⟨_, rfl, by decide⟩

theorem form?_program (n : Nat) : (program n).form? {} method = some (form n) := by
  have hform : Form.ofGraph ((program n).lookup none) (graph n) = .ok (form n) := by
    refine (Form.ofGraph_congr fun t ht => ?_).trans (form_eq n)
    have ht := mentionedTypes_subset n ht
    simp only [types, List.mem_cons, List.not_mem_nil, or_false] at ht
    rcases ht with rfl | rfl | rfl <;> rfl
  have hleft : Options.leavesOut {} method = false := by decide
  have hgraph : (program n).methodGraph? method = some (graph n) := rfl
  rw [Program.form?, hleft, hgraph]
  change (Form.ofGraph ((program n).lookup none) (graph n)).toOption = _
  rw [hform]
  rfl

/-- All that is needed resolves. -/
theorem resolvable_of_needs {a : PendingRef} (h : (program n).Needs {} (.method method) a) :
    (program n).Resolvable {} a := by
  have hcases : a = .method method ∨ ∃ t ∈ types, a = .type t := by
    induction h with
    | refl => exact Or.inl rfl
    | tail _ huse ih =>
        obtain rfl | ⟨t, ht, rfl⟩ := ih
        · cases huse with
          | callee hf h =>
              obtain rfl := Option.some.inj ((form?_program n).symm.trans hf)
              obtain ⟨b, hb, h⟩ := List.mem_flatMap.1 (Form.referencedMethods_subset (form_eq n) h)
              obtain rfl := List.mem_singleton.1 hb
              obtain ⟨i, hi, h⟩ := List.mem_filterMap.1 h
              obtain rfl | rfl := mem_instructions hi <;> cases h
          | mention _ hg ht =>
              obtain rfl := Option.some.inj hg
              exact Or.inr ⟨_, mentionedTypes_subset n ht, rfl⟩
        · obtain ⟨s, hs, hsub⟩ := exists_encode (n := n) ht
          cases huse with
          | dependency hs' hu =>
              obtain rfl := Except.ok.inj (hs.symm.trans hs')
              exact Or.inr ⟨_, hsub hu, rfl⟩
  obtain rfl | ⟨t, ht, rfl⟩ := hcases
  · exact ⟨_, form?_program n⟩
  · obtain ⟨s, hs, -⟩ := exists_encode (n := n) ht
    exact ⟨s, hs⟩

/-- The engine that has resolved it. -/
def engine (n : Nat) : Engine := ((Engine.new (program n) {}).resolveMethod method [] []).2

theorem exists_answer (n : Nat) :
    ∃ answer, ((Engine.new (program n) {}).resolveMethod method [] []).1 = .ok answer :=
  ((Engine.grounded_new (program n) {}).exists_answer_iff method).2 fun _ => resolvable_of_needs

theorem filled_engine (n : Nat) : (engine n).Filled := by
  obtain ⟨answer, hanswer⟩ := exists_answer n
  exact .resolveMethod (.new (program n) {}) (Prod.ext hanswer rfl)

theorem form?_engine (n : Nat) : (engine n).form? method = some (form n) := by
  obtain ⟨answer, hanswer⟩ := exists_answer n
  exact ((Engine.grounded_new (program n) {}).find?_forms_resolveMethod_iff hanswer).2
    ⟨Or.inr .refl, form?_program n⟩

theorem options_engine (n : Nat) : (engine n).options = {} :=
  ((Engine.new (program n) {}).program_perform (.method method [] [])).2

/-! ## the only path -/

/-- From the entry to what is kept as the first segment, and out of the method. -/
def skeleton : Skeleton := { steps := [⟨.entry, 0⟩, ⟨.node 0, 0⟩], exit := .returned }

/-- The site at which it is covered. -/
def root : Site := { method, sequence := 0, callOrder := 0 }

/-- The lines along the path. -/
def lines : List Line :=
  [.declare "Sample.Arrays.Reread_Int32_Array!p0!0_0" (.atom "Int_Array"),
    .assert (.eq (.atom "Sample.Arrays.Reread_Int32_Array!s0!0_0")
      (.list [.atom "seq.len", .list [.list [.atom "as", .atom "SeqArray_value",
        .list [.atom "Seq", .atom "Int"]], .atom "Sample.Arrays.Reread_Int32_Array!p0!0_0"]]))]

section

variable {f : Form} {before before' : List BlockId}
  (hentry : f.block? .entry = some { entry with predecessors := before })
  (hnode : f.block? (.node 0) = some
    { id := .node 0
      predecessors := before'
      assertions := statements
      successors := [⟨.always, .regularExit⟩] })

include hentry hnode

/-- There is one path. -/
theorem paths_eq : f.paths 4096 = .ok [skeleton] := by
  obtain ⟨fuel, hfuel⟩ :=
    Nat.exists_eq_add_one.2 (List.length_pos_of_mem (Form.of_block?_eq_some hentry).1)
  rw [Form.paths, hfuel, Form.walk, hentry]
  change (f.walk 4096 (fuel + 1) (.node 0) [⟨.entry, 0⟩] [.node 0] #[] >>= pure) >>= _ = _
  rw [Form.walk, hnode]
  rfl

theorem exec_renderForm {e : Engine} (he : e.options = {}) {c : Context} (hc : c.skeletons = ∅)
    (hdeclared : f.declared = (form 0).declared) (inline : Run.Inliner) :
    ((Run.renderForm e f root [root] inline).exec c).1 =
      .ok [{ lines := lines.toArray, exit := some .returned }] := by
  have hpaths : (Run.withContext (·.paths f e.options.maxPaths)).exec c =
      (.ok (.ok [skeleton]),
        { c with skeletons := c.skeletons.set (f.method, 4096) (f, [skeleton]) }) := by
    have hnone : c.skeletons.find? (f.method, 4096) = none := by rw [hc]; rfl
    have henumerated : c.paths f 4096 = (.ok [skeleton],
        { c with skeletons := c.skeletons.set (f.method, 4096) (f, [skeleton]) }) := by
      simp only [Context.paths, hnone, paths_eq hentry hnode]
    rw [he]
    exact congrArg (fun r => (Except.ok r.1, r.2)) henumerated
  have hfirst : Run.stepStatements f ⟨.entry, 0⟩ = .ok entry.declarations := by
    rw [Run.stepStatements, hentry]
    rfl
  have hsecond : Run.stepStatements f ⟨.node 0, 0⟩ = .ok statements := by
    rw [Run.stepStatements, hnode]
    simp [Block.guards]
  have hrenaming : Renaming.of f root = Renaming.of (form 0) root := by
    rw [Renaming.of, Renaming.of, Form.locals, Form.locals, hdeclared]
  rw [Run.renderForm, Run.exec_bind_of_ok hpaths]
  generalize ({ c with skeletons := _ } : Context) = c'
  obtain ⟨program, options, types, forms, handlers⟩ := e
  obtain rfl := he
  change ((Run.renderAll _ f root [root] inline 0 [skeleton]).exec c').1 = _
  simp only [Run.renderAll, Run.renderPath, skeleton, Run.applySteps, hfirst, hsecond, hrenaming]
  with_unfolding_all rfl

end

/-- The group that is written. -/
theorem cover_engine (hn : n + 1 = 65536) :
    ∃ g, ((engine n).cover method .empty).1 = .ok [g] ∧ g.lines = lines := by
  obtain ⟨before, hentry⟩ := block?_entry n
  obtain ⟨before', hnode⟩ := block?_node hn
  have hrender : ∀ depth, ((Run.render (engine n) depth (form n) root [root]).exec
      (Context.empty.rootSite method).2).1 =
        .ok [{ lines := lines.toArray, exit := some .returned }] := by
    intro depth
    cases depth <;> exact exec_renderForm hentry hnode (options_engine n) rfl rfl _
  have hgroups : ((engine n).renderGroups method .empty).1 = .ok [PathGroup.ofState method root
      { lines := lines.toArray, exit := some .returned }] := by
    rw [Engine.renderGroups, form?_engine]
    exact congrArg (Except.map _) (hrender _)
  have hcover := (Engine.cover_eq_ok_iff_eraseDups (filled_engine n) used_empty).2
    ⟨_, hgroups, rfl⟩
  exact ⟨_, hcover, rfl⟩

/-- With one segment more than there are numbers, a group asserts something of a constant that it
does not declare. -/
theorem undeclared_constant : ∃ e groups g before t after x, Engine.Filled e ∧
    (e.cover method .empty).1 = .ok groups ∧ g ∈ groups ∧
    g.lines = before ++ .assert t :: after ∧ x ∈ t.atoms ∧ '!' ∈ x.toList ∧
    ∀ sort, .declare x sort ∉ before := by
  obtain ⟨g, hcover, hlines⟩ := cover_engine (n := 65535) rfl
  refine ⟨engine 65535, [g], g, lines.take 1, _, [], "Sample.Arrays.Reread_Int32_Array!s0!0_0",
    filled_engine 65535, hcover, List.mem_singleton_self g, hlines, by decide, by decide, ?_⟩
  intro sort hmem
  exact absurd (Line.declare.inj (List.mem_singleton.1 hmem)).1 (by decide)

end Sample.Reread

end Pathwise
