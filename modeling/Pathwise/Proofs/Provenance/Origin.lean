import Pathwise.Proofs.Invariant
import Pathwise.Proofs.Provenance.Assignment
import Pathwise.Proofs.Renumbering.Origin

/-!
# Pathwise.Proofs.Provenance.Origin

Origins are justified by the lines of their path. Every flow that a path records
stands for an equation among its assertions: that of an assignment, of a
parameter with its argument, or of the target of a call with the value returned
(`Reference.justified_render`). Following flows backwards from the returned value
is therefore following equations, and the origin of the value is where that chain
ends (`Engine.linked_returnOrigin`).
-/

namespace Pathwise

open Relation (ReflTransGen)

/-! ## recorded flows -/

namespace Context

variable {c d : Context}

/-- Every flow is stored under its key. -/
def Keyed (c : Context) : Prop := ∀ entry ∈ c.flows.entries, entry.2.key = entry.1

theorem Keyed.flow (h : c.Keyed) (key : FlowKey) : (c.flow key).2.Keyed := by
  unfold Context.flow
  cases hfind : c.flows.find? key with
  | some f => exact h
  | none =>
      simp only [Keyed, Table.insertNew, Table.contains, hfind]
      exact List.forall_mem_cons.2 ⟨rfl, h⟩

theorem Step.keyed (h : Step c d) (hc : c.Keyed) : d.Keyed := by
  cases h with
  | rootSite m => exact hc
  | callSite parent offset callee =>
      obtain ⟨s, -, heq⟩ | ⟨-, order, s, -, heq⟩ := c.callSite_cases parent offset callee
      all_goals rw [heq]; exact hc
  | pointer site offset type =>
      obtain ⟨n, -, heq⟩ | ⟨-, n, heq⟩ := c.pointer_cases site offset type
      all_goals rw [heq]; exact hc
  | flow key => exact hc.flow key
  | release root => exact fun entry hentry => hc entry (List.mem_filter.1 hentry).1
  | paths f limit =>
      obtain ⟨ps, -, heq⟩ | ⟨err, -, heq⟩ | ⟨ps, -, heq⟩ := c.paths_cases f limit
      all_goals rw [heq]; exact hc

theorem Used.keyed (h : c.Used) : c.Keyed := by
  induction h with
  | refl => exact nofun
  | tail _ hstep ih => exact hstep.keyed ih

end Context

/-- A flow that equations stand for, or that leads nowhere else. -/
def Flow.Justified (e : Engine) (terms : List Sexp) (f : Flow) : Prop :=
  f.source = f.target ∨ ∃ a : Sexp, a.render = f.source ∧
    e.program.Equates e.options.exceptionBase terms f.target a

theorem Flow.Justified.mono {e : Engine} {terms terms' : List Sexp} {f : Flow}
    (h : f.Justified e terms) (hsub : terms ⊆ terms') : f.Justified e terms' := by
  obtain hloop | ⟨a, ha, hequates⟩ := h
  · exact Or.inl hloop
  · exact Or.inr ⟨a, ha, hequates.mono hsub⟩

namespace Flows

variable {R : String → String → Prop} {t : Flows}

/-- Every flow that is followed is a step, so the last one ends where steps lead. -/
theorem reflTransGen_trace (h : ∀ f ∈ t.recorded, ReflTransGen R f.target f.source) (fuel : Nat)
    (symbol : String) (followed : List Flow) :
    ReflTransGen R symbol
      (((t.trace fuel symbol followed).getLast?.map Flow.source).getD symbol) := by
  induction fuel generalizing symbol followed with
  | zero => exact .refl
  | succ fuel ih =>
      unfold trace
      cases hf : t.latest? symbol with
      | none => exact .refl
      | some f =>
          obtain ⟨hmem, rfl⟩ := of_latest? hf
          simp only
          split
          · exact .refl
          · rw [List.getLast?_cons]
            refine (h f hmem).trans ?_
            have hrest := ih f.source (f :: followed)
            cases hlast : (t.trace fuel f.source (f :: followed)).getLast? with
            | none => exact .refl
            | some last =>
                rw [hlast] at hrest
                exact hrest

theorem reflTransGen_origin (h : ∀ f ∈ t.recorded, ReflTransGen R f.target f.source)
    (symbol : String) : ReflTransGen R symbol (t.origin symbol) := by
  rw [origin_eq]
  exact reflTransGen_trace h (t.recorded.length + 1) symbol []

end Flows

/-! ## paths -/

namespace PathState

@[simp]
theorem flows_push (s : PathState) (l : Line) : (s.push l).flows = s.flows := by
  unfold push
  split <;> rfl

@[simp]
theorem flows_pushAll (s : PathState) (ls : List Line) : (s.pushAll ls).flows = s.flows := by
  induction ls generalizing s with
  | nil => rfl
  | cons l ls ih => exact (ih _).trans (s.flows_push l)

/-- A path that asserts equations for all its flows. -/
def Justified (e : Engine) (s : PathState) : Prop :=
  ∀ f ∈ s.flows.recorded, f.Justified e s.asserted

namespace Justified

variable {e : Engine} {s t : PathState}

theorem empty (e : Engine) : Justified e {} := by
  simp [Justified, Flows.empty]

theorem of_subset (hs : s.Justified e) (hflows : t.flows = s.flows)
    (hasserted : s.asserted ⊆ t.asserted) : t.Justified e := by
  intro f hf
  rw [hflows] at hf
  exact (hs f hf).mono hasserted

theorem push (hs : s.Justified e) (l : Line) : (s.push l).Justified e :=
  hs.of_subset (s.flows_push l) (by simp)

theorem pushAll (hs : s.Justified e) (ls : List Line) : (s.pushAll ls).Justified e :=
  hs.of_subset (s.flows_pushAll ls) (by simp)

theorem append (hs : s.Justified e) {path : PathState} (hpath : path.Justified e) :
    (s.append path).Justified e := by
  intro f hf
  rw [asserted_append]
  obtain hf | hf := List.mem_append.1 hf
  · exact (hpath f hf).mono (List.subset_append_right _ _)
  · rw [flows_pushAll] at hf
    exact (hs f hf).mono (List.subset_append_left _ _)

end Justified

end PathState

/-! ## rendering -/

namespace Reference

variable {e : Engine} {c : Context} {s : PathState} (site : Site) (stack : List Site) {f : Form}

/-- A flow can be recorded once its equation is asserted. A flow that the context lacks would lead
from the empty name to itself. -/
theorem justified_record (hc : c.Keyed) (hs : s.Justified e) (offset : Nat) {source : Sexp}
    {target : String}
    (h : e.program.Equates e.options.exceptionBase s.asserted target source) :
    (record c site stack offset source target s).Justified e := by
  refine List.forall_mem_cons.2 ⟨?_, hs⟩
  let key : FlowKey := ⟨offset, source.render, target, site, stack⟩
  change Flow.Justified e s.asserted ((c.flows.find? key).getD default)
  cases hfind : c.flows.find? key with
  | none => exact Or.inl rfl
  | some f =>
      have hkey : f.key = key := hc _ (Table.mem_entries_of_find? hfind)
      refine Or.inr ⟨source, ?_, ?_⟩
      · rw [Option.getD_some, Flow.source, hkey]
      · rw [Option.getD_some, Flow.target, hkey]
        exact h

/-- To assert an equation and record its flow. -/
theorem justified_bind (hc : c.Keyed) (hs : s.Justified e) (offset : Nat) (source : Sexp)
    (target : String) :
    (record c site stack offset source target
      (s.push (.assert (.eq (.atom target) source)))).Justified e :=
  justified_record site stack hc (hs.push _) offset ⟨source, by simp [Line.term?], Or.inl rfl⟩

theorem justified_enter (hc : c.Keyed) (offset : Nat) (inlined : Inlined) (arguments : List Sexp)
    (hs : s.Justified e) : (enter c site stack offset inlined arguments s).Justified e := by
  have hbind : ∀ (bound : List (Form.Parameter × Sexp)) (s : PathState), s.Justified e →
      (bindParameters c (.of inlined.form inlined.site) site stack offset bound s).Justified e := by
    intro bound
    induction bound with
    | nil => exact fun s hs => hs
    | cons b bound ih => exact fun s hs => ih _ (justified_bind site stack hc hs offset b.2 _)
  exact hbind _ _ (hs.pushAll _)

theorem justified_comeBack (hc : c.Keyed) (offset : Nat) (target : Option String)
    (path : PathState) (hs : s.Justified e) :
    (comeBack c site stack offset target path s).Justified e := by
  have hreturn : (bindResult c site stack offset target path.returnValue s).Justified e := by
    cases target with
    | none => exact hs
    | some x =>
        cases path.returnValue with
        | none => exact hs
        | some v => exact justified_bind site stack hc hs offset v x
  unfold comeBack
  split
  · exact hreturn
  · exact hreturn
  · exact hs.of_subset rfl fun _ => id

/-- The effect of a statement acts on a path that has the lines of the statement. -/
theorem justified_reach (hc : c.Keyed) (hf : f.Assigns e.program e.options.exceptionBase)
    {p : Placed} (hp : p ∈ f.statements) (hs : s.Justified e) :
    (reach e c site stack (.of f site) p s).Justified e := by
  let lines := p.statement.lines.map (Renaming.of f site).line
  let extra := extraLines e c (.of f site) site p
  have hlines : ((s.pushAll lines).pushAll extra).Justified e := (hs.pushAll _).pushAll _
  have hasserted : lines.filterMap Line.term? ⊆ ((s.pushAll lines).pushAll extra).asserted := by
    simp [List.append_assoc]
  unfold reach
  cases heffect : p.statement.effect with
  | assign source target =>
      exact justified_record site stack hc hlines _
        ((hf p hp site source target heffect).mono hasserted)
  | ret value => exact hlines.of_subset rfl fun _ => id
  | _ => exact hlines

theorem justified_afterCall (hc : c.Keyed) (offset : Nat)
    (call : Option (MethodRef × List Sexp × Option String)) {inlined : Option Inlined}
    (hinlined : ∀ i ∈ inlined, ∀ path ∈ i.paths, path.Justified e) (hs : s.Justified e) :
    ∀ t ∈ afterCall c site stack offset s call inlined, t.Justified e := by
  unfold afterCall
  split
  · next callee arguments target i =>
      refine List.forall_mem_map.2 fun path hpath => ?_
      have henter := justified_enter site stack hc offset i arguments hs
      exact justified_comeBack site stack hc offset target path
        (henter.append (hinlined i rfl path hpath))
  · exact List.forall_mem_singleton.2 hs

/-- **One statement** keeps a path justified. -/
theorem justified_statement (hc : c.Keyed) (hf : f.Assigns e.program e.options.exceptionBase)
    {inline : Inliner}
    (hinline : ∀ offset callee, ∀ i ∈ inline offset callee, ∀ path ∈ i.paths, path.Justified e)
    {p : Placed} (hp : p ∈ f.statements) (hs : s.Justified e) :
    ∀ t ∈ statement e c site stack inline (.of f site) p s, t.Justified e := by
  unfold statement
  split
  · exact List.forall_mem_singleton.2 hs
  · refine justified_afterCall site stack hc _ _ (fun i hi => ?_)
      (justified_reach site stack hc hf hp hs)
    obtain ⟨call, -, hi⟩ := Option.bind_eq_some_iff.1 hi
    exact hinline _ call.1 i hi

theorem invariant_justified (he : e.Valid) (hc : c.Keyed) :
    Invariant e c (Form.Assigns e.program e.options.exceptionBase) (PathState.Justified e) where
  forms _ _ hform := he.assigns hform
  start := .empty e
  complete _ _ hs := hs.of_subset rfl fun _ => id
  statement _ site stack _ hf hinline _ hp _ hs :=
    justified_statement site stack hc hf
      (fun offset callee i hi => (hinline offset callee i hi).2) hp hs

/-- **Rendered paths are justified**, with their callees inlined. -/
theorem justified_render (he : e.Valid) (hc : c.Keyed) (depth : Nat) {m : MethodRef}
    (hf : e.form? m = some f) :
    ∀ t ∈ render e c depth f site stack, t.Justified e :=
  (invariant_justified he hc).render (he.assigns hf) site stack depth

end Reference

/-! ## groups -/

/-- The lines of a group assert that one term equals another, or a conversion of it. -/
def PathGroup.Links (e : Engine) (g : PathGroup) (x y : String) : Prop :=
  ∃ a value : Sexp, a.render = y ∧
    (value = a ∨ e.program.Converts e.options.exceptionBase a value) ∧
    "(assert (= " ++ x ++ " " ++ value.render ++ "))" ∈ g.lines.map Line.render

theorem Line.render_assert_eq (x : String) (value : Sexp) :
    (Line.assert (.eq (.atom x) value)).render =
      "(assert (= " ++ x ++ " " ++ value.render ++ "))" := by
  apply String.toList_inj.1
  simp [Line.render, Line.sexp, Sexp.assert, Sexp.eq, Sexp.app, Sexp.render, Sexp.renderMore]

namespace Engine

/-- **Origins are justified by the path**: from the returned value, equations between terms of the
path, or conversions of them, lead to the origin. -/
theorem linked_returnOrigin {e : Engine} (he : e.Filled) {m : MethodRef} {c : Context}
    (hc : c.Used) {groups : List PathGroup} (h : (e.cover m c).1 = .ok groups) {g : PathGroup}
    (hg : g ∈ groups) {r : Sexp} (hr : g.returnValue = some r) :
    ∃ o, g.returnOrigin = some o ∧ ReflTransGen (g.Links e) r.render o := by
  obtain ⟨rendered, hrun, rfl⟩ := (cover_eq_ok_iff_eraseDups he hc).1 h
  rw [List.mem_eraseDups] at hg
  obtain ⟨form, root, d, hform, -, hd, -, rfl⟩ := renderGroups_eq_reference hc hrun
  obtain ⟨s, hs, rfl⟩ := List.mem_map.1 hg
  have hjustified := Reference.justified_render root [root] he.valid hd.keyed e.inliningDepth hform
    s hs
  refine ⟨s.flows.origin r.render, ?_, Flows.reflTransGen_origin (fun f hf => ?_) _⟩
  · change s.returnValue.map _ = _
    rw [show s.returnValue = some r from hr]
    rfl
  · obtain heq | ⟨a, ha, value, hvalue, hsource⟩ := hjustified f hf
    · rw [heq]
    · refine .single ⟨a, value, ha, hsource, ?_⟩
      obtain ⟨l, hl, hterm⟩ := List.mem_filterMap.1 hvalue
      rw [← Line.render_assert_eq]
      cases l with
      | declare => contradiction
      | assert t =>
          obtain rfl := Option.some.inj hterm
          exact List.mem_map_of_mem hl

end Engine

namespace Sample.Widening

def owner : TypeRef := .named "Sample" "Numbers" []

/-- Keeps its argument as a floating-point number and returns it. -/
def widen : MethodRef := .static owner "Widen" [.int32] .float64

/-- Returns what `widen` gives for its argument. -/
def run : MethodRef := .static owner "Run" [.int32] .float64

/-- The number that is passed. -/
def argument : Variable := ⟨.parameter 0, .int32⟩

/-- The number in a wider type. -/
def widened : Variable := ⟨.localVar 0, .float64⟩

/-- What the call returns. -/
def result : Variable := ⟨.stack 0, .float64⟩

/-- Assign the argument to a wider slot and return it. -/
def widenGraph : MethodGraph :=
  { method := widen
    blocks := [
      { index := 0
        instructions := [⟨0, .assign, some widened, [argument]⟩, ⟨1, .ret, none, [widened]⟩]
        successors := [] }] }

/-- Return what `widen` does. -/
def runGraph : MethodGraph :=
  { method := run
    blocks := [
      { index := 0
        instructions := [⟨0, .call widen false, some result, [argument]⟩, ⟨1, .ret, none, [result]⟩]
        successors := [] }] }

/-- Both methods. -/
def program : Program := (Program.empty.addMethod widenGraph).addMethod runGraph

/-- The engine that has resolved `run`. -/
def engine : Engine := ((Engine.new program {}).resolveMethod run [] []).2

theorem filled : engine.Filled := .of_isOk (.new program {}) (by decide)

/-- The value of `run` comes from its argument, through the call and the conversion in `widen`. -/
theorem linked_run : ∃ groups g r, (engine.cover run .empty).1 = .ok groups ∧ g ∈ groups ∧
    g.returnValue = some r ∧ r.render = "Sample.Numbers.Run_Int32!s0!0_0" ∧
    "(assert (= Sample.Numbers.Widen_Int32!l0!0_1 (to_real Sample.Numbers.Widen_Int32!p0!0_1)))" ∈
      g.lines.map Line.render ∧
    ReflTransGen (g.Links engine) r.render "Sample.Numbers.Run_Int32!p0!0_0" := by
  have hgroup : (engine.renderGroups run .empty).1.toOption.bind (fun groups =>
      groups.eraseDups[0]?.bind fun g => g.returnValue.map fun r => (r.render, g.returnOrigin,
        decide ("(assert (= Sample.Numbers.Widen_Int32!l0!0_1 " ++
          "(to_real Sample.Numbers.Widen_Int32!p0!0_1)))" ∈ g.lines.map Line.render))) =
      some ("Sample.Numbers.Run_Int32!s0!0_0", some "Sample.Numbers.Run_Int32!p0!0_0", true) := by
    decide +kernel
  cases hrun : (engine.renderGroups run .empty).1 with
  | error err =>
      rw [hrun] at hgroup
      contradiction
  | ok rendered =>
      rw [hrun] at hgroup
      change rendered.eraseDups[0]?.bind _ = _ at hgroup
      obtain ⟨g, hg, hgroup⟩ := Option.bind_eq_some_iff.1 hgroup
      obtain ⟨r, hr, heq⟩ := Option.map_eq_some_iff.1 hgroup
      obtain ⟨hrender, heq⟩ := Prod.mk.inj heq
      obtain ⟨horigin, hconverted⟩ := Prod.mk.inj heq
      have hcover : (engine.cover run .empty).1 = .ok rendered.eraseDups :=
        (Engine.cover_eq_ok_iff_eraseDups filled used_empty).2 ⟨rendered, hrun, rfl⟩
      have hmem : g ∈ rendered.eraseDups := List.mem_of_getElem? hg
      obtain ⟨o, ho, hlinked⟩ := Engine.linked_returnOrigin filled used_empty hcover hmem hr
      obtain rfl : o = _ := Option.some.inj (ho.symm.trans horigin)
      exact ⟨_, g, r, hcover, hmem, hr, hrender, of_decide_eq_true hconverted, hlinked⟩

end Sample.Widening

end Pathwise
