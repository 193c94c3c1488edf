import Pathwise.Proofs.Coverable.Run
import Pathwise.Proofs.Renumbering.Form
import Pathwise.Proofs.Renumbering.Origin
import Pathwise.Proofs.Renumbering.Twins

/-!
# Pathwise.Proofs.Renumbering.Render

Rendering one form at two sites that correspond. `Run.Matches` is the relational
counterpart of a triple: from twin contexts, two computations end in later twin
contexts, with the same error or with values that are related there. Rendering
matches itself (`Run.matches_render`): the paths it returns have corresponding
lines, values and flows, in the same order.
-/

namespace Pathwise

open List (Forall₂)
open Correspondence (Slots Constants Terms Texts Asserted)

/-! ## corresponding invocations -/

/-- One form at two sites that correspond. -/
structure Correspondence.Invocation (κ : Correspondence) (e : Engine) (f : Form) (s t : Site) :
    Prop where
  renamable : f.Renamable e.Provides
  form : e.form? s.method = some f
  sites : κ.sites s t

/-- A call of the same method with corresponding arguments. -/
structure Correspondence.Calls (κ : Correspondence) (e : Engine)
    (a b : MethodRef × List Sexp × Option String) : Prop where
  callee : a.1 = b.1
  arguments : Forall₂ (κ.Terms e) a.2.1 b.2.1
  target : Option.Rel (κ.Slots e) a.2.2 b.2.2

namespace Correspondence.Invocation

variable {κ κ' : Correspondence} {e : Engine} {f : Form} {s t : Site}

theorem mono (hκ : κ.Le κ') (h : κ.Invocation e f s t) : κ'.Invocation e f s t :=
  ⟨h.renamable, h.form, hκ.sites s t h.sites⟩

/-- Symbols are renamed alike. -/
theorem slots_symbol (h : κ.Invocation e f s t) {x : String} (hx : x ∈ f.symbols) :
    κ.Slots e ((Renaming.of f s).symbol x) ((Renaming.of f t).symbol x) := by
  obtain ⟨slot, hslot⟩ := h.renamable.slots x hx
  rw [hslot s, hslot t]
  exact .at h.sites h.form slot

/-- Terms are renamed alike. -/
theorem terms_term (h : κ.Invocation e f s t) {a : Sexp} (ha : a.Scoped e.Provides f.symbols) :
    κ.Terms e ((Renaming.of f s).term a) ((Renaming.of f t).term a) := by
  refine Sexp.Rel.mapAtoms fun x hx => ?_
  by_cases hmark : '!' ∈ x.toList
  · exact (h.slots_symbol (ha.marked x hx hmark)).constants
  · rw [h.renamable.fixes s x hmark, h.renamable.fixes t x hmark]
    exact .plain hmark

theorem terms_map (h : κ.Invocation e f s t) {as : List Sexp}
    (has : ∀ a ∈ as, a.Scoped e.Provides f.symbols) :
    Forall₂ (κ.Terms e) (as.map (Renaming.of f s).term) (as.map (Renaming.of f t).term) := by
  rw [List.forall₂_map_left_iff, List.forall₂_map_right_iff, List.forall₂_same]
  exact fun a ha => h.terms_term (has a ha)

/-- Lines are renamed alike. -/
theorem lines_map (h : κ.Invocation e f s t) {p : Placed} (hp : p ∈ f.statements) :
    Forall₂ (Line.Corresponds κ e) (p.statement.lines.map (Renaming.of f s).line)
      (p.statement.lines.map (Renaming.of f t).line) := by
  rw [List.forall₂_map_left_iff, List.forall₂_map_right_iff, List.forall₂_same]
  intro l hl
  obtain ⟨slot, x, sort, hbody, hx⟩ | hscoped := h.renamable.statements p hp
  · simp only [Statement.lines, hbody, List.mem_singleton] at hl
    subst hl
    exact .declare (h.slots_symbol hx).constants sort
  · rw [Statement.lines_eq hscoped.asserts] at hl
    obtain ⟨a, ha, rfl⟩ := List.mem_map.1 hl
    exact .assert (.term (h.terms_term (hscoped.terms a ha))
      fun hpointer => h.renamable.silent p hp a ha hpointer.of_term)

/-- The effect of a statement only uses what its form declares. -/
theorem scoped_effect (h : κ.Invocation e f s t) {p : Placed} (hp : p ∈ f.statements) :
    p.statement.effect.Scoped e.Provides f.symbols := by
  obtain ⟨slot, x, sort, hbody, -⟩ | hscoped := h.renamable.statements p hp
  · simp only [Statement.effect, hbody]
    trivial
  · exact hscoped.effect

theorem allocated_demand (h : κ.Invocation e f s t) {effect : Effect}
    (heffect : effect.Scoped e.Provides f.symbols) :
    Option.Rel (fun a b => a.1 = b.1 ∧ κ.Slots e a.2 b.2)
      (Run.demand (.of f s) effect).allocated (Run.demand (.of f t) effect).allocated := by
  cases effect with
  | allocate type target => exact .some ⟨rfl, h.slots_symbol heffect⟩
  | construct type target constructor arguments => exact .some ⟨rfl, h.slots_symbol heffect.1⟩
  | _ => exact .none

theorem call_demand (h : κ.Invocation e f s t) {effect : Effect}
    (heffect : effect.Scoped e.Provides f.symbols) :
    Option.Rel (κ.Calls e) (Run.demand (.of f s) effect).call
      (Run.demand (.of f t) effect).call := by
  cases effect with
  | call callee arguments target =>
      refine .some ⟨rfl, h.terms_map heffect.1, ?_⟩
      cases target with
      | none => exact .none
      | some x => exact .some (h.slots_symbol (heffect.2 x rfl))
  | construct type target constructor arguments =>
      exact .some ⟨rfl, h.terms_map heffect.2, .none⟩
  | _ => exact .none

end Correspondence.Invocation

/-! ## corresponding paths -/

variable {e : Engine}

/-- Paths with corresponding lines, values and flows. The flows are those of the two contexts. -/
structure PathState.Corresponds (w : Twins e) (s s' : PathState) : Prop where
  lines : Forall₂ (Line.Corresponds w.toCorrespondence e) s.lines.toList s'.lines.toList
  exit : s.exit = s'.exit
  returnValue : Option.Rel (w.Terms e) s.returnValue s'.returnValue
  flows : Forall₂ (Flow.Corresponds w.toCorrespondence e) s.flows.recorded s'.flows.recorded
  stored : (∀ f ∈ s.flows.recorded, w.left.flows.find? f.key = some f) ∧
    ∀ f ∈ s'.flows.recorded, w.right.flows.find? f.key = some f

theorem Flow.Corresponds.mono {κ κ' : Correspondence} (hκ : κ.Le κ') {f f' : Flow}
    (h : f.Corresponds κ e f') : f.Corresponds κ' e f' where
  source := by
    obtain ⟨a, b, hab, ha, hb⟩ := h.source
    exact ⟨a, b, hab.mono hκ, ha, hb⟩
  target := h.target.mono hκ

namespace PathState.Corresponds

variable {w w' : Twins e} {s s' : PathState}

theorem empty (w : Twins e) : PathState.Corresponds w {} {} :=
  ⟨.nil, rfl, .none, .nil, by simp [Flows.empty], by simp [Flows.empty]⟩

theorem mono (hw : w.Le w') (h : s.Corresponds w s') : s.Corresponds w' s' where
  lines := h.lines.imp fun _ _ hl => hl.mono hw.correspondence
  exit := h.exit
  returnValue := Option.Rel.imp (fun _ _ hv => hv.mono hw.correspondence) h.returnValue
  flows := h.flows.imp fun _ _ hf => hf.mono hw.correspondence
  stored := ⟨fun f hf => hw.left.flow _ _ (h.stored.1 f hf),
    fun f hf => hw.right.flow _ _ (h.stored.2 f hf)⟩

/-- Flows that are stored are known by their numbers. -/
theorem numbered (h : s.Corresponds w s') : s.flows.Numbered ∧ s'.flows.Numbered :=
  ⟨fun f hf g hg hid => w.lawful.1.flows.injective _ _ f g (h.stored.1 f hf) (h.stored.1 g hg) hid,
    fun f hf g hg hid =>
      w.lawful.2.flows.injective _ _ f g (h.stored.2 f hf) (h.stored.2 g hg) hid⟩

/-- A line goes to both. -/
theorem push (he : e.Distinct) (h : s.Corresponds w s') {l l' : Line}
    (hl : l.Corresponds w.toCorrespondence e l') : (s.push l).Corresponds w (s'.push l') := by
  have hkind : l.isDeclaration = l'.isDeclaration := by cases hl <;> rfl
  have hmem : l.isDeclaration → (l ∈ s.lines.toList ↔ l' ∈ s'.lines.toList) := by
    intro hdeclaration
    cases hl with
    | declare hx sort => exact Line.declare_mem_iff w.oneToOne he h.lines hx sort
    | assert => contradiction
  obtain ⟨hd, hin, heq⟩ | ⟨hnew, heq⟩ := s.push_cases l <;>
    obtain ⟨hd', hin', heq'⟩ | ⟨hnew', heq'⟩ := s'.push_cases l'
  · rw [heq, heq']
    exact h
  · exact absurd ((hmem hd).1 hin) (hnew' (hkind ▸ hd))
  · exact absurd ((hmem (hkind ▸ hd')).2 hin') (hnew (hkind ▸ hd'))
  · rw [heq, heq']
    refine ⟨?_, h.exit, h.returnValue, h.flows, h.stored⟩
    simp only [Array.toList_push]
    exact List.rel_append h.lines (.cons hl .nil)

theorem pushAll (he : e.Distinct) (h : s.Corresponds w s') {ls ls' : List Line}
    (hls : Forall₂ (Line.Corresponds w.toCorrespondence e) ls ls') :
    (s.pushAll ls).Corresponds w (s'.pushAll ls') := by
  induction hls generalizing s s' with
  | nil => exact h
  | cons hl _ ih => exact ih (h.push he hl)

/-- Paths are joined in step. -/
theorem append (he : e.Distinct) (h : s.Corresponds w s') {path path' : PathState}
    (hpath : path.Corresponds w path') : (s.append path).Corresponds w (s'.append path') := by
  have hlines := h.pushAll he hpath.lines
  refine ⟨hlines.lines, hlines.exit, hlines.returnValue, ?_, ?_, ?_⟩
  · exact List.rel_append hpath.flows hlines.flows
  · exact List.forall_mem_append.2 ⟨hpath.stored.1, hlines.stored.1⟩
  · exact List.forall_mem_append.2 ⟨hpath.stored.2, hlines.stored.2⟩

theorem withExit (h : s.Corresponds w s') (exit : Option ExitKind) :
    { s with exit }.Corresponds w { s' with exit } :=
  ⟨h.lines, rfl, h.returnValue, h.flows, h.stored⟩

theorem withReturnValue (h : s.Corresponds w s') {v v' : Option Sexp}
    (hv : Option.Rel (w.Terms e) v v') :
    { s with returnValue := v }.Corresponds w { s' with returnValue := v' } :=
  ⟨h.lines, h.exit, hv, h.flows, h.stored⟩

end PathState.Corresponds

/-- Callees inlined at sites that correspond, with corresponding paths. -/
structure Inlined.Corresponds (w : Twins e) (i i' : Inlined) : Prop where
  form : i.form = i'.form
  invocation : w.Invocation e i.form i.site i'.site
  paths : Forall₂ (PathState.Corresponds w) i.paths i'.paths

theorem Inlined.Corresponds.mono {w w' : Twins e} (hw : w.Le w') {i i' : Inlined}
    (h : i.Corresponds w i') : i.Corresponds w' i' :=
  ⟨h.form, h.invocation.mono hw.correspondence, h.paths.imp fun _ _ hp => hp.mono hw⟩

/-- Only references have pointers. -/
theorem Sentence.apply_hasPointer (s : Sentence) (a : Sexp) (n : Nat) :
    s.apply (.hasPointer a n) =
      if s.isReference then .ok (.eq (.app s.pointerAccessor [a]) (.nat n))
      else s.unsupported (.hasPointer a n) := by
  obtain ⟨type, shape, base, dependencies⟩ := s
  cases shape <;> rfl

namespace Run

variable {α β γ δ : Type} {w : Twins e}

/-! ## computations in step -/

/-- The same error, or values that are related. -/
inductive Outcome (R : α → β → Prop) : Except CoverageError α → Except CoverageError β → Prop where
  | ok {a : α} {b : β} (h : R a b) : Outcome R (.ok a) (.ok b)
  | error (err : CoverageError) : Outcome R (.error err) (.error err)

/-- From twin contexts, two computations end in later twin contexts with the same error, or with
values that are related there. -/
def Matches (w : Twins e) (x : Run α) (y : Run β) (R : Twins e → α → β → Prop) : Prop :=
  ∃ w' : Twins e, w.Le w' ∧ w'.left = (x.exec w.left).2 ∧ w'.right = (y.exec w.right).2 ∧
    Outcome (R w') (x.exec w.left).1 (y.exec w.right).1

/-- A relation between values that later contexts keep. -/
def Kept (R : Twins e → α → β → Prop) : Prop := ∀ w w' a b, w.Le w' → R w a b → R w' a b

variable {R : Twins e → α → β → Prop} {S : Twins e → γ → δ → Prop}

theorem Matches.pure {a : α} {b : β} (h : R w a b) :
    Matches w (Pure.pure a : Run α) (Pure.pure b : Run β) R := ⟨w, .refl w, rfl, rfl, .ok h⟩

theorem Matches.throw (err : CoverageError) :
    Matches w (MonadExcept.throw err : Run α) (MonadExcept.throw err : Run β) R :=
  ⟨w, .refl w, rfl, rfl, .error err⟩

/-- Runs in a row match. -/
theorem Matches.bind {x : Run α} {y : Run β} {f : α → Run γ} {g : β → Run δ}
    (hxy : Matches w x y R)
    (hfg : ∀ w', w.Le w' → ∀ a b, R w' a b → Matches w' (f a) (g b) S) :
    Matches w (x >>= f) (y >>= g) S := by
  obtain ⟨w₁, hle, hl, hr, hout⟩ := hxy
  rcases hx : x.exec w.left with ⟨rx, c⟩
  rcases hy : y.exec w.right with ⟨ry, d⟩
  rw [hx] at hl hout
  rw [hy] at hr hout
  cases hout with
  | error err =>
      refine ⟨w₁, hle, ?_⟩
      rw [exec_bind_of_error hx, exec_bind_of_error hy]
      exact ⟨hl, hr, .error err⟩
  | ok hab =>
      obtain ⟨w₂, hle', hl', hr', hout'⟩ := hfg w₁ hle _ _ hab
      refine ⟨w₂, hle.trans hle', ?_⟩
      rw [exec_bind_of_ok hx, exec_bind_of_ok hy, ← show w₁.left = c from hl,
        ← show w₁.right = d from hr]
      exact ⟨hl', hr', hout'⟩

theorem Matches.withContext {f : Context → α × Context} {g : Context → β × Context}
    (h : ∃ w' : Twins e, w.Le w' ∧ w'.left = (f w.left).2 ∧ w'.right = (g w.right).2 ∧
      R w' (f w.left).1 (g w.right).1) :
    Matches w (Run.withContext f) (Run.withContext g) R := by
  obtain ⟨w', hle, hl, hr, hR⟩ := h
  exact ⟨w', hle, hl, hr, .ok hR⟩

/-- Loops match. -/
theorem Matches.mapM {f : α → Run γ} {g : β → Run δ} (hR : Kept R) (hS : Kept S) {l : List α}
    {l' : List β} (hl : Forall₂ (R w) l l')
    (hfg : ∀ w', w.Le w' → ∀ a b, R w' a b → Matches w' (f a) (g b) S) :
    Matches w (l.mapM f) (l'.mapM g) fun w => Forall₂ (S w) := by
  induction l generalizing w l' with
  | nil =>
      cases hl
      rw [List.mapM_nil, List.mapM_nil]
      exact .pure .nil
  | cons a l ih =>
      cases hl with
      | @cons _ b _ l' hab hl =>
          rw [List.mapM_cons, List.mapM_cons]
          refine (hfg w (.refl w) a b hab).bind fun w₁ hle c d hcd => ?_
          have hrest :=
            ih (hl.imp fun a b => hR w w₁ a b hle) fun w' hle' => hfg w' (hle.trans hle')
          refine hrest.bind fun w₂ hle' cs ds hcds => ?_
          exact .pure (.cons (hS w₁ w₂ c d hle' hcd) hcds)

theorem kept_pathState : Kept (PathState.Corresponds (e := e)) := fun _ _ _ _ hw h => h.mono hw

/-! ## statements in step -/

/-- The same limit is exceeded at the same number of paths. -/
theorem matches_checkLimit (m : MethodRef) (count : Nat) :
    Matches w (checkLimit e m count) (checkLimit e m count) fun _ _ _ => True := by
  unfold checkLimit
  split
  · exact .throw _
  · exact .pure trivial

section Flows

variable {s t : Site} {stack stack' : List Site} {offset : Nat} {st st' : PathState}

/-- Flows are recorded in step. -/
theorem matches_record {source source' : Sexp} {x x' : String} (hsource : w.Terms e source source')
    (htarget : w.Slots e x x') (hst : st.Corresponds w st') :
    Matches w (record s stack offset source x st) (record t stack' offset source' x' st')
      PathState.Corresponds := by
  let key : FlowKey := ⟨offset, source.render, x, s, stack⟩
  let key' : FlowKey := ⟨offset, source'.render, x', t, stack'⟩
  have hflow : Matches w (withContext (·.flow key)) (withContext (·.flow key'))
      fun w' f f' => f.Corresponds w'.toCorrespondence e f' ∧
        w'.left.flows.find? f.key = some f ∧ w'.right.flows.find? f'.key = some f' := by
    obtain ⟨w', hle, hl, hr⟩ :=
      w.exists_keeps (w.lawful.1.keeps_flow key) (w.lawful.2.keeps_flow key')
    have hfind : w'.left.flows.find? key = some (w.left.flow key).1 := by
      rw [hl]
      exact w.left.find?_flow key
    have hfind' : w'.right.flows.find? key' = some (w.right.flow key').1 := by
      rw [hr]
      exact w.right.find?_flow key'
    have hkey := (w'.lawful.1.flows.stored _ _ hfind).1
    have hkey' := (w'.lawful.2.flows.stored _ _ hfind').1
    refine .withContext ⟨w', hle, hl, hr, ⟨?_, ?_⟩, ?_, ?_⟩
    · rw [Flow.source, Flow.source, hkey, hkey']
      exact ⟨source, source', hsource.mono hle.correspondence, rfl, rfl⟩
    · rw [Flow.target, Flow.target, hkey, hkey']
      exact htarget.mono hle.correspondence
    · rw [hkey]
      exact hfind
    · rw [hkey']
      exact hfind'
  refine hflow.bind fun w' hle f f' hf => .pure ?_
  have hst' := hst.mono hle
  exact ⟨hst'.lines, hst'.exit, hst'.returnValue, .cons hf.1 hst'.flows,
    List.forall_mem_cons.2 ⟨hf.2.1, hst'.stored.1⟩, List.forall_mem_cons.2 ⟨hf.2.2, hst'.stored.2⟩⟩

/-- Parameters are bound in step. -/
theorem matches_bindParameters (he : e.Distinct) {r r' : Renaming}
    {bound bound' : List (Form.Parameter × Sexp)}
    (hbound : Forall₂ (fun b b' => w.Slots e (r.symbol b.1.symbol) (r'.symbol b'.1.symbol) ∧
      w.Terms e b.2 b'.2) bound bound') (hst : st.Corresponds w st') :
    Matches w (bindParameters r s stack offset bound st)
      (bindParameters r' t stack' offset bound' st') PathState.Corresponds := by
  induction bound generalizing w bound' st st' with
  | nil =>
      cases hbound
      exact .pure hst
  | cons b bound ih =>
      cases hbound with
      | @cons _ b' _ bound' hb hbound =>
          have hequals : w.Constants e "=" "=" := .plain (by decide)
          have hline : Line.Corresponds w.toCorrespondence e
              (.assert (.eq (.atom (r.symbol b.1.symbol)) b.2))
              (.assert (.eq (.atom (r'.symbol b'.1.symbol)) b'.2)) :=
            .assert (.term (.eq hequals (.atom hb.1.constants) hb.2)
              (Sexp.not_statesPointer_eq_atom _ _))
          refine (matches_record hb.2 hb.1 (hst.push he hline)).bind fun w' hle u u' hu => ?_
          refine ih (hbound.imp fun a a' ha => ?_) hu
          exact ⟨ha.1.mono hle.correspondence, ha.2.mono hle.correspondence⟩

/-- Results are bound in step. -/
theorem matches_bindResult (he : e.Distinct) {target target' : Option String}
    {value value' : Option Sexp} (htarget : Option.Rel (w.Slots e) target target')
    (hvalue : Option.Rel (w.Terms e) value value') (hst : st.Corresponds w st') :
    Matches w (bindResult s stack offset target value st)
      (bindResult t stack' offset target' value' st') PathState.Corresponds := by
  cases htarget with
  | none => exact .pure hst
  | some hx =>
      cases hvalue with
      | none => exact .pure hst
      | some hv =>
          have hequals : w.Constants e "=" "=" := .plain (by decide)
          have hline := Line.Corresponds.assert (.term (.eq hequals (.atom hx.constants) hv)
            (Sexp.not_statesPointer_eq_atom _ _))
          exact matches_record hv hx (hst.push he hline)

theorem forall₂_zip {P : α → Prop} {Q : β → γ → Prop} {l : List α} (hl : ∀ a ∈ l, P a)
    {bs : List β} {cs : List γ} (h : Forall₂ Q bs cs) :
    Forall₂ (fun x y => x.1 = y.1 ∧ P x.1 ∧ Q x.2 y.2) (l.zip bs) (l.zip cs) := by
  induction h generalizing l with
  | nil => simp
  | cons hbc _ ih =>
      cases l with
      | nil => exact .nil
      | cons a l =>
          obtain ⟨ha, hl⟩ := List.forall_mem_cons.1 hl
          exact .cons ⟨rfl, ha, hbc⟩ (ih hl)

/-- Callees are spliced in step. -/
theorem matches_splice (he : e.Distinct) {i i' : Inlined} (hi : i.Corresponds w i')
    {arguments arguments' : List Sexp} (harguments : Forall₂ (w.Terms e) arguments arguments')
    {target target' : Option String} (htarget : Option.Rel (w.Slots e) target target')
    (hst : st.Corresponds w st') {path path' : PathState} (hpath : path.Corresponds w path') :
    Matches w (splice s stack offset i arguments target st path)
      (splice t stack' offset i' arguments' target' st' path') PathState.Corresponds := by
  obtain ⟨form, site, paths⟩ := i
  obtain ⟨form', site', paths'⟩ := i'
  obtain ⟨rfl, hinvocation, -⟩ := hi
  have hslots : ∀ p ∈ form.parameters, w.Slots e ((Renaming.of form site).symbol p.symbol)
      ((Renaming.of form site').symbol p.symbol) := fun p hp =>
    hinvocation.slots_symbol (hinvocation.renamable.parameters p hp)
  have hlines : Forall₂ (Line.Corresponds w.toCorrespondence e)
      (form.parameters.map fun p => .declare ((Renaming.of form site).symbol p.symbol) p.sort)
      (form.parameters.map fun p =>
        .declare ((Renaming.of form site').symbol p.symbol) p.sort) := by
    rw [List.forall₂_map_left_iff, List.forall₂_map_right_iff, List.forall₂_same]
    exact fun p hp => .declare (hslots p hp).constants p.sort
  have hbound : Forall₂ (fun b b' =>
      w.Slots e ((Renaming.of form site).symbol b.1.symbol)
        ((Renaming.of form site').symbol b'.1.symbol) ∧ w.Terms e b.2 b'.2)
      (form.parameters.zip arguments) (form.parameters.zip arguments') := by
    refine (forall₂_zip hslots harguments).imp fun b b' hb => ?_
    rw [← hb.1]
    exact hb.2
  refine (matches_bindParameters he hbound (hst.pushAll he hlines)).bind fun w' hle u u' hu => ?_
  have hpath' := hpath.mono hle
  have hall := hu.append he hpath'
  have hreturn : Matches w' (bindResult s stack offset target path.returnValue (u.append path))
      (bindResult t stack' offset target' path'.returnValue (u'.append path'))
      PathState.Corresponds :=
    matches_bindResult he (Option.Rel.imp (fun _ _ hx => hx.mono hle.correspondence) htarget)
      hpath'.returnValue hall
  rw [← hpath.exit]
  cases path.exit with
  | none => exact hreturn
  | some exit =>
      cases exit with
      | returned => exact hreturn
      | _ => exact .pure (hall.withExit _)

end Flows

/-- An object and its twin get pointers that correspond. -/
theorem matches_pointerTerm {s t : Site} (hs : w.sites s t) {offset : Nat} {type : TypeRef}
    (htype : e.Allocates s.method offset type) {x y : String} (hx : w.Slots e x y) :
    Matches w (pointerTerm e s offset type x) (pointerTerm e t offset type y)
      fun w' => w'.Asserted e := by
  unfold pointerTerm
  cases hfind : e.types.find? type with
  | none => exact .throw _
  | some sentence =>
      have hpointer : Matches w (withContext (·.pointer s offset type))
          (withContext (·.pointer t offset type)) fun w' i j =>
            ∃ numbered, e.Allocates s.method offset numbered ∧ w'.pointers numbered i j :=
        .withContext (w.exists_pointer hs htype)
      refine hpointer.bind fun w' hle i j hij => ?_
      obtain ⟨numbered, hnumbered, hij⟩ := hij
      rw [Sentence.apply_hasPointer, Sentence.apply_hasPointer]
      cases sentence.isReference with
      | false => exact .throw _
      | true =>
          exact .pure (.pointer hfind htype hnumbered (hx.mono hle.correspondence).constants hij)

section Statements

variable {form : Form} {s t : Site} {stack stack' : List Site}

/-- Effects match. -/
theorem matches_perform (hinvocation : w.Invocation e form s t) {effect : Effect}
    (heffect : effect.Scoped e.Provides form.symbols) (offset : Nat) {st st' : PathState}
    (hst : st.Corresponds w st') :
    Matches w (perform (.of form s) s stack offset st effect)
      (perform (.of form t) t stack' offset st' effect) PathState.Corresponds := by
  cases effect with
  | assign source target =>
      exact matches_record (hinvocation.terms_term heffect.1)
        (hinvocation.slots_symbol heffect.2) hst
  | ret value =>
      refine .pure (hst.withReturnValue ?_)
      cases value with
      | none => exact .none
      | some a => exact .some (hinvocation.terms_term (heffect a rfl))
  | _ => exact .pure hst

theorem matches_extraLines (hinvocation : w.Invocation e form s t) {p : Placed}
    (hp : p ∈ form.statements) :
    Matches w (extraLines e (.of form s) s p) (extraLines e (.of form t) t p)
      fun w' => Forall₂ (Line.Corresponds w'.toCorrespondence e) := by
  have hdemand := hinvocation.allocated_demand (hinvocation.scoped_effect hp)
  unfold extraLines
  generalize hleft : (demand (.of form s) p.statement.effect).allocated = left at hdemand
  generalize (demand (.of form t) p.statement.effect).allocated = right at hdemand
  cases hdemand with
  | none => exact .pure .nil
  | @some a b hab =>
      obtain ⟨type, x⟩ := a
      obtain ⟨type', y⟩ := b
      obtain ⟨rfl, hx⟩ : type = type' ∧ w.Slots e x y := hab
      have htype : e.Allocates s.method p.statement.offset type :=
        ⟨form, hinvocation.form, p, hp, rfl, allocated_of_demand hleft⟩
      exact (matches_pointerTerm hinvocation.sites htype hx).bind fun w' _ a b hab =>
        .pure (.cons (.assert hab) .nil)

theorem matches_continueWith (he : e.Distinct) (hinvocation : w.Invocation e form s t)
    {p : Placed} (hp : p ∈ form.statements) {extra extra' : List Line}
    (hextra : Forall₂ (Line.Corresponds w.toCorrespondence e) extra extra')
    {inlined inlined' : Option Inlined}
    (hinlined : Option.Rel (Inlined.Corresponds w) inlined inlined')
    {st st' : PathState} (hst : st.Corresponds w st') :
    Matches w (continueWith s stack (.of form s) p extra inlined st)
      (continueWith t stack' (.of form t) p extra' inlined' st')
      fun w' => Forall₂ (PathState.Corresponds w') := by
  have heffect := hinvocation.scoped_effect hp
  have hlines := (hst.pushAll he (hinvocation.lines_map hp)).pushAll he hextra
  refine (matches_perform hinvocation heffect _ hlines).bind fun w' hle u u' hu => ?_
  have hcall := (hinvocation.mono hle.correspondence).call_demand heffect
  generalize (demand (.of form s) p.statement.effect).call = call at hcall ⊢
  generalize (demand (.of form t) p.statement.effect).call = call' at hcall ⊢
  cases hcall with
  | none => exact .pure (.cons hu .nil)
  | some hcall =>
      cases hinlined with
      | none => exact .pure (.cons hu .nil)
      | @some i i' hi =>
          refine .mapM kept_pathState kept_pathState (hi.mono hle).paths
            fun w'' hle' path path' hpath => ?_
          exact matches_splice he (hi.mono (hle.trans hle'))
            (hcall.arguments.imp fun _ _ h => h.mono hle'.correspondence)
            (Option.Rel.imp (fun _ _ h => h.mono hle'.correspondence) hcall.target)
            (hu.mono hle') hpath

/-- Going on matches. -/
theorem matches_advance (m : MethodRef) {next next' : PathState → Run (List PathState)}
    (hnext : ∀ w', w.Le w' → ∀ st st', st.Corresponds w' st' →
      Matches w' (next st) (next' st') fun w' => Forall₂ (PathState.Corresponds w'))
    (count : Nat) {states states' : List PathState}
    (hstates : Forall₂ (PathState.Corresponds w) states states') :
    Matches w (advance e m next count states) (advance e m next' count states')
      fun w' => Forall₂ (PathState.Corresponds w') := by
  induction states generalizing w count states' with
  | nil =>
      cases hstates
      exact .pure .nil
  | cons st states ih =>
      cases hstates with
      | @cons _ st' _ states' hst hstates =>
          unfold advance
          rw [← hst.exit]
          have hrest {w' : Twins e} (hle : w.Le w') (count : Nat) :=
            ih (fun w'' hle' => hnext w'' (hle.trans hle')) count
              (hstates.imp fun _ _ h => h.mono hle)
          split
          · refine (hrest (.refl w) _).bind fun w' hle us us' hus => ?_
            exact .pure (.cons (hst.mono hle) hus)
          · refine (hnext w (.refl w) st st' hst).bind fun w₁ hle₁ us us' hus => ?_
            rw [← hus.length_eq]
            refine (matches_checkLimit m _).bind fun w₂ hle₂ _ _ _ => ?_
            refine (hrest (hle₁.trans hle₂) _).bind fun w₃ hle₃ vs vs' hvs => ?_
            have hus' := hus.imp fun _ _ h => h.mono (hle₂.trans hle₃)
            exact .pure (List.rel_append hus' hvs)

end Statements

/-! ## forms in step -/

/-- Inliners that return corresponding callees at corresponding sites. -/
def InlinersMatch (e : Engine) (s t : Site) (inline inline' : Inliner) : Prop :=
  ∀ w : Twins e, w.sites s t → ∀ offset callee,
    Matches w (inline offset callee) (inline' offset callee)
      fun w' => Option.Rel (Inlined.Corresponds w')

section Forms

variable (he : e.Distinct) {form : Form} {s t : Site} {stack stack' : List Site}
  {inline inline' : Inliner} (hinline : InlinersMatch e s t inline inline')
  {states states' : List PathState}

include he hinline

/-- Statements match. -/
theorem matches_applyStatement (hinvocation : w.Invocation e form s t) {p : Placed}
    (hp : p ∈ form.statements) (hstates : Forall₂ (PathState.Corresponds w) states states') :
    Matches w (applyStatement e form s stack inline (.of form s) p states)
      (applyStatement e form t stack' inline' (.of form t) p states')
      fun w' => Forall₂ (PathState.Corresponds w') := by
  have hinlined : ∀ w', w.Le w' → Matches w' (inlineCallee inline (.of form s) p)
      (inlineCallee inline' (.of form t) p) fun w' => Option.Rel (Inlined.Corresponds w') := by
    intro w' hle
    have hcall := (hinvocation.mono hle.correspondence).call_demand (hinvocation.scoped_effect hp)
    unfold inlineCallee
    generalize (demand (.of form s) p.statement.effect).call = call at hcall ⊢
    generalize (demand (.of form t) p.statement.effect).call = call' at hcall ⊢
    cases hcall with
    | none => exact .pure .none
    | @some a b hcall =>
        obtain ⟨callee, arguments, target⟩ := a
        obtain ⟨callee', arguments', target'⟩ := b
        obtain rfl : callee = callee' := hcall.callee
        exact hinline w' (hle.correspondence.sites s t hinvocation.sites) _ callee
  rw [applyStatement_eq, applyStatement_eq]
  refine (matches_extraLines hinvocation hp).bind fun w₁ hle₁ extra extra' hextra => ?_
  refine (hinlined w₁ hle₁).bind fun w₂ hle₂ i i' hi => ?_
  refine matches_advance form.method (fun w₃ hle₃ st st' hst => ?_) 0
    (hstates.imp fun _ _ h => h.mono (hle₁.trans hle₂))
  exact matches_continueWith he
    (hinvocation.mono ((hle₁.trans hle₂).trans hle₃).correspondence) hp
    (hextra.imp fun _ _ h => h.mono (hle₂.trans hle₃).correspondence)
    (Option.Rel.imp (fun _ _ h => h.mono hle₃) hi) hst

theorem matches_applyStatements (hinvocation : w.Invocation e form s t) {ps : List Placed}
    (hps : ∀ p ∈ ps, p ∈ form.statements)
    (hstates : Forall₂ (PathState.Corresponds w) states states') :
    Matches w (applyStatements e form s stack inline (.of form s) ps states)
      (applyStatements e form t stack' inline' (.of form t) ps states')
      fun w' => Forall₂ (PathState.Corresponds w') := by
  induction ps generalizing w states states' with
  | nil => exact .pure hstates
  | cons p ps ih =>
      obtain ⟨hp, hps⟩ := List.forall_mem_cons.1 hps
      exact (matches_applyStatement he hinline hinvocation hp hstates).bind
        fun w' hle us us' hus => ih (hinvocation.mono hle.correspondence) hps hus

/-- Steps match. -/
theorem matches_applySteps (hinvocation : w.Invocation e form s t) (steps : List PathStep)
    (hstates : Forall₂ (PathState.Corresponds w) states states') :
    Matches w (applySteps e form s stack inline (.of form s) steps states)
      (applySteps e form t stack' inline' (.of form t) steps states')
      fun w' => Forall₂ (PathState.Corresponds w') := by
  induction steps generalizing w states states' with
  | nil => exact .pure hstates
  | cons step steps ih =>
      have hstatements : Matches w (ofExcept (stepStatements form step))
          (ofExcept (stepStatements form step))
          fun _ ps ps' => ps = ps' ∧ ∀ p ∈ ps, p ∈ form.statements := by
        cases hstep : stepStatements form step with
        | error err => exact .throw err
        | ok ps => exact .pure ⟨rfl, fun p hp => mem_statements_of_stepStatements hstep hp⟩
      refine hstatements.bind fun w₁ hle₁ ps ps' hps => ?_
      obtain ⟨rfl, hps⟩ := hps
      have hinvocation' := hinvocation.mono hle₁.correspondence
      refine (matches_applyStatements he hinline hinvocation' hps
        (hstates.imp fun _ _ h => h.mono hle₁)).bind fun w₂ hle₂ us us' hus => ?_
      exact ih (hinvocation'.mono hle₂.correspondence) hus

/-- Paths match. -/
theorem matches_renderPath (hinvocation : w.Invocation e form s t) (skeleton : Skeleton) :
    Matches w (renderPath e form s stack inline skeleton)
      (renderPath e form t stack' inline' skeleton)
      fun w' => Forall₂ (PathState.Corresponds w') := by
  refine (matches_applySteps he hinline hinvocation skeleton.steps
    (.cons (.empty w) .nil)).bind fun w' _ us us' hus => .pure ?_
  rw [List.forall₂_map_left_iff, List.forall₂_map_right_iff]
  refine hus.imp fun u u' hu => ?_
  rw [← hu.exit]
  exact hu.withExit _

theorem matches_renderAll (hinvocation : w.Invocation e form s t) (count : Nat)
    (skeletons : List Skeleton) :
    Matches w (renderAll e form s stack inline count skeletons)
      (renderAll e form t stack' inline' count skeletons)
      fun w' => Forall₂ (PathState.Corresponds w') := by
  induction skeletons generalizing w count with
  | nil => exact .pure .nil
  | cons skeleton rest ih =>
      refine (matches_renderPath he hinline hinvocation skeleton).bind
        fun w₁ hle₁ us us' hus => ?_
      rw [← hus.length_eq]
      refine (matches_checkLimit form.method _).bind fun w₂ hle₂ _ _ _ => ?_
      refine (ih (hinvocation.mono (hle₁.trans hle₂).correspondence) _).bind
        fun w₃ hle₃ vs vs' hvs => ?_
      exact .pure (List.rel_append (hus.imp fun _ _ h => h.mono (hle₂.trans hle₃)) hvs)

/-- Forms match. -/
theorem matches_renderForm (hinvocation : w.Invocation e form s t) :
    Matches w (renderForm e form s stack inline) (renderForm e form t stack' inline')
      fun w' => Forall₂ (PathState.Corresponds w') := by
  -- both contexts return the paths of the form, whichever of them they have stored
  have hpaths : Matches w (withContext (·.paths form e.options.maxPaths))
      (withContext (·.paths form e.options.maxPaths)) fun _ r r' => r = r' := by
    obtain ⟨w', hle, hl, hr⟩ := w.exists_keeps
      (w.lawful.1.keeps_paths form e.options.maxPaths)
      (w.lawful.2.keeps_paths form e.options.maxPaths)
    refine .withContext ⟨w', hle, hl, hr, ?_⟩
    rw [w.lawful.1.sound.paths_fst, w.lawful.2.sound.paths_fst]
  refine hpaths.bind fun w₁ hle₁ r r' hr => ?_
  obtain rfl := hr
  cases r with
  | error err => exact .throw err
  | ok skeletons =>
      exact matches_renderAll he hinline (hinvocation.mono hle₁.correspondence) 0 skeletons

end Forms

/-- Inlined calls match. -/
theorem matches_inlineWith (he : e.Filled)
    {render render' : Form → Site → List Site → Run (List PathState)}
    (hrender : ∀ (w : Twins e) (form : Form) (s t : Site) (stack stack' : List Site),
      w.Invocation e form s t → stack.map Site.method = stack'.map Site.method →
      Matches w (render form s stack) (render' form t stack')
        fun w' => Forall₂ (PathState.Corresponds w'))
    {s t : Site} {stack stack' : List Site}
    (hstacks : stack.map Site.method = stack'.map Site.method) :
    InlinersMatch e s t (inlineWith e render s stack) (inlineWith e render' t stack') := by
  intro w hs offset callee
  unfold inlineWith
  have hopen : stack.countP (·.method = callee) = stack'.countP (·.method = callee) := by
    have hcount := congrArg (List.countP (· = callee)) hstacks
    rwa [List.countP_map, List.countP_map] at hcount
  cases hform : e.form? callee with
  | none => exact .throw _
  | some form =>
      simp only [hopen]
      split
      · exact .pure .none
      · split
        · exact .pure .none
        · have hcall : Matches w (withContext (·.callSite s offset callee))
              (withContext (·.callSite t offset callee))
              fun w' s' t' => w'.Invocation e form s' t' := by
            obtain ⟨w', hle, hl, hr, hsites⟩ := w.exists_callSite hs offset callee
            have hmethod : (w.left.callSite s offset callee).1.method = callee := by
              refine (w'.lawful.1.sound.sites ⟨s, offset, callee⟩ _ ?_).1
              rw [hl]
              exact w.left.find?_callSite s offset callee
            refine .withContext ⟨w', hle, hl, hr, he.renamable hform, ?_, hsites⟩
            rw [hmethod]
            exact hform
          refine hcall.bind fun w₁ _ s' t' hinvocation => ?_
          refine (hrender w₁ form s' t' _ _ hinvocation ?_).bind fun w₂ hle₂ us us' hus => ?_
          · rw [List.map_append, List.map_append, hstacks, List.map_singleton, List.map_singleton,
              w₁.oneToOne.method s' t' hinvocation.sites]
          · exact .pure (.some ⟨rfl, hinvocation.mono hle₂.correspondence, hus⟩)

/-- **Rendering matches itself** at sites that correspond. -/
theorem matches_render (he : e.Filled) (hd : e.Distinct) (depth : Nat) (w : Twins e) (form : Form)
    (s t : Site) (stack stack' : List Site) (hinvocation : w.Invocation e form s t)
    (hstacks : stack.map Site.method = stack'.map Site.method) :
    Matches w (render e depth form s stack) (render e depth form t stack')
      fun w' => Forall₂ (PathState.Corresponds w') := by
  induction depth generalizing w form s t stack stack' with
  | zero =>
      refine matches_renderForm hd (matches_inlineWith he ?_ hstacks) hinvocation
      exact fun _ _ _ _ _ _ _ _ => .pure .nil
  | succ depth ih => exact matches_renderForm hd (matches_inlineWith he ih hstacks) hinvocation

end Run

end Pathwise
