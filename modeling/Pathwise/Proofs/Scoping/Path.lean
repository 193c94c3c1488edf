import Pathwise.Proofs.Divergence
import Pathwise.Proofs.Scoping.Form

/-!
# Pathwise.Proofs.Scoping.Path

Paths with inlined callees keep one invariant, `PathState.Sound`: their lines are
closed, no declaration stands twice, and every declaration is that of a variable
of an invoked method. One lemma for each operation of the renderer says that it
keeps the invariant and forgets no declaration; `Reference.sound_render` sums up.
-/

namespace Pathwise

theorem Statement.symbol?_eq_none {st : Statement} (h : st.isDeclaration = false) :
    st.symbol? = none := by
  unfold Statement.isDeclaration Statement.slot? at h
  unfold Statement.symbol?
  cases hbody : st.body with
  | declaration slot symbol sort => simp [hbody] at h
  | _ => rfl

/-! ## closed lines -/

namespace Line

/-- The constant that a line declares. -/
def symbol? : Line → Option String
  | .declare symbol _ => some symbol
  | .assert _ => none

/-- The constants that lines declare. -/
def declared (ls : List Line) : List String := ls.filterMap symbol?

@[simp]
theorem declared_append (ls ls' : List Line) : declared (ls ++ ls') = declared ls ++ declared ls' :=
  List.filterMap_append

@[simp]
theorem declared_singleton (l : Line) : declared [l] = l.symbol?.toList := by
  cases l <;> rfl

/-- Lines of which each asserts only what is declared at the start or before it. -/
def Closed (provided : String → Prop) : (declared : List String) → List Line → Prop
  | _, [] => True
  | D, l :: rest =>
    (∀ t ∈ l.term?, t.Scoped provided D) ∧ Closed provided (D ++ l.symbol?.toList) rest

theorem declared_cons (l : Line) (ls : List Line) :
    declared (l :: ls) = l.symbol?.toList ++ declared ls := by
  rw [← declared_singleton, ← declared_append]
  rfl

namespace Closed

variable {V : String → Prop} {D : List String}

/-- Closed texts in a row. -/
theorem append {ls ls' : List Line} (h : Closed V D ls) (h' : Closed V (D ++ declared ls) ls') :
    Closed V D (ls ++ ls') := by
  induction ls generalizing D with
  | nil => simpa [declared] using h'
  | cons l ls ih =>
      refine ⟨h.1, ih h.2 ?_⟩
      rwa [List.append_assoc, ← declared_cons]

theorem of_asserts {terms : List Sexp} (h : ∀ t ∈ terms, t.Scoped V D) :
    Closed V D (terms.map .assert) := by
  induction terms with
  | nil => trivial
  | cons t terms ih =>
      rw [List.forall_mem_cons] at h
      refine ⟨by simpa [term?] using h.1, ?_⟩
      simpa [symbol?] using ih h.2

theorem of_declares {ls : List Line} (h : ∀ l ∈ ls, l.isDeclaration) : Closed V D ls := by
  induction ls generalizing D with
  | nil => trivial
  | cons l ls ih =>
      rw [List.forall_mem_cons] at h
      refine ⟨?_, ih h.2⟩
      cases l with
      | declare x sort => simp [term?]
      | assert t => simp [isDeclaration] at h

/-- What an assertion uses is declared before it. -/
theorem scoped_of_eq_append {ls before after : List Line} {t : Sexp} (h : Closed V D ls)
    (heq : ls = before ++ .assert t :: after) : t.Scoped V (D ++ declared before) := by
  subst heq
  induction before generalizing D with
  | nil => simpa [declared] using h.1 t rfl
  | cons l before ih =>
      rw [declared_cons, ← List.append_assoc]
      exact ih h.2

end Closed

end Line

namespace PathState

/-- The constants that a path declares. -/
def declared (s : PathState) : List String := Line.declared s.lines.toList

/-- What holds of a path under construction: its lines are closed and declare nothing twice, and so
is the value it returns. -/
structure Sound (provided : String → Prop) (declares : String → Sexp → Prop) (s : PathState) :
    Prop where
  closed : Line.Closed provided [] s.lines.toList
  declares : ∀ x sort, Line.declare x sort ∈ s.lines.toList → declares x sort
  distinct : (s.lines.toList.filter (·.isDeclaration)).Nodup
  value : ∀ v ∈ s.returnValue, v.Scoped provided s.declared

variable {V : String → Prop} {P : String → Sexp → Prop} {s : PathState}

theorem sound_empty : PathState.Sound V P {} := by
  refine ⟨trivial, ?_, ?_, ?_⟩ <;> simp

/-- Adding a line: a declaration that is there already is left out. -/
theorem push_cases (s : PathState) (l : Line) :
    l.isDeclaration ∧ l ∈ s.lines.toList ∧ s.push l = s ∨
    (l.isDeclaration → l ∉ s.lines.toList) ∧ s.push l = { s with lines := s.lines.push l } := by
  unfold push
  by_cases h : (l.isDeclaration && s.lines.contains l) = true
  · rw [if_pos h]
    simp only [Bool.and_eq_true, Array.contains_iff_mem] at h
    exact Or.inl ⟨h.1, Array.mem_toList_iff.2 h.2, rfl⟩
  · rw [if_neg h]
    refine Or.inr ⟨fun hd hl => h ?_, rfl⟩
    simp [hd, Array.mem_toList_iff.1 hl]

theorem declared_push (s : PathState) (l : Line) :
    s.declared ++ l.symbol?.toList ⊆ (s.push l).declared := by
  obtain ⟨hd, hl, heq⟩ | ⟨-, heq⟩ := s.push_cases l
  · rw [heq]
    refine List.append_subset.2 ⟨List.Subset.refl _, fun x hx => ?_⟩
    exact List.mem_filterMap.2 ⟨l, hl, by simpa using hx⟩
  · rw [heq]
    simp [declared]

/-- Lines declare their constants. -/
theorem declared_pushAll (s : PathState) (ls : List Line) :
    s.declared ++ Line.declared ls ⊆ (s.pushAll ls).declared := by
  induction ls generalizing s with
  | nil => simp [pushAll, Line.declared]
  | cons l ls ih =>
      rw [Line.declared_cons, ← List.append_assoc]
      refine List.Subset.trans ?_ (ih (s.push l))
      have hpush := s.declared_push l
      refine List.append_subset.2 ⟨?_, List.subset_append_right _ _⟩
      exact List.Subset.trans hpush (List.subset_append_left _ _)

namespace Sound

/-- Adding a line keeps a path sound. -/
theorem push (hs : s.Sound V P) {l : Line} (hterm : ∀ t ∈ l.term?, t.Scoped V s.declared)
    (hdeclares : ∀ x sort, l = .declare x sort → P x sort) : (s.push l).Sound V P := by
  obtain ⟨-, -, heq⟩ | ⟨hnew, heq⟩ := s.push_cases l
  · rw [heq]
    exact hs
  · have hmono := s.declared_push l
    rw [heq] at hmono ⊢
    refine ⟨?_, ?_, ?_, ?_⟩
    · rw [Array.toList_push]
      exact hs.closed.append ⟨hterm, trivial⟩
    · intro x sort hx
      rw [Array.toList_push, List.mem_append, List.mem_singleton] at hx
      rcases hx with hx | hx
      · exact hs.declares x sort hx
      · exact hdeclares x sort hx.symm
    · rw [Array.toList_push, List.filter_append]
      refine hs.distinct.append ((List.nodup_singleton l).filter _) fun l' hl' hl => ?_
      obtain ⟨hl, hd⟩ := List.mem_filter.1 hl
      rw [List.mem_singleton.1 hl] at hl' hd
      exact hnew hd (List.mem_filter.1 hl').1
    · exact fun v hv => (hs.value v hv).mono
        (List.Subset.trans (List.subset_append_left _ _) hmono)

/-- Adding closed lines keeps a path sound. -/
theorem pushAll (hs : s.Sound V P) {D : List String} (hD : D ⊆ s.declared) {ls : List Line}
    (hls : Line.Closed V D ls) (hdeclares : ∀ x sort, .declare x sort ∈ ls → P x sort) :
    (s.pushAll ls).Sound V P := by
  induction ls generalizing s D with
  | nil => exact hs
  | cons l ls ih =>
      have hpush : (s.push l).Sound V P := by
        refine hs.push (fun t ht => (hls.1 t ht).mono hD) fun x sort hl => hdeclares x sort ?_
        exact hl ▸ List.mem_cons_self
      refine ih hpush ?_ hls.2 fun x sort hx => hdeclares x sort (List.mem_cons_of_mem l hx)
      refine List.Subset.trans ?_ (s.declared_push l)
      exact List.append_subset.2
        ⟨List.subset_append_of_subset_left _ hD, List.subset_append_right _ _⟩

end Sound

/-- A sound path that goes on from another one: no declaration is forgotten. -/
structure Continues (provided : String → Prop) (declares : String → Sexp → Prop)
    (s t : PathState) : Prop where
  sound : t.Sound provided declares
  declared : s.declared ⊆ t.declared

namespace Continues

theorem refl (hs : s.Sound V P) : Continues V P s s := ⟨hs, List.Subset.refl _⟩

/-- Paths go on in turn. -/
theorem trans {t u : PathState} (h : Continues V P s t) (h' : Continues V P t u) :
    Continues V P s u :=
  ⟨h'.sound, List.Subset.trans h.declared h'.declared⟩

/-- Where a path left to and which flows it records does not matter. -/
theorem of_eq {t : PathState} (hs : s.Sound V P) (hlines : t.lines = s.lines)
    (hvalue : t.returnValue = s.returnValue) : Continues V P s t := by
  have hdeclared : t.declared = s.declared := by rw [PathState.declared, hlines, PathState.declared]
  refine ⟨⟨?_, ?_, ?_, ?_⟩, hdeclared ▸ List.Subset.refl _⟩
  · exact hlines ▸ hs.closed
  · exact hlines ▸ hs.declares
  · exact hlines ▸ hs.distinct
  · rw [hvalue, hdeclared]
    exact hs.value

theorem pushAll (hs : s.Sound V P) {D : List String} (hD : D ⊆ s.declared) {ls : List Line}
    (hls : Line.Closed V D ls) (hdeclares : ∀ x sort, .declare x sort ∈ ls → P x sort) :
    Continues V P s (s.pushAll ls) :=
  ⟨hs.pushAll hD hls hdeclares,
    List.Subset.trans (List.subset_append_left _ _) (s.declared_pushAll ls)⟩

theorem asserts (hs : s.Sound V P) {terms : List Sexp} (h : ∀ t ∈ terms, t.Scoped V s.declared) :
    Continues V P s (s.pushAll (terms.map .assert)) :=
  pushAll hs (List.Subset.refl _) (.of_asserts h) (by simp)

theorem assert (hs : s.Sound V P) {t : Sexp} (ht : t.Scoped V s.declared) :
    Continues V P s (s.push (.assert t)) :=
  asserts hs (List.forall_mem_singleton.2 ht)

/-- The lines of a callee's path come behind those of the caller. -/
theorem append {path : PathState} (hs : s.Sound V P) (hpath : path.Sound V P) :
    Continues V P s (s.append path) := by
  have hall := pushAll hs (List.nil_subset _) hpath.closed hpath.declares
  exact hall.trans (of_eq hall.sound rfl rfl)

end Continues

theorem declared_append (s path : PathState) : path.declared ⊆ (s.append path).declared :=
  List.Subset.trans (List.subset_append_right _ _) (s.declared_pushAll path.lines.toList)

end PathState

/-! ## invoked methods -/

/-- The invocations of a run: its root, and the calls that invocations make. -/
inductive Context.Invokes (c : Context) (root : Site) : Site → Prop where
  | root : Invokes c root root
  | call {parent site : Site} {offset : Nat} {callee : MethodRef} (h : Invokes c root parent)
      (hs : c.sites.find? ⟨parent, offset, callee⟩ = some site) : Invokes c root site

/-- The constant of a slot in an invocation. That of a local slot ends with the suffix of the
site. -/
def Site.constant (site : Site) (m : MethodRef) (slot : Slot) : String :=
  if slot.isLocal then m.slotSymbol slot ++ "!" ++ site.suffix else m.slotSymbol slot

namespace Engine

/-- The constants that groups use without a declaration. -/
def Provides (e : Engine) : String → Prop := e.program.Provides e.options.exceptionBase

/-- A constant of an invoked method's variable, in the sort of the variable's type. -/
inductive Declares (e : Engine) (c : Context) (root : Site) : String → Sexp → Prop where
  | ofVariable {site : Site} {g : MethodGraph} {v : Variable} {s : Sentence}
      (hsite : c.Invokes root site) (hg : e.program.methodGraph? site.method = some g)
      (hv : v ∈ g.variables)
      (hs : Sentence.encode e.options.exceptionBase e.program v.type = .ok s) :
      Declares e c root (site.constant g.method v.slot) (.atom s.name)

end Engine

/-- What a form brings to the paths through it under a renaming: its statements are scoped along
every path, and it declares what it may. -/
structure Form.Renders (provided : String → Prop) (declares : String → Sexp → Prop) (f : Form)
    (r : Renaming) : Prop where
  trails : ∀ steps exit, f.Trail [] .entry steps exit →
    Placed.ScopedInOrder provided f.Declares [] (steps.flatMap (Reference.stepStatements f))
  fixes : ∀ x, '!' ∉ x.toList → r.symbol x = x
  declarations : ∀ p, f.Declares p → ∃ slot x sort,
    p.statement.body = .declaration slot x sort ∧ declares (r.symbol x) sort
  parameters : ∀ q ∈ f.parameters, declares (r.symbol q.symbol) q.sort

namespace Form

variable {lookup : SentenceLookup} {g : MethodGraph} {f : Form}

/-- The renaming of a declared constant. -/
theorem symbol_of_mem_declared (h : Form.ofGraph lookup g = .ok f) (site : Site) {p : Placed}
    (hp : p ∈ f.declared) {v : Variable} {offset : Nat} {sort : Sexp}
    (hst : p.statement =
      .declaration offset v.slot v.type (g.method.variableSymbol v) sort) :
    (Renaming.of f site).symbol (g.method.variableSymbol v) = site.constant g.method v.slot := by
  rw [MethodRef.variableSymbol_eq] at hst ⊢
  by_cases hlocal : v.slot.isLocal
  · have hmem : g.method.slotSymbol v.slot ∈ f.locals := by
      refine List.mem_filterMap.2 ⟨p, hp, ?_⟩
      rw [hst]
      cases hslot : v.slot with
      | staticField field => simp [hslot, Slot.isLocal] at hlocal
      | _ => rfl
    rw [Site.constant, if_pos hlocal]
    exact if_pos hmem
  · have hnot : g.method.slotSymbol v.slot ∉ f.locals := by
      intro hmem
      obtain ⟨w, -, -, hw⟩ := mem_locals_of_ofGraph h hmem
      refine hlocal ((g.method.mark_mem_slotSymbol_iff v.slot).1 ?_)
      rw [hw]
      simp
    rw [Site.constant, if_neg hlocal]
    exact if_neg hnot

/-- The parameters of a form are declared in its entry. -/
theorem exists_declares_of_mem_parameters (h : Form.ofGraph lookup g = .ok f)
    {q : Form.Parameter} (hq : q ∈ f.parameters) :
    ∃ p slot, f.Declares p ∧ p.statement.body = .declaration slot q.symbol q.sort := by
  obtain ⟨-, entry, parameters, written, he, hw, rfl⟩ := ofGraph_eq_ok h
  have hentry : entry ∈ written.flatMap Lowering.latest :=
    List.mem_flatMap.2 ⟨[entry], Lowering.subset_lowerBlocks hw List.mem_cons_self, by simp⟩
  obtain ⟨declared, rfl, rfl, hdeclared⟩ := Lowering.lowerEntry_eq_ok he
  obtain ⟨dp, hdp, rfl⟩ := List.mem_map.1 hq
  obtain ⟨v, -, s, -, hv⟩ := hdeclared dp hdp
  refine ⟨dp.1, v.slot, ⟨_, List.mem_map_of_mem (List.mem_append_left _ hentry), ?_⟩, ?_⟩
  · exact List.mem_map_of_mem hdp
  · rw [hv]
    rfl

theorem stepStatements_empty (m : MethodRef) (step : PathStep) :
    Reference.stepStatements (.empty m) step = [] := by
  unfold Reference.stepStatements
  cases hb : (Form.empty m).block? step.block with
  | none => rfl
  | some b =>
      have hmem := (of_block?_eq_some hb).1
      simp only [empty, List.mem_cons, List.not_mem_nil, or_false] at hmem
      cases he : b.successors[step.edge]? with
      | none => simp [he]
      | some edge =>
          rcases hmem with rfl | rfl <;> cases hc : edge.condition <;> simp [he, hc, Block.guards]

end Form

namespace Engine

variable {e : Engine} {c : Context} {root site : Site} {f : Form}

/-- No block of the program has more segments than there are numbers for them, with whichever of
the program's sentences it is encoded. -/
def FewFaults (e : Engine) : Prop :=
  ∀ m g lookup, e.program.methodGraph? m = some g →
    e.program.Encodes e.options.exceptionBase lookup → (Lowering.mk g.method lookup).FewFaults g

/-- A form that a valid engine stores, at an invocation of its method. -/
theorem Valid.renders (he : e.Valid) (hfew : e.FewFaults) (hsite : c.Invokes root site)
    (hf : e.form? site.method = some f) :
    f.Renders e.Provides (e.Declares c root) (.of f site) := by
  cases he.forms _ _ hf with
  | leftOut =>
      refine ⟨fun steps exit htrail => ?_, fun x _ => ?_, ?_, ?_⟩
      · have hnone : steps.flatMap (Reference.stepStatements (.empty site.method)) = [] := by
          simp [Form.stepStatements_empty]
        rw [hnone]
        trivial
      · simp [Renaming.symbol, Renaming.of, Form.locals, Form.empty]
      · simp [Form.Declares, Form.empty]
      · simp [Form.empty]
  | @encoded g lookup f hg hl ht hf =>
      have hdeclares : ∀ p, f.Declares p → ∃ slot x sort,
          p.statement.body = .declaration slot x sort ∧
            e.Declares c root ((Renaming.of f site).symbol x) sort := by
        intro p hp
        obtain ⟨b, hb, hmem⟩ := hp
        obtain ⟨v, hv, offset, s, hs, hst⟩ := Form.declares_of_ofGraph hf hb hmem
        refine ⟨v.slot, _, _, by rw [hst]; rfl, ?_⟩
        rw [Lowering.symbol, Form.symbol_of_mem_declared hf site
          (Form.declarations_subset_declared hf hb hmem) hst]
        exact .ofVariable hsite hg hv (hl _ _ hs)
      refine ⟨fun steps exit htrail => ?_, fun x hx => ?_, hdeclares, fun q hq => ?_⟩
      · exact Form.scopedInOrder_of_trail hl ht (hfew _ g lookup hg hl) hf htrail
          (Form.Reached.entry : Form.Reached g f [] .entry) (by simp)
      · refine if_neg fun hmem => hx ?_
        obtain ⟨w, -, -, hw⟩ := Form.mem_locals_of_ofGraph hf hmem
        rw [hw]
        simp
      · obtain ⟨p, slot, hp, hbody⟩ := Form.exists_declares_of_mem_parameters hf hq
        obtain ⟨slot', x, sort, hbody', hdeclared⟩ := hdeclares p hp
        obtain ⟨-, rfl, rfl⟩ := Statement.Body.declaration.inj (hbody'.symm.trans hbody)
        exact hdeclared

end Engine

/-! ## rendering -/

namespace Reference

open PathState (Continues)

variable {r : Renaming} {V : String → Prop} {P : String → Sexp → Prop} {s : PathState}

section Rendering

variable (c : Context) (site : Site) (stack : List Site) {target : Option String}

theorem continues_record (hs : s.Sound V P) (offset : Nat) (source : Sexp) (target : String) :
    Continues V P s (record c site stack offset source target s) :=
  .of_eq hs rfl rfl

/-- Parameters are scoped. -/
theorem continues_bindParameters (offset : Nat) {bound : List (Form.Parameter × Sexp)}
    (hs : s.Sound V P) (hbound : ∀ b ∈ bound, r.symbol b.1.symbol ∈ s.declared ∧
      b.2.Scoped V s.declared) :
    Continues V P s (bindParameters c r site stack offset bound s) := by
  induction bound generalizing s with
  | nil => exact .refl hs
  | cons b bound ih =>
      rw [List.forall_mem_cons] at hbound
      obtain ⟨⟨hparameter, hargument⟩, hrest⟩ := hbound
      have hassert := Continues.assert hs ((Sexp.Scoped.constant hparameter).eq hargument)
      have hstep :=
        hassert.trans (continues_record c site stack hassert.sound offset b.2 (r.symbol b.1.symbol))
      refine hstep.trans (ih hstep.sound fun b' hb' => ?_)
      exact ⟨hstep.declared (hrest b' hb').1, (hrest b' hb').2.mono hstep.declared⟩

theorem continues_enter (offset : Nat) {inlined : Inlined} {arguments : List Sexp}
    (hparameters : ∀ q ∈ inlined.form.parameters,
      P ((Renaming.of inlined.form inlined.site).symbol q.symbol) q.sort)
    (harguments : ∀ a ∈ arguments, a.Scoped V s.declared) (hs : s.Sound V P) :
    Continues V P s (enter c site stack offset inlined arguments s) := by
  have hpush : Continues V P s (s.pushAll (inlined.form.parameters.map fun q =>
      .declare ((Renaming.of inlined.form inlined.site).symbol q.symbol) q.sort)) := by
    refine .pushAll hs (List.nil_subset _) (.of_declares (by simp [Line.isDeclaration])) ?_
    intro x sort hx
    obtain ⟨q, hq, heq⟩ := List.mem_map.1 hx
    obtain ⟨rfl, rfl⟩ := Line.declare.inj heq
    exact hparameters q hq
  refine hpush.trans (continues_bindParameters c site stack offset hpush.sound fun b hb => ⟨?_, ?_⟩)
  · refine s.declared_pushAll _ (List.mem_append_right _ (List.mem_filterMap.2 ?_))
    exact ⟨_, List.mem_map_of_mem (List.of_mem_zip hb).1, rfl⟩
  · exact (harguments b.2 (List.of_mem_zip hb).2).mono hpush.declared

/-- Results are scoped. -/
theorem continues_bindResult (offset : Nat) {value : Option Sexp}
    (htarget : ∀ x ∈ target, x ∈ s.declared) (hvalue : ∀ v ∈ value, v.Scoped V s.declared)
    (hs : s.Sound V P) : Continues V P s (bindResult c site stack offset target value s) := by
  cases target with
  | none => exact .refl hs
  | some x =>
      cases value with
      | none => exact .refl hs
      | some v =>
          have hassert := Continues.assert hs
            ((Sexp.Scoped.constant (htarget x rfl)).eq (hvalue v rfl))
          exact hassert.trans (continues_record c site stack hassert.sound offset v x)

theorem continues_comeBack (offset : Nat) {path : PathState}
    (htarget : ∀ x ∈ target, x ∈ s.declared)
    (hvalue : ∀ v ∈ path.returnValue, v.Scoped V s.declared) (hs : s.Sound V P) :
    Continues V P s (comeBack c site stack offset target path s) := by
  unfold comeBack
  split
  · exact continues_bindResult c site stack offset htarget hvalue hs
  · exact continues_bindResult c site stack offset htarget hvalue hs
  · exact .of_eq hs rfl rfl

/-- A callee as it is inlined: its parameters may be declared, and its paths are sound. -/
structure SoundInlined (provided : String → Prop) (declares : String → Sexp → Prop)
    (inlined : Inlined) : Prop where
  parameters : ∀ q ∈ inlined.form.parameters,
    declares ((Renaming.of inlined.form inlined.site).symbol q.symbol) q.sort
  paths : ∀ path ∈ inlined.paths, path.Sound provided declares

/-- **Inlining**: a path that goes on with a path of a callee stays sound. -/
theorem continues_splice (offset : Nat) {inlined : Inlined} (hinlined : SoundInlined V P inlined)
    {arguments : List Sexp} (harguments : ∀ a ∈ arguments, a.Scoped V s.declared)
    (htarget : ∀ x ∈ target, x ∈ s.declared) (hs : s.Sound V P) {path : PathState}
    (hpath : path ∈ inlined.paths) :
    Continues V P s (splice c site stack offset inlined arguments target s path) := by
  have hsound := hinlined.paths path hpath
  have henter := continues_enter c site stack offset hinlined.parameters harguments hs
  have happend := henter.trans (.append henter.sound hsound)
  refine happend.trans (continues_comeBack c site stack offset ?_ ?_ happend.sound)
  · exact fun x hx => happend.declared (htarget x hx)
  · exact fun v hv => (hsound.value v hv).mono (PathState.declared_append _ path)

/-- The constants `D` of a method are declared on a path under its renaming. -/
def Ready (r : Renaming) (D : List String) (s : PathState) : Prop :=
  ∀ x ∈ D, r.symbol x ∈ s.declared

theorem Ready.mono {D : List String} {t : PathState} (h : Ready r D s)
    (hst : Continues V P s t) : Ready r D t :=
  fun x hx => hst.declared (h x hx)

section Statements

variable {e : Engine} {f : Form} {D : List String} {p : Placed}

theorem scoped_term (hform : f.Renders e.Provides P r) (hready : Ready r D s) {a : Sexp}
    (ha : a.Scoped e.Provides D) : (r.term a).Scoped e.Provides s.declared := by
  refine (ha.rename hform.fixes fun x hx => hx.mark_not_mem).mono fun y hy => ?_
  obtain ⟨x, hx, rfl⟩ := List.mem_map.1 hy
  exact hready x hx

theorem extraLines_eq (he : e.Valid) (hready : Ready r D s)
    (heffect : p.statement.effect.Scoped e.Provides D) :
    ∃ terms : List Sexp, extraLines e c r site p = terms.map .assert ∧
      ∀ t ∈ terms, t.Scoped e.Provides s.declared := by
  have hspeaks : ∀ t s, e.types.find? t = some s → s.Speaks e.Provides := fun t s hs =>
    Program.speaks_of_encode (he.types t s hs)
  have hconstant : ∀ x, x ∈ D → (Sexp.atom (r.symbol x)).Scoped e.Provides s.declared :=
    fun x hx => .constant (hready x hx)
  obtain ⟨terms, hlines, hmade⟩ :=
    made_extraLines hspeaks hconstant c site (Effect.scoped_iff.1 heffect)
  exact ⟨terms, hlines, fun t ht => (hmade t ht).scoped (fun _ => id) fun _ => id⟩

/-- Effects are scoped. -/
theorem continues_perform (hform : f.Renders e.Provides P r) (hready : Ready r D s)
    {effect : Effect} (heffect : effect.Scoped e.Provides D) (offset : Nat)
    (hs : s.Sound e.Provides P) :
    Continues e.Provides P s (perform c r site stack offset s effect) := by
  cases effect with
  | assign source target => exact continues_record c site stack hs offset _ _
  | ret value =>
      refine ⟨⟨hs.closed, hs.declares, hs.distinct, fun v hv => ?_⟩, List.Subset.refl _⟩
      obtain ⟨a, ha, rfl⟩ := Option.map_eq_some_iff.1 hv
      exact scoped_term hform hready (heffect a ha)
  | _ => exact .refl hs

/-- Reaching a statement: its lines are added, and what it declares is there. -/
theorem continues_reach (he : e.Valid) (hform : f.Renders e.Provides P r) (hready : Ready r D s)
    (hp : f.Declares p ∨ p.statement.Scoped e.Provides D) (hs : s.Sound e.Provides P) :
    Continues e.Provides P s (reach e c site stack r p s) ∧
      Ready r (Placed.symbols [p]) (reach e c site stack r p s) := by
  rcases hp with hp | hp
  · obtain ⟨slot, x, sort, hbody, hdeclares⟩ := hform.declarations p hp
    have heq : reach e c site stack r p s = s.pushAll [.declare (r.symbol x) sort] := by
      simp [reach, extraLines, Statement.lines, Statement.effect, hbody, Run.demand, perform,
        Renaming.line, Line.rename, PathState.pushAll]
    rw [heq]
    constructor
    · refine .pushAll hs (List.nil_subset _) (.of_declares (by simp [Line.isDeclaration])) ?_
      intro y sort' hy
      obtain ⟨rfl, rfl⟩ := Line.declare.inj (List.mem_singleton.1 hy)
      exact hdeclares
    · intro y hy
      have hxy : y = x := by simpa [Placed.symbols, Statement.symbol?, hbody] using hy
      refine s.declared_pushAll _ (List.mem_append_right _ ?_)
      simp [Line.symbol?, hxy]
  · have hlines : p.statement.lines.map r.line = (p.statement.terms.map r.term).map .assert := by
      simp [Statement.lines_eq hp.asserts, Renaming.line, Line.rename, Renaming.term]
    have hstatement := Continues.asserts hs (List.forall_mem_map.2 fun t ht =>
      scoped_term hform hready (hp.terms t ht))
    rw [← hlines] at hstatement
    have hready' := hready.mono hstatement
    obtain ⟨terms, hextra, hscoped⟩ := extraLines_eq c site he hready' hp.effect
    have hpointer := Continues.asserts hstatement.sound hscoped
    rw [← hextra] at hpointer
    have hperform := continues_perform c site stack hform (hready'.mono hpointer) hp.effect
      p.statement.offset hpointer.sound
    refine ⟨(hstatement.trans hpointer).trans hperform, ?_⟩
    simp [Ready, Placed.symbols, Statement.symbol?_eq_none hp.asserts]

/-- What a statement's effect asks to be run is scoped. -/
theorem scoped_call (hform : f.Renders e.Provides P r) (hready : Ready r D s) {effect : Effect}
    (heffect : effect.Scoped e.Provides D) {callee : MethodRef} {arguments : List Sexp}
    {target : Option String}
    (hcall : (Run.demand r effect).call = some (callee, arguments, target)) :
    (∀ a ∈ arguments, a.Scoped e.Provides s.declared) ∧ ∀ x ∈ target, x ∈ s.declared :=
  Run.all_call (fun _ ha => scoped_term hform hready ha) hready (Effect.scoped_iff.1 heffect) hcall

/-- Paths behind calls are scoped. -/
theorem continues_afterCall (offset : Nat)
    {call : Option (MethodRef × List Sexp × Option String)} {inlined : Option Inlined}
    (hcall : ∀ callee arguments target, call = some (callee, arguments, target) →
      (∀ a ∈ arguments, a.Scoped V s.declared) ∧ ∀ x ∈ target, x ∈ s.declared)
    (hinlined : ∀ i ∈ inlined, SoundInlined V P i) (hs : s.Sound V P) {t : PathState}
    (ht : t ∈ afterCall c site stack offset s call inlined) : Continues V P s t := by
  unfold afterCall at ht
  split at ht
  · next callee arguments target i =>
      obtain ⟨harguments, htarget⟩ := hcall callee arguments target rfl
      obtain ⟨path, hpath, rfl⟩ := List.mem_map.1 ht
      exact continues_splice c site stack offset (hinlined i rfl) harguments htarget hs hpath
  · rw [List.mem_singleton.1 ht]
    exact .refl hs

variable {inline : Inliner}

/-- **One statement** keeps a path sound. Unless the path leaves its method, the constants of the
statement are declared then. -/
theorem sound_statement (he : e.Valid) (hform : f.Renders e.Provides P r)
    (hinline : ∀ offset callee, ∀ i ∈ inline offset callee, SoundInlined e.Provides P i)
    (hp : f.Declares p ∨ p.statement.Scoped e.Provides D) (hs : s.Sound e.Provides P)
    (hready : s.exit = none → Ready r D s) {t : PathState}
    (ht : t ∈ statement e c site stack inline r p s) :
    t.Sound e.Provides P ∧ (t.exit = none → Ready r (D ++ Placed.symbols [p]) t) := by
  unfold statement at ht
  split at ht
  · next hexit =>
      rw [List.mem_singleton.1 ht]
      refine ⟨hs, fun hnone => ?_⟩
      simp [hnone] at hexit
  · next hexit =>
      have hready := hready (by simpa using hexit)
      obtain ⟨hreach, hsymbols⟩ := continues_reach c site stack he hform hready hp hs
      have hcall := continues_afterCall c site stack p.statement.offset
        (fun callee arguments target hcall => ?_) (fun i hi => ?_) hreach.sound ht
      · refine ⟨hcall.sound, fun _ => List.forall_mem_append.2 ⟨?_, hsymbols.mono hcall⟩⟩
        exact hready.mono (hreach.trans hcall)
      · rcases hp with hp | hp
        · obtain ⟨slot, x, sort, hbody, -⟩ := hform.declarations p hp
          simp [Statement.effect, hbody, Run.demand] at hcall
        · exact scoped_call hform (hready.mono hreach) hp.effect hcall
      · obtain ⟨⟨callee, arguments, target⟩, -, hi⟩ := Option.bind_eq_some_iff.1 hi
        exact hinline _ callee i hi

/-- **A run of statements** keeps a path sound. -/
theorem sound_statements (he : e.Valid) (hform : f.Renders e.Provides P r)
    (hinline : ∀ offset callee, ∀ i ∈ inline offset callee, SoundInlined e.Provides P i)
    {ps : List Placed} (hps : Placed.ScopedInOrder e.Provides f.Declares D ps)
    (hs : s.Sound e.Provides P) (hready : s.exit = none → Ready r D s) {t : PathState}
    (ht : t ∈ statements e c site stack inline r ps s) : t.Sound e.Provides P := by
  induction ps generalizing s D with
  | nil =>
      rw [List.mem_singleton.1 ht]
      exact hs
  | cons p ps ih =>
      obtain ⟨u, hu, ht⟩ := List.mem_flatMap.1 ht
      obtain ⟨hsound, hready'⟩ := sound_statement c site stack he hform hinline hps.1 hs hready hu
      exact ih hps.2 hsound hready' ht

end Statements

theorem steps_eq_statements (e : Engine) (form : Form) (inline : Inliner) (path : List PathStep)
    (s : PathState) : steps e c form site stack inline path s =
      statements e c site stack inline (.of form site) (path.flatMap (stepStatements form)) s := by
  induction path generalizing s with
  | nil => rfl
  | cons step path ih =>
      rw [steps, List.flatMap_cons, statements_append]
      exact congrArg (List.flatMap · _) (funext ih)

/-- All paths are scoped. -/
theorem sound_allPaths {e : Engine} (he : e.Valid) {form : Form}
    (hform : form.Renders e.Provides P (.of form site)) {inline : Inliner}
    (hinline : ∀ offset callee, ∀ i ∈ inline offset callee, SoundInlined e.Provides P i) :
    ∀ t ∈ allPaths e c form site stack inline, t.Sound e.Provides P := by
  intro t ht
  obtain ⟨skeleton, hskeleton, ht⟩ := List.mem_flatMap.1 ht
  obtain ⟨u, hu, rfl⟩ := List.mem_map.1 ht
  rw [steps_eq_statements] at hu
  have hscoped := hform.trails _ _ (Form.trail_of_mem_explore hskeleton)
  have hsound := sound_statements c site stack he hform hinline hscoped PathState.sound_empty
    (by simp [Ready]) hu
  have hcomplete : Continues e.Provides P u (complete skeleton.exit u) := .of_eq hsound rfl rfl
  exact hcomplete.sound

end Rendering

/-- Callees are scoped. -/
theorem soundInlined_inlineWith {e : Engine} (he : e.Valid) (hfew : e.FewFaults) {c : Context}
    (hc : c.Sound) {root site : Site} (hsite : c.Invokes root site) {stack : List Site}
    {paths : Form → Site → List Site → List PathState}
    (hpaths : ∀ form site stack, c.Invokes root site → e.form? site.method = some form →
      ∀ t ∈ paths form site stack, t.Sound e.Provides (e.Declares c root)) :
    ∀ offset callee, ∀ i ∈ inlineWith e c paths site stack offset callee,
      SoundInlined e.Provides (e.Declares c root) i := by
  intro offset callee i hi
  obtain ⟨hform, -, hfound, heq⟩ := inlineWith_eq_some hi
  have hinvoked : c.Invokes root i.site := .call hsite hfound
  have hmethod : i.site.method = callee := (hc.sites _ _ hfound).1
  rw [← hmethod] at hform
  refine ⟨(he.renders hfew hinvoked hform).parameters, ?_⟩
  rw [heq]
  exact hpaths _ _ _ hinvoked hform

/-- **Rendered paths are sound**: every path of a stored form at an invocation, with its callees
inlined, if no segment of a form is replaced. -/
theorem sound_render {e : Engine} (he : e.Valid) (hfew : e.FewFaults) {c : Context}
    (hc : c.Sound) {root : Site} (depth : Nat) {form : Form} {site : Site}
    (hsite : c.Invokes root site)
    (hf : e.form? site.method = some form) (stack : List Site) :
    ∀ t ∈ render e c depth form site stack, t.Sound e.Provides (e.Declares c root) := by
  induction depth generalizing form site stack with
  | zero =>
      refine sound_allPaths c site stack he (he.renders hfew hsite hf)
        (soundInlined_inlineWith he hfew hc hsite ?_)
      intro _ _ _ _ _ t ht
      contradiction
  | succ depth ih =>
      exact sound_allPaths c site stack he (he.renders hfew hsite hf)
        (soundInlined_inlineWith he hfew hc hsite fun _ _ stack hsite hf => ih hsite hf stack)

end Reference

end Pathwise
