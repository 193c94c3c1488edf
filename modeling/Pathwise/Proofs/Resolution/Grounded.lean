import Pathwise.Proofs.Resolution.Closed
import Pathwise.Proofs.Resolution.Needs

/-!
# Pathwise.Proofs.Resolution.Grounded

Engines that were filled without handlers. They are grounded: what they store is what
the program alone gives, together with all that this needs (`Engine.Grounded`).

In a grounded engine a request for a method explores what the method runs
(`Grounded.resolveMethod_cases`), and a request for a type what it depends on
(`Grounded.resolveType_cases`): the budgets are enough, and what is stored already
makes no difference to how a method is encoded (`Accounts.constructForm`). Hence each
request keeps an engine grounded (`grounded_performAll`).
-/

namespace Pathwise

/-- Whether a method has a form, staged or stored. -/
def Staging.hasForm (s : Staging) (e : Engine) (m : MethodRef) : Bool :=
  s.forms.contains m || e.forms.contains m

/-- An encoded method is one that a request can store. -/
theorem Program.builds_of_formOutcome {p : Program} {o : Options} {m : MethodRef} {f : Form}
    (h : p.formOutcome o m = .ok f) : p.Builds o m f := by
  obtain ⟨-, rfl⟩ | ⟨-, g, hg, htypes, hf⟩ := formOutcome_cases h
  · exact .leftOut
  · refine .encoded hg (p.encodes_lookup o.exceptionBase) (fun t ht => ?_) hf
    exact typeOutcome_eq_ok.1 (forM_eq_ok.1 htypes t ht) t .refl

namespace Engine

variable {e : Engine} {s mid : Staging} {m : MethodRef} {f : Form}

/-- An engine that stores what its program gives, and with it all that this needs. -/
structure Grounded (e : Engine) : Prop where
  valid : e.Valid
  closed : e.Closed
  forms : ∀ m f, e.forms.find? m = some f → e.program.formOutcome e.options m = .ok f
  mentions : ∀ m t, e.forms.contains m = true →
    e.program.Uses e.options (.method m) (.type t) → e.types.contains t = true

theorem Grounded.typesSealed (he : e.Grounded) : e.TypesSealed .empty := by
  intro t ht
  obtain ⟨x, hx⟩ := Option.isSome_iff_exists.1 ht
  exact ⟨x.dependencies, Program.dependencies_eq_ok.2 ⟨x, he.valid.types t x hx, rfl⟩,
    he.closed.dependencies t x hx⟩

theorem Grounded.formsSealed (he : e.Grounded) :
    Sealed (e.program.callees e.options) e.forms.contains := by
  intro m hm
  obtain ⟨f, hf⟩ := Option.isSome_iff_exists.1 hm
  exact ⟨f.referencedMethods, Program.callees_eq_ok.2 ⟨f, he.forms m f hf, rfl⟩,
    he.closed.methods m f hf⟩

/-- A type with a sentence is looked up as in the program. -/
theorem lookup_of_hasType (he : e.Valid) (hs : e.Staged s) {t : TypeRef}
    (h : s.hasType e t = true) : s.lookup e t = e.program.lookup e.options.exceptionBase t := by
  have hlookup : ∃ x, s.lookup e t = .ok x := by
    unfold Staging.hasType Table.contains at h
    unfold Staging.lookup TypeRepository.lookup
    cases hstaged : s.sentences.find? t with
    | some entry => exact ⟨entry.1, rfl⟩
    | none =>
        rw [hstaged] at h
        obtain ⟨x, hx⟩ : ∃ x, e.types.find? t = some x := Option.isSome_iff_exists.1 h
        exact ⟨x, by simp only [hx]⟩
  obtain ⟨x, hx⟩ := hlookup
  rw [hx]
  exact (mapError_eq_ok.2 (hs.encodes he t x hx)).symm

/-! ## one method -/

/-- What a request for a method has staged so far: forms that the program gives, the types that
these mention, and no others. -/
structure Accounts (e : Engine) (s : Staging) : Prop where
  staged : e.Staged s
  typesSealed : e.TypesSealed s
  forms : ∀ m entry, (m, entry) ∈ s.forms.entries →
    e.program.formOutcome e.options m = .ok entry.1 ∧ entry.2 = false
  mentions : ∀ m t, s.forms.contains m = true →
    e.program.Uses e.options (.method m) (.type t) → s.hasType e t = true
  origin : ∀ t, s.hasType e t = true → e.types.contains t = true ∨
    ∃ m, s.forms.contains m = true ∧ e.program.Needs e.options (.method m) (.type t)

theorem Grounded.accounts_empty (he : e.Grounded) : e.Accounts .empty where
  staged := e.staged_empty
  typesSealed := he.typesSealed
  forms _ _ h := by contradiction
  mentions _ _ h := by contradiction
  origin _ h := Or.inl h

theorem contains_addForm (s : Staging) (m m' : MethodRef) (f : Form) (handled : Bool) :
    (s.addForm m f handled).forms.contains m' = (decide (m = m') || s.forms.contains m') :=
  Table.contains_set _ _ _ _

/-- The form of a method is staged once the types are that the method mentions. -/
theorem Accounts.addForm (hs : e.Accounts s) (hstaged : e.Staged mid) (htypes : e.TypesSealed mid)
    (hforms : mid.forms = s.forms)
    (hiff : ∀ t, mid.hasType e t = true ↔ s.hasType e t = true ∨
      ∃ u, e.program.Uses e.options (.method m) (.type u) ∧ e.program.Reaches e.options u t)
    (hf : e.program.formOutcome e.options m = .ok f) : e.Accounts (mid.addForm m f false) where
  staged := hstaged.addForm false (Program.builds_of_formOutcome hf)
  typesSealed := htypes
  forms m' entry hentry := by
    cases Table.mem_entries_set hentry with
    | inl heq =>
        obtain ⟨rfl, rfl⟩ := Prod.mk.inj heq
        exact ⟨hf, rfl⟩
    | inr hmem => exact hs.forms m' entry (hforms ▸ hmem)
  mentions m' t hm' ht := by
    rw [contains_addForm, Bool.or_eq_true, decide_eq_true_eq] at hm'
    refine (hiff t).2 ?_
    obtain rfl | hm' := hm'
    · exact Or.inr ⟨t, ht, .refl⟩
    · exact Or.inl (hs.mentions m' t (hforms ▸ hm') ht)
  origin t ht := by
    simp only [contains_addForm, Bool.or_eq_true, decide_eq_true_eq]
    obtain ht | ⟨u, hu, hut⟩ := (hiff t).1 ht
    · refine (hs.origin t ht).imp_right ?_
      rintro ⟨m', hm', hneeds⟩
      exact ⟨m', Or.inr (hforms ▸ hm'), hneeds⟩
    · exact Or.inr ⟨m, Or.inl rfl, .head hu hut.needs⟩

section

variable {scope : EngineScope}

theorem constructForm_of_leavesOut (hmethods : scope.methodHandlers = [])
    (hm : e.options.leavesOut m = true) :
    e.constructForm scope s m = .ok (.empty m, false, s) := by
  have hleft : (m.isAbstract || e.options.isIgnorable m) = true := hm
  simp [constructForm, hmethods, ask, hleft, bind, Except.bind, pure, Except.pure]

theorem constructForm_of_none (hmethods : scope.methodHandlers = [])
    (hm : e.options.leavesOut m = false) (hg : e.program.methodGraph? m = none) :
    e.constructForm scope s m = .error (.unresolvedMethod m) := by
  have hleft : (m.isAbstract || e.options.isIgnorable m) = false := hm
  simp [constructForm, hmethods, ask, hleft, hg, bind, Except.bind, throw, throwThe,
    MonadExceptOf.throw]

theorem constructForm_of_graph (htypes : scope.typeHandlers = [])
    (hmethods : scope.methodHandlers = []) (hm : e.options.leavesOut m = false) {g : MethodGraph}
    (hg : e.program.methodGraph? m = some g) :
    e.constructForm scope s m = (do
      let out ← g.mentionedTypes.foldlM (e.stageType []) s
      let form ← (Form.ofGraph (out.lookup e) g).mapError .lowering
      return (form, false, out)) := by
  have hleft : (m.isAbstract || e.options.isIgnorable m) = false := hm
  simp only [constructForm, hmethods, htypes, ask, hleft, hg]
  rfl

/-- **Encoding one method** ends as it does where nothing has a sentence yet. -/
theorem Accounts.constructForm (he : e.Grounded) (hs : e.Accounts s)
    (htypes : scope.typeHandlers = []) (hmethods : scope.methodHandlers = []) (m : MethodRef) :
    (∃ err, e.constructForm scope s m = .error err ∧
      e.program.formOutcome e.options m = .error err) ∨
    ∃ f mid, e.constructForm scope s m = .ok (f, false, mid) ∧
      e.program.formOutcome e.options m = .ok f ∧ e.Accounts (mid.addForm m f false) ∧
      mid.forms = s.forms ∧ ∀ t ∈ f.referencedTypes, mid.hasType e t = true := by
  cases hm : e.options.leavesOut m with
  | true =>
      have hf := Program.formOutcome_of_leavesOut (p := e.program) hm
      refine Or.inr ⟨.empty m, s, constructForm_of_leavesOut hmethods hm, hf, ?_, rfl,
        fun t ht => by contradiction⟩
      refine hs.addForm hs.staged hs.typesSealed rfl (fun t => ⟨Or.inl, ?_⟩) hf
      rintro (ht | ⟨u, hu, -⟩)
      · exact ht
      · exact absurd hu (Program.not_uses_type hm u)
  | false =>
      cases hg : e.program.methodGraph? m with
      | none =>
          exact Or.inl ⟨.unresolvedMethod m, constructForm_of_none hmethods hm hg,
            by simp [Program.formOutcome, hm, hg]⟩
      | some g =>
          rw [constructForm_of_graph htypes hmethods hm hg]
          have houtcome := Program.formOutcome_of_graph hm hg
          rw [← foldlM_stageType_outcome hs.typesSealed] at houtcome
          cases hfold : g.mentionedTypes.foldlM (e.stageType []) s with
          | error err => exact Or.inl ⟨err, rfl, by rw [houtcome, hfold]; rfl⟩
          | ok mid =>
              obtain ⟨hsealed, hiff⟩ := hs.typesSealed.foldlM hfold
              have hextends := (stagesEach_of_foldlM hfold).extends
              have hstaged := hs.staged.extends hextends
              have hmentioned : ∀ t ∈ g.mentionedTypes, mid.hasType e t = true :=
                fun t ht => (hiff t).2 (Or.inr ⟨t, ht, .refl⟩)
              -- the encoding looks up only types that the graph mentions
              have hgraph : Form.ofGraph (mid.lookup e) g =
                  Form.ofGraph (e.program.lookup e.options.exceptionBase) g :=
                Form.ofGraph_congr fun t ht => lookup_of_hasType he.valid hstaged (hmentioned t ht)
              cases hf : Form.ofGraph (e.program.lookup e.options.exceptionBase) g with
              | error cause =>
                  refine Or.inl ⟨.lowering cause, ?_, by rw [houtcome, hfold, hf]; rfl⟩
                  simp only [bind, Except.bind, hgraph, hf]
                  rfl
              | ok f =>
                  have hok : e.program.formOutcome e.options m = .ok f := by
                    rw [houtcome, hfold, hf]
                    rfl
                  refine Or.inr ⟨f, mid, ?_, hok, ?_, hextends.forms,
                    fun t ht => hmentioned t (Form.referencedTypes_subset hf ht)⟩
                  · simp only [bind, Except.bind, hgraph, hf]
                    rfl
                  · refine hs.addForm hstaged hsealed hextends.forms (fun t => ?_) hok
                    simp only [hiff t, Program.uses_type_iff hm hg]

/-- What a form leaves to resolve is methods only, once all types it refers to have a sentence. -/
theorem pendingOf_eq (h : ∀ t ∈ f.referencedTypes, s.hasType e t = true) :
    e.pendingOf s f = (e.unknownMethods f).map .method := by
  have hnone : f.referencedTypes.filter (!s.hasType e ·) = [] :=
    List.filter_eq_nil_iff.2 fun t ht => by simp [h t ht]
  rw [pendingOf, hnone]
  rfl

theorem hasForm_addForm (s : Staging) (m : MethodRef) (f : Form) (handled : Bool) :
    (s.addForm m f handled).hasForm e = mark (s.hasForm e) m := by
  funext m'
  rw [Staging.hasForm, contains_addForm, Bool.or_assoc]
  rfl

theorem hasForm_eq_of_forms (h : mid.forms = s.forms) : mid.hasForm e = s.hasForm e := by
  unfold Staging.hasForm
  rw [h]

/-! ## a work-list of methods -/

/-- One step of a request: it fails as encoding the method does, or it stages the form and leaves
the methods to resolve which that runs. -/
theorem Accounts.step (he : e.Grounded) (hs : e.Accounts s) (htypes : scope.typeHandlers = [])
    (hmethods : scope.methodHandlers = []) (hm : e.forms.contains m = false) (r : Registry) :
    (∃ err, (e.step scope s r (.method m)).1 = .error err ∧
      e.program.formOutcome e.options m = .error err) ∨
    ∃ f, ∃ mid : Staging, (e.step scope s r (.method m)).1 =
        .ok (mid.addForm m f false, (e.unknownMethods f).map .method) ∧
      e.program.formOutcome e.options m = .ok f ∧ e.Accounts (mid.addForm m f false) ∧
      mid.forms = s.forms := by
  -- the nested scope has the handlers of the one around it
  have hinner :
      (r.nest scope ([] : List TypeHandler) ([] : List MethodHandler)).1.typeHandlers = [] :=
    htypes
  have hinner' :
      (r.nest scope ([] : List TypeHandler) ([] : List MethodHandler)).1.methodHandlers = [] :=
    hmethods
  unfold Engine.step
  simp only [hm, Bool.false_eq_true, if_false]
  obtain ⟨err, hform, herr⟩ | ⟨f, mid, hform, hf, haccounts, hforms, hreferenced⟩ :=
    Accounts.constructForm he hs hinner hinner' m
  · refine Or.inl ⟨err, ?_, herr⟩
    rw [hform]
    rfl
  · refine Or.inr ⟨f, mid, ?_, hf, haccounts, hforms⟩
    rw [hform, ← pendingOf_eq hreferenced]
    rfl

/-! The work-list of a queue that holds only methods. -/

section

variable {fuel : Nat} {queue rest : List MethodRef} {seen : List PendingRef} {r : Registry}

theorem dropWhile_methods (queue : List MethodRef) (seen : List PendingRef) :
    (queue.map PendingRef.method).dropWhile (· ∈ seen) =
      (queue.dropWhile fun m => decide (.method m ∈ seen)).map .method :=
  List.dropWhile_map

theorem drain_of_nil (h : (queue.dropWhile fun m => decide (.method m ∈ seen)) = []) :
    (e.drain scope fuel (queue.map .method) seen s r).1 = .ok s := by
  unfold drain
  rw [dropWhile_methods, h]
  rfl

theorem drain_of_error {err : ResolutionError}
    (h : (queue.dropWhile fun m => decide (.method m ∈ seen)) = m :: rest)
    (hstep : (e.step scope s r (.method m)).1 = .error err) :
    (e.drain scope (fuel + 1) (queue.map .method) seen s r).1 = .error err := by
  unfold drain
  rw [dropWhile_methods, h]
  rcases hresult : e.step scope s r (.method m) with ⟨result, r'⟩
  obtain rfl : result = .error err := by simpa only [hresult] using hstep
  simp only [List.map_cons, hresult]

theorem drain_of_step {more : List MethodRef}
    (h : (queue.dropWhile fun m => decide (.method m ∈ seen)) = m :: rest)
    (hstep : (e.step scope s r (.method m)).1 = .ok (mid, more.map .method)) :
    (e.drain scope (fuel + 1) (queue.map .method) seen s r).1 =
      (e.drain scope fuel ((rest ++ more).map .method) (.method m :: seen) mid
        (e.step scope s r (.method m)).2).1 := by
  nth_rewrite 1 [drain]
  rw [dropWhile_methods, h]
  rcases hresult : e.step scope s r (.method m) with ⟨result, r'⟩
  obtain rfl : result = .ok (mid, more.map .method) := by simpa only [hresult] using hstep
  simp only [List.map_cons, hresult, List.map_append]

end

/-- The state of a work-list of methods: they are among those that can come up, none of them is
stored, and what was seen is what is staged. -/
structure Queued (e : Engine) (nodes queue : List MethodRef) (seen : List PendingRef)
    (s : Staging) : Prop where
  accounts : e.Accounts s
  nodes : queue ⊆ nodes
  unstored : ∀ m ∈ queue, e.forms.contains m = false
  seen : ∀ m, .method m ∈ seen ↔ s.forms.contains m = true

section

variable {nodes queue rest : List MethodRef} {seen : List PendingRef}

theorem Queued.hasForm_of_seen (h : e.Queued nodes queue seen s)
    (hm : decide (PendingRef.method m ∈ seen) = true) : s.hasForm e m = true := by
  have hstaged := (h.seen m).1 (of_decide_eq_true hm)
  rw [Staging.hasForm, hstaged, Bool.true_or]

/-- The next method has no form yet. -/
theorem Queued.not_hasForm (h : e.Queued nodes queue seen s)
    (hdrop : (queue.dropWhile fun m => decide (.method m ∈ seen)) = m :: rest) :
    s.hasForm e m = false ∧ m :: rest ⊆ queue := by
  obtain ⟨hm, hsub⟩ := unskipped_of_dropWhile hdrop
  have hstaged : ¬s.forms.contains m = true := fun hs => of_decide_eq_false hm ((h.seen m).2 hs)
  have hunstored := h.unstored m (hsub List.mem_cons_self)
  refine ⟨?_, hsub⟩
  simpa [Staging.hasForm, hunstored] using hstaged

/-- The form of the next method is staged, and the methods are queued which that runs. -/
theorem Queued.next (h : e.Queued nodes queue seen s)
    (hnodes : ∀ m ∈ nodes, ∀ more, e.program.callees e.options m = .ok more → more ⊆ nodes)
    (hsub : m :: rest ⊆ queue) (hf : e.program.callees e.options m = .ok f.referencedMethods)
    (haccounts : e.Accounts (mid.addForm m f false)) (hforms : mid.forms = s.forms) :
    e.Queued nodes (rest ++ e.unknownMethods f) (.method m :: seen) (mid.addForm m f false) := by
  obtain ⟨hm, hrest⟩ := List.cons_subset.1 hsub
  refine ⟨haccounts, ?_, ?_, ?_⟩
  · refine List.append_subset.2 ⟨fun m' hm' => h.nodes (hrest hm'), fun m' hm' => ?_⟩
    exact hnodes m (h.nodes hm) _ hf (List.mem_filter.1 hm').1
  · intro m' hm'
    cases List.mem_append.1 hm' with
    | inl hm' => exact h.unstored m' (hrest hm')
    | inr hm' => simpa using (List.mem_filter.1 hm').2
  · intro m'
    rw [List.mem_cons, h.seen, contains_addForm, hforms, Bool.or_eq_true, decide_eq_true_eq,
      PendingRef.method.injEq, eq_comm]

/-- It makes no difference that stored methods are not queued. -/
theorem explores_of_next {known : MethodRef → Bool}
    {out : Except ResolutionError (MethodRef → Bool)}
    (hf : e.program.callees e.options m = .ok f.referencedMethods) (hm : known m = false)
    (hstored : ∀ m', e.forms.contains m' = true → known m' = true)
    (h : Explores (e.program.callees e.options) (rest ++ e.unknownMethods f) (mark known m) out) :
    Explores (e.program.callees e.options) (m :: rest) known out := by
  have hsame : (rest ++ f.referencedMethods).filter (!e.forms.contains ·) =
      (rest ++ e.unknownMethods f).filter (!e.forms.contains ·) := by
    simp [unknownMethods]
  refine .add hm hf (h.requeue (fun m' hm' => ?_) hsame)
  simp [mark, hstored m' hm']

end

/-- **A work-list of methods** explores what they run. Methods with a form are known, and the fuel
is enough if it counts, of all methods that can come up, those without a form. -/
theorem Queued.drain (he : e.Grounded) (htypes : scope.typeHandlers = [])
    (hmethods : scope.methodHandlers = []) {nodes : List MethodRef}
    (hnodes : ∀ m ∈ nodes, ∀ more, e.program.callees e.options m = .ok more → more ⊆ nodes)
    {fuel : Nat} {queue : List MethodRef} {seen : List PendingRef} {r : Registry}
    (h : e.Queued nodes queue seen s) (hfuel : unknownAmong nodes (s.hasForm e) ≤ fuel) :
    Explores (e.program.callees e.options) queue (s.hasForm e)
        ((e.drain scope fuel (queue.map .method) seen s r).1.map fun out => out.hasForm e) ∧
      ∀ out, (e.drain scope fuel (queue.map .method) seen s r).1 = .ok out → e.Accounts out := by
  induction fuel generalizing queue seen s r with
  | zero =>
      cases hdrop : queue.dropWhile fun m => decide (PendingRef.method m ∈ seen) with
      | nil =>
          rw [drain_of_nil hdrop]
          refine ⟨.of_dropWhile (fun m => h.hasForm_of_seen) (hdrop ▸ .done _), ?_⟩
          exact fun out hout => Except.ok.inj hout ▸ h.accounts
      | cons m rest =>
          -- without fuel all methods that can come up have a form, but `m` has none
          obtain ⟨hm, hsub⟩ := h.not_hasForm hdrop
          have hlt := unknownAmong_mark_lt (h.nodes (hsub List.mem_cons_self)) hm
          omega
  | succ fuel ih =>
      cases hdrop : queue.dropWhile fun m => decide (PendingRef.method m ∈ seen) with
      | nil =>
          rw [drain_of_nil hdrop]
          refine ⟨.of_dropWhile (fun m => h.hasForm_of_seen) (hdrop ▸ .done _), ?_⟩
          exact fun out hout => Except.ok.inj hout ▸ h.accounts
      | cons m rest =>
          obtain ⟨hm, hsub⟩ := h.not_hasForm hdrop
          have hmem : m ∈ queue := hsub List.mem_cons_self
          obtain ⟨err, hstep, herr⟩ | ⟨f, mid, hstep, hf, haccounts, hforms⟩ :=
            h.accounts.step he htypes hmethods (h.unstored m hmem) r
          · have hcallees : e.program.callees e.options m = .error err :=
              congrArg (Except.map _) herr
            rw [drain_of_error hdrop hstep]
            refine ⟨.of_dropWhile (fun m => h.hasForm_of_seen) (hdrop ▸ .fail hm hcallees), ?_⟩
            exact fun out hout => by contradiction
          · have hcallees : e.program.callees e.options m = .ok f.referencedMethods :=
              congrArg (Except.map _) hf
            have hmark : (mid.addForm m f false).hasForm e = mark (s.hasForm e) m := by
              rw [hasForm_addForm, hasForm_eq_of_forms hforms]
            have hlt := unknownAmong_mark_lt (h.nodes hmem) hm
            rw [drain_of_step hdrop hstep]
            -- one more method has a form, which pays for the unit of fuel
            obtain ⟨hexplores, hout⟩ :=
              ih (h.next hnodes hsub hcallees haccounts hforms) (by rw [hmark]; omega)
            rw [hmark] at hexplores
            refine ⟨.of_dropWhile (fun m => h.hasForm_of_seen) (hdrop ▸ ?_), hout⟩
            refine explores_of_next hcallees hm (fun m' hm' => ?_) hexplores
            rw [Staging.hasForm, hm', Bool.or_true]

end

/-! ## requests to a grounded engine -/

theorem contains_commit_forms_eq (s : Staging) (e : Engine) :
    (s.commit e).forms.contains = s.hasForm e := by
  funext m
  rw [Bool.eq_iff_iff, Staging.hasForm, Bool.or_eq_true]
  constructor
  · intro h
    obtain ⟨f, hf⟩ := Option.isSome_iff_exists.1 h
    obtain hold | ⟨handled, hmem⟩ := find?_forms_of_commit hf
    · exact Or.inr (Option.isSome_iff_exists.2 ⟨f, hold⟩)
    · exact Or.inl (Table.contains_of_mem_entries hmem)
  · rintro (hstaged | hstored)
    · exact contains_commit_forms s hstaged
    · obtain ⟨f, hf⟩ := Option.isSome_iff_exists.1 hstored
      exact Option.isSome_iff_exists.2 ⟨f, find?_commit_forms_of_some s hf⟩

theorem OwnTypes.contains_commit_types_eq (hs : OwnTypes s) :
    (s.commit e).types.contains = s.hasType e := by
  funext t
  rw [Bool.eq_iff_iff]
  constructor
  · intro h
    obtain ⟨x, hx⟩ := Option.isSome_iff_exists.1 h
    obtain hold | ⟨u, entry, hmem, rfl, rfl⟩ := find?_types_of_commit hx
    · have hstored : e.types.contains t = true := Option.isSome_iff_exists.2 ⟨x, hold⟩
      rw [Staging.hasType, hstored, Bool.or_true]
    · rw [hs u entry hmem, Staging.hasType, Table.contains_of_mem_entries hmem, Bool.true_or]
  · exact contains_commit_types hs

theorem Staged.ownTypes (hs : e.Staged s) : OwnTypes s :=
  fun t entry hentry => Sentence.type_of_encode (hs.sentences t entry hentry)

/-- A new form is the program's, and no handler supplied it. -/
theorem Accounts.find?_commit (hs : e.Accounts s) (hnew : e.forms.find? m = none)
    (hm : s.hasForm e m = true) : ∃ f, e.program.formOutcome e.options m = .ok f ∧
      s.forms.find? m = some (f, false) ∧ (s.commit e).forms.find? m = some f := by
  rw [← contains_commit_forms_eq] at hm
  obtain ⟨f, hf⟩ : ∃ f, (s.commit e).forms.find? m = some f := Option.isSome_iff_exists.1 hm
  obtain hold | ⟨handled, hmem⟩ := find?_forms_of_commit hf
  · exact absurd (hnew.symm.trans hold) (by simp)
  · obtain ⟨entry, hentry⟩ := Option.isSome_iff_exists.1 (Table.contains_of_mem_entries hmem)
    obtain ⟨houtcome, -⟩ := hs.forms m _ hmem
    obtain ⟨houtcome', hhandled⟩ := hs.forms m entry (Table.mem_entries_of_find? hentry)
    have hform : entry.1 = f := Except.ok.inj (houtcome'.symm.trans houtcome)
    exact ⟨f, houtcome, by rw [hentry, ← hform, ← hhandled], hf⟩

theorem Grounded.queued (he : e.Grounded) (hnew : e.forms.contains m = false) :
    e.Queued (m :: e.program.methodReach) [m] [] .empty where
  accounts := he.accounts_empty
  nodes := List.cons_subset.2 ⟨List.mem_cons_self, List.nil_subset _⟩
  unstored := List.forall_mem_singleton.2 hnew
  seen m' := ⟨fun h => by contradiction, fun h => by contradiction⟩

/-- The work-list of a request for a method that has no form yet. -/
theorem Grounded.drain (he : e.Grounded) (hnew : e.forms.contains m = false) (scope : EngineScope)
    (htypes : scope.typeHandlers = []) (hmethods : scope.methodHandlers = []) (r : Registry) :
    Explores (e.program.callees e.options) [m] e.forms.contains
        ((e.drain scope (e.methodBudget [] []) [.method m] [] .empty r).1.map (·.hasForm e)) ∧
      ∀ out, (e.drain scope (e.methodBudget [] []) [.method m] [] .empty r).1 = .ok out →
        e.Accounts out := by
  have hnodes : ∀ m' ∈ m :: e.program.methodReach, ∀ more,
      e.program.callees e.options m' = .ok more → more ⊆ m :: e.program.methodReach :=
    fun _ _ _ hmore => List.subset_cons_of_subset m (Program.callees_subset hmore)
  refine (he.queued hnew).drain he htypes hmethods hnodes ((unknownAmong_le_length _ _).trans ?_)
  rw [methodBudget, List.length_cons]
  omega

/-- A request for a method finds its form, fails as the exploration of what the method runs does,
or stores what it explored. -/
theorem Grounded.resolveMethod_cases (he : e.Grounded) (m : MethodRef) :
    (∃ f, e.forms.find? m = some f ∧ e.resolveMethod m [] [] = (.ok (.cached f), e)) ∨
    (∃ err r, Explores (e.program.callees e.options) [m] e.forms.contains (.error err) ∧
      e.resolveMethod m [] [] = (.error err, { e with handlers := r })) ∨
    ∃ f s r, Explores (e.program.callees e.options) [m] e.forms.contains (.ok (s.hasForm e)) ∧
      e.Accounts s ∧ e.program.formOutcome e.options m = .ok f ∧
      e.resolveMethod m [] [] = (.ok (.constructed f), s.commit { e with handlers := r }) := by
  unfold resolveMethod
  cases hfind : e.forms.find? m with
  | some f => exact Or.inl ⟨f, rfl, rfl⟩
  | none =>
      refine Or.inr ?_
      have hnew : e.forms.contains m = false :=
        Option.isSome_eq_false_iff.2 (Option.isNone_iff_eq_none.2 hfind)
      have hdrain := he.drain hnew (e.handlers.enter [] []).1 rfl rfl
        (e.handlers.enter ([] : List TypeHandler) ([] : List MethodHandler)).2
      simp only
      rcases hresult : e.drain (e.handlers.enter [] []).1 (e.methodBudget [] []) [.method m] []
        .empty (e.handlers.enter ([] : List TypeHandler) ([] : List MethodHandler)).2 with
        ⟨err | s, r⟩
      · rw [hresult] at hdrain
        exact Or.inl ⟨err, _, hdrain.1, rfl⟩
      · rw [hresult] at hdrain
        have hs := hdrain.2 s rfl
        have hm : s.hasForm e m = true :=
          (hdrain.1.known_iff he.formsSealed m).2 (Or.inr ⟨m, List.mem_cons_self, .refl⟩)
        obtain ⟨f, hf, hstaged, hcommit⟩ := hs.find?_commit hfind hm
        let left := r.leave (e.handlers.enter ([] : List TypeHandler) ([] : List MethodHandler)).1
        have hstored : (s.commit { e with handlers := left }).forms.find? m = some f := hcommit
        refine Or.inr ⟨f, s, left, hdrain.1, hs, hf, ?_⟩
        simp only [hstaged]
        rw [hstored]

/-- A new sentence is the program's, and no handler supplied it. -/
theorem find?_commit_of_extends {t : TypeRef} (hs : e.Extends [] .empty s)
    (hnew : e.types.find? t = none) (ht : s.hasType e t = true) :
    ∃ x, Sentence.encode e.options.exceptionBase e.program t = .ok x ∧
      s.sentences.find? t = some (x, false) ∧ (s.commit e).types.find? t = some x := by
  have hentries : ∀ u entry, (u, entry) ∈ s.sentences.entries →
      Sentence.encode e.options.exceptionBase e.program u = .ok entry.1 ∧ entry.2 = false := by
    intro u entry hentry
    obtain hold | hnew := hs.origin u entry hentry
    · contradiction
    · exact constructSentence_nil_eq_ok.1 hnew
  obtain ⟨⟨x, handled⟩, hmem⟩ | ⟨x, hold⟩ := hasType_cases ht
  · obtain ⟨hx, rfl⟩ := hentries t _ hmem
    obtain ⟨entry, hentry⟩ := Option.isSome_iff_exists.1 (Table.contains_of_mem_entries hmem)
    obtain ⟨hx', hhandled⟩ := hentries t entry (Table.mem_entries_of_find? hentry)
    have hsame : entry.1 = x := Except.ok.inj (hx'.symm.trans hx)
    refine ⟨x, hx, by rw [hentry, ← hsame, ← hhandled], ?_⟩
    have hstaged := e.staged_empty.extends hs
    rw [← hstaged.ownTypes.contains_commit_types_eq] at ht
    obtain ⟨y, hy⟩ : ∃ y, (s.commit e).types.find? t = some y := Option.isSome_iff_exists.1 ht
    obtain hold | ⟨u, entry', hmem', rfl, rfl⟩ := find?_types_of_commit hy
    · exact absurd (hnew.symm.trans hold) (by simp)
    · rw [hstaged.ownTypes u entry' hmem'] at hx hy ⊢
      rw [hy, Except.ok.inj ((hentries u entry' hmem').1.symm.trans hx)]
  · exact absurd (hnew.symm.trans hold) (by simp)

/-- A request for a type finds its sentence, fails as the exploration of what the type depends on
does, or stores what it explored. -/
theorem Grounded.resolveType_cases (he : e.Grounded) (t : TypeRef) :
    (∃ x, e.types.find? t = some x ∧ e.resolveType t = (.ok (.cached x), e)) ∨
    (∃ err r, Explores (e.program.dependencies e.options) [t] e.types.contains (.error err) ∧
      e.resolveType t = (.error err, { e with handlers := r })) ∨
    ∃ x s r, Explores (e.program.dependencies e.options) [t] e.types.contains (.ok (s.hasType e)) ∧
      e.Staged s ∧ s.forms = ∅ ∧ Sentence.encode e.options.exceptionBase e.program t = .ok x ∧
      e.resolveType t = (.ok (.constructed x), s.commit { e with handlers := r }) := by
  unfold resolveType
  cases hfind : e.types.find? t with
  | some x => exact Or.inl ⟨x, rfl, rfl⟩
  | none =>
      refine Or.inr ?_
      have hexplores := e.explores_stageType .empty t
      let left := (e.handlers.enter ([] : List TypeHandler) ([] : List MethodHandler)).2.leave
        (e.handlers.enter ([] : List TypeHandler) ([] : List MethodHandler)).1
      have hhandlers : (e.handlers.enter ([] : List TypeHandler)
        ([] : List MethodHandler)).1.typeHandlers = [] := rfl
      simp only [hhandlers]
      cases hstage : e.stageType [] .empty t with
      | error err =>
          rw [hstage] at hexplores
          exact Or.inl ⟨err, left, hexplores, rfl⟩
      | ok s =>
          rw [hstage] at hexplores
          have hextends := (stages_of_stageTypes hstage).extends
          have ht : s.hasType e t = true :=
            (hexplores.known_iff he.typesSealed t).2 (Or.inr ⟨t, List.mem_cons_self, .refl⟩)
          obtain ⟨x, hx, hstaged, hcommit⟩ := find?_commit_of_extends hextends hfind ht
          have hstored : (s.commit { e with handlers := left }).types.find? t = some x := hcommit
          refine Or.inr ⟨x, s, left, hexplores, e.staged_empty.extends hextends, hextends.forms, hx,
            ?_⟩
          simp only [hstaged]
          rw [hstored]

/-! ## any requests -/

theorem Request.IsUnaided.faithful {q : Request} (h : q.IsUnaided) : q.Faithful := by
  cases q with
  | type t => trivial
  | method m types methods =>
      obtain ⟨rfl, rfl⟩ := h
      simp [Request.Faithful]

theorem Grounded.withHandlers (he : e.Grounded) (r : Registry) :
    Engine.Grounded { e with handlers := r } where
  valid := ⟨he.valid.types, he.valid.forms⟩
  closed := ⟨he.closed.dependencies, he.closed.types, he.closed.methods⟩
  forms := he.forms
  mentions := he.mentions

/-- What is staged is stored, if it is the program's and with it all that it mentions. -/
theorem Grounded.commit (he : e.Grounded) (hs : e.Staged s)
    (hforms : ∀ m entry, (m, entry) ∈ s.forms.entries →
      e.program.formOutcome e.options m = .ok entry.1)
    (hmentions : ∀ m t, s.forms.contains m = true →
      e.program.Uses e.options (.method m) (.type t) → s.hasType e t = true)
    (hclosed : (s.commit e).Closed) : (s.commit e).Grounded where
  valid := he.valid.commit hs
  closed := hclosed
  forms m f hf := by
    obtain hold | ⟨handled, hmem⟩ := find?_forms_of_commit hf
    · exact he.forms m f hold
    · exact hforms m _ hmem
  mentions m t hm ht := by
    rw [contains_commit_forms_eq, Staging.hasForm, Bool.or_eq_true] at hm
    rw [hs.ownTypes.contains_commit_types_eq]
    obtain hstaged | hstored := hm
    · exact hmentions m t hstaged ht
    · rw [Staging.hasType, he.mentions m t hstored ht, Bool.or_true]

/-- A request without handlers keeps an engine grounded, whichever way it ends. -/
theorem Grounded.perform (he : e.Grounded) {q : Request} (hq : q.IsUnaided) :
    (e.perform q).2.Grounded := by
  have hclosed : (e.perform q).2.Closed := he.closed.perform hq.faithful
  cases q with
  | type t =>
      obtain ⟨x, -, heq⟩ | ⟨err, r, -, heq⟩ | ⟨x, s, r, -, hs, hforms, -, heq⟩ :=
        he.resolveType_cases t
      · simpa only [Engine.perform, heq] using he
      · simpa only [Engine.perform, heq] using he.withHandlers r
      · simp only [Engine.perform, heq] at hclosed ⊢
        refine (he.withHandlers r).commit ⟨hs.sentences, hs.forms⟩ ?_ ?_ hclosed
        · intro m entry hentry
          rw [hforms] at hentry
          contradiction
        · intro m t hm
          rw [hforms] at hm
          contradiction
  | method m types methods =>
      obtain ⟨rfl, rfl⟩ := hq
      obtain ⟨f, -, heq⟩ | ⟨err, r, -, heq⟩ | ⟨f, s, r, -, hs, -, heq⟩ := he.resolveMethod_cases m
      · simpa only [Engine.perform, heq] using he
      · simpa only [Engine.perform, heq] using he.withHandlers r
      · simp only [Engine.perform, heq] at hclosed ⊢
        exact (he.withHandlers r).commit ⟨hs.staged.sentences, hs.staged.forms⟩
          (fun m entry hentry => (hs.forms m entry hentry).1) hs.mentions hclosed

theorem grounded_new (p : Program) (o : Options) : (Engine.new p o).Grounded where
  valid := valid_new p o
  closed := closed_new p o
  forms m f h := by simp [Engine.new, FormRepository.empty, FormRepository.find?] at h
  mentions m t h := by contradiction

theorem program_perform (e : Engine) (q : Request) :
    (e.perform q).2.program = e.program ∧ (e.perform q).2.options = e.options := by
  obtain ⟨-, heq⟩ | ⟨r, -, ⟨err, heq⟩ | ⟨s, -, heq⟩⟩ := e.perform_cases q <;>
    exact heq ▸ ⟨rfl, rfl⟩

/-- **Requests without handlers** fill an engine with what its program gives, and all that this
needs. -/
theorem grounded_performAll (p : Program) (o : Options) {requests : List Request}
    (h : ∀ q ∈ requests, q.IsUnaided) : ((Engine.new p o).performAll requests).Grounded ∧
      ((Engine.new p o).performAll requests).program = p ∧
      ((Engine.new p o).performAll requests).options = o := by
  refine performAll_induction (P := fun e => e.Grounded ∧ e.program = p ∧ e.options = o) ?_
    ⟨grounded_new p o, rfl, rfl⟩
  rintro q hq e ⟨he, rfl, rfl⟩
  exact ⟨he.perform (h q hq), e.program_perform q⟩

end Engine

end Pathwise
