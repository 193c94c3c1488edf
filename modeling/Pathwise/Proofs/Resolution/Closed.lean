import Pathwise.Proofs.Filled

/-!
# Pathwise.Proofs.Resolution.Closed

Repositories that lack nothing: what a stored sentence depends on is stored, and
so is what a stored form refers to. A request keeps that (`Closed.perform`), since
what a staged form leaves to resolve stays in the work-list until it is dealt
with; hence it holds after any requests (`closed_performAll`).
-/

namespace Pathwise

/-- All that a form refers to. -/
def Form.references (f : Form) : List PendingRef :=
  f.referencedTypes.map .type ++ f.referencedMethods.map .method

namespace Engine

variable {e : Engine} {s out : Staging} {types : List TypeHandler} {methods : List MethodHandler}
  {queue : List PendingRef}

/-- Everything that stored sentences and forms refer to is stored. -/
structure Closed (e : Engine) : Prop where
  dependencies : ∀ t x, e.types.find? t = some x → ∀ d ∈ x.dependencies, e.types.contains d = true
  types : ∀ m f, e.forms.find? m = some f → ∀ t ∈ f.referencedTypes, e.types.contains t = true
  methods : ∀ m f, e.forms.find? m = some f → ∀ callee ∈ f.referencedMethods,
    e.forms.contains callee = true

/-! ## the work-list -/

/-- A reference of a new form is dealt with already, or it is left to resolve. -/
theorem isSettled_or_mem_pendingOf {f : Form} {r : PendingRef} (h : r ∈ f.references) :
    e.IsSettled s r ∨ r ∈ e.pendingOf s f := by
  unfold Form.references at h
  unfold pendingOf unknownMethods
  cases List.mem_append.1 h with
  | inl htype =>
      obtain ⟨t, ht, rfl⟩ := List.mem_map.1 htype
      by_cases hknown : s.hasType e t = true
      · exact Or.inl hknown
      · refine Or.inr (List.mem_append_left _ (List.mem_map_of_mem (List.mem_filter.2 ⟨ht, ?_⟩)))
        simpa using hknown
  | inr hmethod =>
      obtain ⟨m, hm, rfl⟩ := List.mem_map.1 hmethod
      by_cases hknown : e.forms.contains m = true
      · exact Or.inl (Or.inl hknown)
      · refine Or.inr (List.mem_append_right _ (List.mem_map_of_mem (List.mem_filter.2 ⟨hm, ?_⟩)))
        simpa using hknown

/-- A staging that lacks nothing but what is queued. -/
structure Complete (e : Engine) (s : Staging) (queue : List PendingRef) : Prop where
  own : OwnTypes s
  depends : e.DependsWithin s []
  refers : ∀ m entry, (m, entry) ∈ s.forms.entries → ∀ r ∈ entry.1.references,
    e.IsSettled s r ∨ r ∈ queue

theorem complete_empty (e : Engine) (queue : List PendingRef) : e.Complete .empty queue where
  own := ownTypes_empty
  depends _ _ h := by contradiction
  refers _ _ h := by contradiction

/-- Staging types keeps it, once the new sentences lack nothing. -/
theorem Complete.extends (hs : e.Complete s queue) (hfaithful : ∀ h ∈ types, h.Faithful)
    (h : e.Extends types s out) (hdepends : e.DependsWithin out []) : e.Complete out queue where
  own := h.ownTypes hfaithful hs.own
  depends := hdepends
  refers m entry hentry r hr := by
    rw [h.forms] at hentry
    exact (hs.refers m entry hentry r hr).imp_left h.isSettled

/-- The first of the queue is dealt with. -/
theorem Complete.settle {next : PendingRef} (hs : e.Complete s (next :: queue))
    (hnext : e.IsSettled s next) : e.Complete s queue where
  own := hs.own
  depends := hs.depends
  refers m entry hentry r hr := by
    obtain hsettled | hmem := hs.refers m entry hentry r hr
    · exact Or.inl hsettled
    · cases List.mem_cons.1 hmem with
      | inl heq => exact Or.inl (heq ▸ hnext)
      | inr hmem => exact Or.inr hmem

/-- A new form is staged, and what it leaves to resolve is queued. -/
theorem Complete.addForm (hs : e.Complete s queue) (m : MethodRef) (f : Form) (handled : Bool) :
    e.Complete (s.addForm m f handled) (queue ++ e.pendingOf s f) where
  own := hs.own
  depends := hs.depends
  refers m' entry hentry r hr := by
    cases Table.mem_entries_set hentry with
    | inl heq =>
        obtain ⟨rfl, rfl⟩ := Prod.mk.inj heq
        obtain hsettled | hpending := isSettled_or_mem_pendingOf hr
        · exact Or.inl (isSettled_addForm _ _ _ hsettled)
        · exact Or.inr (List.mem_append_right _ hpending)
    | inr hold =>
        obtain hsettled | hmem := hs.refers m' entry hold r hr
        · exact Or.inl (isSettled_addForm _ _ _ hsettled)
        · exact Or.inr (List.mem_append_left _ hmem)

/-- A whole work-list leaves nothing to resolve. -/
theorem Complete.drains (hfaithful : ∀ h ∈ types, h.Faithful) {queue seen : List PendingRef}
    (h : e.Drains types methods queue seen s out) (hs : e.Complete s queue)
    (hseen : ∀ r ∈ seen, e.IsSettled s r) : e.Complete out [] := by
  induction h with
  | done _ _ => exact hs
  | skip hmem _ ih => exact ih (hs.settle (hseen _ hmem)) hseen
  | type h rest ih =>
      have ht : e.IsSettled _ (.type _) := h.hasType_of_mem List.mem_cons_self
      have hmid := hs.extends hfaithful h.extends
        (h.dependsWithin (hs.depends.mono (List.nil_subset _)))
      refine ih (hmid.settle ht) ?_
      rw [List.forall_mem_cons]
      exact ⟨ht, fun r hr => h.extends.isSettled (hseen r hr)⟩
  | stored h _ ih =>
      refine ih (hs.settle (Or.inl h)) ?_
      rw [List.forall_mem_cons]
      exact ⟨Or.inl h, hseen⟩
  | @method m queue seen s mid out f handled h _ ih =>
      have hmid := (hs.extends hfaithful h.extends (h.dependsWithin hs.depends)).addForm m f handled
      have hm : e.IsSettled (mid.addForm m f handled) (.method m) := isSettled_addForm_self _ _ _ _
      refine ih (hmid.settle hm) ?_
      rw [List.forall_mem_cons]
      exact ⟨hm, fun r hr => isSettled_addForm _ _ _ (h.extends.isSettled (hseen r hr))⟩

/-! ## requests -/

/-- A request whose handlers answer for a type only with a sentence of that type. Nothing is asked
of its handlers for methods. -/
def Request.Faithful : Request → Prop
  | .type _ => True
  | .method _ types _ => ∀ h ∈ types, h.Faithful

theorem complete_of_serves {q : Request} (hq : q.Faithful) (h : e.Serves q s) :
    e.Complete s [] := by
  cases h with
  | type h =>
      have hdepends := h.dependsWithin ((e.complete_empty []).depends.mono (List.nil_subset _))
      exact (e.complete_empty []).extends (by simp) h.extends hdepends
  | method h => exact (e.complete_empty _).drains hq h (by simp)

theorem Closed.commit (he : e.Closed) (hs : e.Complete s []) : (s.commit e).Closed := by
  have hkeepTypes : ∀ t, e.types.contains t = true → (s.commit e).types.contains t = true :=
    fun t ht => contains_commit_types hs.own (by simp [Staging.hasType, ht])
  have hkeepForms : ∀ m, e.forms.contains m = true → (s.commit e).forms.contains m = true := by
    intro m hm
    obtain ⟨f, hf⟩ := Option.isSome_iff_exists.1 hm
    exact Option.isSome_iff_exists.2 ⟨f, find?_commit_forms_of_some s hf⟩
  have hsettled : ∀ m entry, (m, entry) ∈ s.forms.entries → ∀ r ∈ entry.1.references,
      e.IsSettled s r := by
    intro m entry hentry r hr
    exact (hs.refers m entry hentry r hr).resolve_right (by simp)
  refine ⟨?_, ?_, ?_⟩
  · intro t x hx d hd
    obtain hold | ⟨u, entry, hmem, rfl, -⟩ := find?_types_of_commit hx
    · exact hkeepTypes d (he.dependencies t x hold d hd)
    · have hknown := (hs.depends u entry hmem d hd).resolve_right (by simp)
      exact contains_commit_types hs.own hknown
  · intro m f hf t ht
    obtain hold | ⟨handled, hmem⟩ := find?_forms_of_commit hf
    · exact hkeepTypes t (he.types m f hold t ht)
    · have href : .type t ∈ f.references := List.mem_append_left _ (List.mem_map_of_mem ht)
      exact contains_commit_types hs.own (hsettled m _ hmem _ href)
  · intro m f hf callee hcallee
    obtain hold | ⟨handled, hmem⟩ := find?_forms_of_commit hf
    · exact hkeepForms callee (he.methods m f hold callee hcallee)
    · have href : .method callee ∈ f.references :=
        List.mem_append_right _ (List.mem_map_of_mem hcallee)
      cases hsettled m _ hmem _ href with
      | inl hstored => exact hkeepForms callee hstored
      | inr hstaged => exact contains_commit_forms s hstaged

/-- One request, whichever way it ends, keeps the repositories closed. -/
theorem Closed.perform (he : e.Closed) {q : Request} (hq : q.Faithful) :
    (e.perform q).2.Closed := by
  obtain ⟨-, heq⟩ | ⟨r, -, ⟨err, heq⟩ | ⟨s, hs, heq⟩⟩ := e.perform_cases q
  · rwa [heq]
  · rw [heq]
    exact ⟨he.dependencies, he.types, he.methods⟩
  · have hcomplete := complete_of_serves hq hs
    have hleft : Engine.Closed { e with handlers := r } := ⟨he.dependencies, he.types, he.methods⟩
    rw [heq]
    exact hleft.commit ⟨hcomplete.own, hcomplete.depends, hcomplete.refers⟩

theorem closed_new (p : Program) (o : Options) : (Engine.new p o).Closed where
  dependencies t x h := by simp [Engine.new, TypeRepository.empty, TypeRepository.find?] at h
  types m f h := by simp [Engine.new, FormRepository.empty, FormRepository.find?] at h
  methods m f h := by simp [Engine.new, FormRepository.empty, FormRepository.find?] at h

/-- **Nothing is missing**: after any requests, successful or not, what stored sentences depend on
and stored forms refer to is stored. -/
theorem closed_performAll (p : Program) (o : Options) (requests : List Request)
    (h : ∀ q ∈ requests, q.Faithful) : ((Engine.new p o).performAll requests).Closed :=
  performAll_induction (P := Closed) (fun q hq _ he => he.perform (h q hq)) (closed_new p o)

end Engine

/-- A handler that encodes the types of another program is faithful. -/
theorem TypeHandler.encode_of_external {p : Program} {exceptionBase : Option TypeRef} {t : TypeRef}
    {s : Sentence} (h : (TypeHandler.external p).answer exceptionBase t = .ok (some s)) :
    Sentence.encode exceptionBase p t = .ok s := by
  unfold TypeHandler.external at h
  simp only at h
  split at h
  · split at h
    · next x hx => rw [hx, Option.some.inj (Except.ok.inj h)]
    · contradiction
  · exact absurd (Except.ok.inj h) (by simp)

theorem TypeHandler.faithful_external (p : Program) : (TypeHandler.external p).Faithful :=
  fun _ _ _ h => Sentence.type_of_encode (encode_of_external h)

/-! ## a sample -/

namespace Sample

/-- A type that refers to itself. -/
def node : TypeRef := .named "Sample" "Node" []

/-- Type of another program. -/
def stamp : TypeRef := .named "Vendor" "Stamp" []

/-- Another program, which knows the type of stamps. -/
def vendor : Program :=
  Program.empty.addType
    { type := stamp, base := none, fields := [⟨"time", .int32, false⟩], isValueType := true }

/-- Its constructor. -/
def initNode : MethodRef := .member node ".ctor" [] .void

/-- Returns a new node. -/
def grow : MethodRef := .static node "Grow" [] node

/-- The program, without the type of stamps. -/
def linked : Program :=
  ((Program.empty.addType
      { type := node
        base := none
        fields := [⟨"next", node, false⟩, ⟨"stamps", .array stamp, false⟩]
        isValueType := false }).addMethod
      { method := initNode
        blocks :=
          [{ index := 0, instructions := [⟨0, .ret, none, []⟩], successors := [] }] }).addMethod
    { method := grow
      blocks := [
        { index := 0
          instructions := [⟨0, .newObject initNode, some ⟨.localVar 0, node⟩, []⟩,
            ⟨1, .ret, none, [⟨.localVar 0, node⟩]⟩]
          successors := [] }] }

/-- The first request fails, as `stamp` is not known without the other program. -/
def session : List Engine.Request :=
  [.method grow [] [], .method grow [.external vendor] [.pass], .type (.array node)]

theorem closed_session : (∀ q ∈ session, q.Faithful) ∧
    ((Engine.new linked {}).performAll session).Closed ∧
    ((Engine.new linked {}).performAll session).types.contains stamp = true ∧
    ((Engine.new linked {}).performAll session).forms.contains initNode = true := by
  have hsession : ∀ q ∈ session, q.Faithful := by
    intro q hq
    simp only [session, List.mem_cons, List.not_mem_nil, or_false] at hq
    obtain rfl | rfl | rfl := hq
    · exact fun h hh => by contradiction
    · intro h hh
      rw [List.mem_singleton.1 hh]
      exact TypeHandler.faithful_external vendor
    · trivial
  exact ⟨hsession, Engine.closed_performAll linked {} session hsession, by decide +kernel,
    by decide +kernel⟩

end Sample

end Pathwise
