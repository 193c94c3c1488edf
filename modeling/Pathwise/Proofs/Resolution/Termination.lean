import Pathwise.Proofs.Resolution.Work

/-!
# Pathwise.Proofs.Resolution.Termination

Requests come to an end. Whatever part of a request the engine goes through with its
fuel, the machine of `Pathwise.Proofs.Resolution.Work` goes through in finitely many
turns, and with the same result (`Work.Leads`). The fuel is enough for that because it
counts references that can come up at all: for types that is known from
`Pathwise.Proofs.Resolution.Budget`, for pending references it is `Program.pendingReach`.

With the invariant of the machine this says what a request builds
(`Engine.perform_builds_once`).
-/

namespace Pathwise

open Relation (ReflTransGen)

namespace Work

variable {e : Engine} {w w' : Work} {α β : Type}

/-- The machine gets from one state to another. -/
def Turns (e : Engine) : Work → Work → Prop := ReflTransGen fun w w' => w.turn e = some w'

/-- In finitely many turns the machine gets where a computation ends: to a state that is right for
its value, or to its failure. -/
inductive Leads (e : Engine) (w : Work) (P : α → Work → Prop) :
    Except ResolutionError α → Prop where
  | ok {a : α} {w' : Work} (h : Turns e w w') (hp : P a w') : Leads e w P (.ok a)
  | error {err : ResolutionError} {w' : Work} (h : Turns e w w')
      (hfailure : w'.failure = some err) : Leads e w P (.error err)

variable {P : α → Work → Prop} {Q : β → Work → Prop} {x : Except ResolutionError α}

theorem Leads.after (h : Turns e w w') (hx : Leads e w' P x) : Leads e w P x := by
  cases hx with
  | ok h' hp => exact .ok (h.trans h') hp
  | error h' hfailure => exact .error (h.trans h') hfailure

theorem Leads.turn (h : w.turn e = some w') (hx : Leads e w' P x) : Leads e w P x :=
  hx.after (.single h)

theorem Leads.imp {P' : α → Work → Prop} (hx : Leads e w P x)
    (himp : ∀ a w', P a w' → P' a w') : Leads e w P' x := by
  cases hx with
  | ok h hp => exact .ok h (himp _ _ hp)
  | error h hfailure => exact .error h hfailure

theorem Leads.bind {f : α → Except ResolutionError β} (hx : Leads e w P x)
    (hf : ∀ a w', P a w' → Leads e w' Q (f a)) : Leads e w Q (x >>= f) := by
  cases hx with
  | ok h hp => exact (hf _ _ hp).after h
  | error h hfailure => exact .error h hfailure

theorem exists_after_of_turns (h : Turns e w w') : ∃ n, after e n w = w' := by
  induction h using ReflTransGen.head_induction_on with
  | refl => exact ⟨0, rfl⟩
  | head hturn _ ih =>
      obtain ⟨n, hn⟩ := ih
      refine ⟨n + 1, ?_⟩
      rw [after, hturn, Option.map_some, Option.getD_some, hn]

/-! ## types -/

section

variable (hw : w.failure = none)
include hw

theorem turn_cons (t : TypeRef) (rest : List TypeRef) :
    turn e { w with types := t :: rest } = some (w.stage e t rest) :=
  turn_of_types (w := { w with types := t :: rest }) hw rfl

theorem turns_skipTypes (queue : List TypeRef) :
    Turns e { w with types := queue }
      { w with types := queue.dropWhile (w.staging.hasType e) } := by
  induction queue with
  | nil => exact .refl
  | cons t queue ih =>
      cases ht : w.staging.hasType e t with
      | false =>
          rw [List.dropWhile_cons_of_neg (by simp [ht])]
          exact .refl
      | true =>
          rw [List.dropWhile_cons_of_pos ht]
          refine .head ?_ ih
          rw [turn_cons hw, stage_of_known ht]

end

/-- Only the staging and the notes are different after types were staged. -/
def Restaged (w : Work) (out : Staging) (w' : Work) : Prop :=
  ∃ built, w' = { w with types := [], staging := out, built }

theorem leads_stageTypes {nodes : List TypeRef}
    (hnodes : ∀ t ∈ nodes, ∀ more, e.program.dependencies e.options t = .ok more → more ⊆ nodes)
    {fuel : Nat} {queue : List TypeRef} (hw : w.failure = none) (hqueue : queue ⊆ nodes)
    (hfuel : unknownAmong nodes (w.staging.hasType e) ≤ fuel) :
    Leads e { w with types := queue } (Restaged w) (e.stageTypes [] fuel queue w.staging) := by
  induction fuel generalizing queue w with
  | zero =>
      refine .after (turns_skipTypes hw queue) ?_
      unfold Engine.stageTypes
      cases hdrop : queue.dropWhile (w.staging.hasType e) with
      | nil => exact .ok .refl ⟨w.built, rfl⟩
      | cons t rest =>
          -- without fuel all types that can come up have a sentence, but `t` has none
          obtain ⟨hnew, hsub⟩ := unskipped_of_dropWhile hdrop
          have hlt := unknownAmong_mark_lt (hqueue (hsub List.mem_cons_self)) hnew
          omega
  | succ fuel ih =>
      refine .after (turns_skipTypes hw queue) ?_
      unfold Engine.stageTypes
      cases hdrop : queue.dropWhile (w.staging.hasType e) with
      | nil => exact .ok .refl ⟨w.built, rfl⟩
      | cons t rest =>
          obtain ⟨hnew, hsub⟩ := unskipped_of_dropWhile hdrop
          have ht : t ∈ nodes := hqueue (hsub List.mem_cons_self)
          have hrest : rest ⊆ nodes := fun u hu => hqueue (hsub (List.mem_cons_of_mem t hu))
          refine .turn (turn_cons hw t rest) ?_
          cases hx : e.constructSentence [] t with
          | error err =>
              rw [stage_of_error hnew hx]
              simp only [hx, bind, Except.bind]
              exact .error .refl rfl
          | ok x =>
              have hdeps : e.program.dependencies e.options t = .ok x.1.dependencies :=
                congrArg (Except.map _) hx
              have hlt := unknownAmong_mark_lt ht hnew
              rw [← Engine.hasType_addSentence_eq_mark w.staging t x.1 x.2] at hlt
              rw [stage_of_ok hnew hx]
              simp only [hx, bind, Except.bind]
              exact ih (w := { w with
                  built := .type t :: w.built, staging := w.staging.addSentence t x.1 x.2 })
                hw (List.append_subset.2 ⟨hrest, hnodes t ht _ hdeps⟩)
                (Nat.le_of_lt_succ (Nat.lt_of_lt_of_le hlt hfuel))

section

variable (hw : w.failure = none)
include hw

theorem leads_stageType (t : TypeRef) :
    Leads e { w with types := [t] } (Restaged w) (e.stageType [] w.staging t) := by
  refine leads_stageTypes
    (fun u hu more hmore => Program.dependencies_subset (t := t) hu hmore) hw ?_ ?_
  · intro u hu
    rw [List.mem_singleton.1 hu]
    exact List.mem_append_left _ t.mem_chain_self
  · refine (unknownAmong_le_length _ _).trans ?_
    simp [Engine.typeBudget]

theorem leads_mentioned (m : MethodRef) (graph : MethodGraph) (mentioned : List TypeRef) :
    Leads e { w with types := [], encoding := some ⟨m, graph, mentioned⟩ }
      (Restaged { w with encoding := some ⟨m, graph, []⟩ })
      (mentioned.foldlM (e.stageType []) w.staging) := by
  induction mentioned generalizing w with
  | nil => exact .ok .refl ⟨w.built, rfl⟩
  | cons t mentioned ih =>
      rw [List.foldlM_cons]
      refine .turn (turn_of_encoding
        (w := { w with types := [], encoding := some ⟨m, graph, t :: mentioned⟩ }) hw rfl rfl) ?_
      refine (leads_stageType (w := { w with encoding := some ⟨m, graph, mentioned⟩ }) hw t).bind ?_
      rintro out w' ⟨built, rfl⟩
      exact ih (w := { w with staging := out, built }) hw

end

/-! ## pending references -/

theorem turns_skipSeen (hw : w.failure = none) (queue : List PendingRef) :
    Turns e { w with types := [], encoding := none, queue }
      { w with types := [], encoding := none, queue := queue.dropWhile (· ∈ w.seen) } := by
  induction queue with
  | nil => exact .refl
  | cons next queue ih =>
      by_cases hseen : next ∈ w.seen
      · rw [List.dropWhile_cons_of_pos (by simp [hseen])]
        refine .head ?_ ih
        rw [turn_of_queue (w := { w with types := [], encoding := none, queue := next :: queue })
          hw rfl rfl rfl, take, if_pos hseen]
      · rw [List.dropWhile_cons_of_neg (by simp [hseen])]
        exact .refl

/-- After a pending reference was resolved. -/
def Advanced (w : Work) (rest : List PendingRef) (x : Staging × List PendingRef) (w' : Work) :
    Prop :=
  ∃ built, w' = { w with
    types := [], encoding := none, queue := rest ++ x.2, staging := x.1, built }

section

variable {scope : EngineScope} (htypes : scope.typeHandlers = [])
  (hmethods : scope.methodHandlers = []) (hw : w.failure = none)
include htypes hmethods hw

/-- Encoding a method that is neither stored nor left out. -/
theorem leads_encode {m : MethodRef} {graph : MethodGraph}
    (hleft : e.options.leavesOut m = false) (hgraph : e.program.methodGraph? m = some graph)
    (rest : List PendingRef) :
    Leads e { w with types := [], encoding := some ⟨m, graph, graph.mentionedTypes⟩, queue := rest }
      (Advanced w rest) (do
        let (form, handled, s) ← e.constructForm scope w.staging m
        return (s.addForm m form handled, e.pendingOf s form)) := by
  rw [Engine.constructForm_of_graph htypes hmethods hleft hgraph, bind_assoc]
  refine (leads_mentioned (w := { w with queue := rest }) hw m graph graph.mentionedTypes).bind ?_
  rintro out w' ⟨built, rfl⟩
  refine .turn (turn_of_encoding (c := ⟨m, graph, []⟩)
    (w := { w with types := [], encoding := _, queue := rest, staging := out, built })
    hw rfl rfl) ?_
  unfold Work.encode
  simp only
  cases Form.ofGraph (out.lookup e) graph with
  | error err => exact .error .refl rfl
  | ok f => exact .ok .refl ⟨_, rfl⟩

theorem leads_construct {m : MethodRef} (hstored : e.forms.contains m = false)
    (rest : List PendingRef) :
    Leads e (begin e { w with types := [], encoding := none, queue := rest } (.method m))
      (Advanced w rest) (do
        let (form, handled, s) ← e.constructForm scope w.staging m
        return (s.addForm m form handled, e.pendingOf s form)) := by
  unfold Work.begin
  simp only [hstored, Bool.false_eq_true, if_false]
  cases hleft : e.options.leavesOut m with
  | true =>
      rw [Engine.constructForm_of_leavesOut hmethods hleft]
      exact .ok .refl ⟨_, rfl⟩
  | false =>
      cases hgraph : e.program.methodGraph? m with
      | none =>
          rw [Engine.constructForm_of_none hmethods hleft hgraph]
          exact .error .refl rfl
      | some graph => exact leads_encode htypes hmethods hw hleft hgraph rest

theorem leads_begin (rest : List PendingRef) (r : Registry) (next : PendingRef) :
    Leads e (begin e { w with types := [], encoding := none, queue := rest } next)
      (Advanced w rest) (e.step scope w.staging r next).1 := by
  cases next with
  | type t =>
      unfold Engine.step
      rw [htypes]
      refine (leads_stageType (w := { w with encoding := none, queue := rest }) hw t).bind ?_
      rintro out w' ⟨built, rfl⟩
      exact .ok .refl ⟨built, by rw [List.append_nil]⟩
  | method m =>
      unfold Engine.step
      simp only
      cases hstored : e.forms.contains m with
      | true =>
          rw [Work.begin, if_pos hstored]
          exact .ok .refl ⟨w.built, by rw [List.append_nil]⟩
      | false =>
          -- the method is encoded in a scope of its own, which has no handlers either
          refine leads_construct ?_ ?_ hw hstored rest
          · exact htypes
          · exact hmethods

end

end Work

/-! ## references that can come up -/

/-- The references that forms of a program can leave to resolve. -/
def Program.pendingReach (p : Program) : List PendingRef :=
  p.methodReach.map .method ++ p.mentionReach.map .type

namespace Engine

variable {e : Engine} {s out : Staging} {m : MethodRef} {f : Form}

theorem pendingOf_subset (htypes : f.referencedTypes ⊆ e.program.mentionReach)
    (hmethods : f.referencedMethods ⊆ e.program.methodReach) :
    e.pendingOf s f ⊆ e.program.pendingReach := by
  intro r hr
  rw [Program.pendingReach, List.mem_append]
  cases List.mem_append.1 hr with
  | inl hr =>
      obtain ⟨t, ht, rfl⟩ := List.mem_map.1 hr
      exact Or.inr (List.mem_map_of_mem (htypes (List.mem_filter.1 ht).1))
  | inr hr =>
      obtain ⟨callee, hcallee, rfl⟩ := List.mem_map.1 hr
      exact Or.inl (List.mem_map_of_mem (hmethods (List.mem_filter.1 hcallee).1))

theorem Constructs.pendingOf_subset {types : List TypeHandler} {handled : Bool}
    (h : e.Constructs types [] m s f handled out) :
    e.pendingOf out f ⊆ e.program.pendingReach := by
  cases h with
  | handled h => simp [ask] at h
  | leftOut _ => exact List.nil_subset _
  | @encoded g f out hg _ hf =>
      have hmem : g ∈ e.program.methods.values :=
        List.mem_map.2 ⟨(m, g), Table.mem_entries_of_find? hg, rfl⟩
      refine Engine.pendingOf_subset (fun t ht => ?_) fun callee hcallee => ?_
      · exact List.mem_flatMap.2 ⟨g, hmem,
          List.mem_flatMap.2 ⟨t, Form.referencedTypes_subset hf ht, t.mem_chain_self⟩⟩
      · exact Program.mem_methodReach.2 ⟨g, hmem, Form.referencedMethods_subset hf hcallee⟩

/-- A step adds to the work-list only what can come up. -/
theorem subset_pendingReach_of_step {scope : EngineScope} (hmethods : scope.methodHandlers = [])
    {r : Registry} {next : PendingRef} {more : List PendingRef}
    (h : (e.step scope s r next).1 = .ok (out, more)) : more ⊆ e.program.pendingReach := by
  cases next with
  | type t =>
      obtain ⟨mid, -, h⟩ := bind_eq_ok.1 h
      obtain ⟨-, rfl⟩ := Prod.mk.inj (pure_eq_ok.1 h)
      exact List.nil_subset _
  | method m =>
      unfold step at h
      simp only at h
      split at h
      · obtain ⟨-, rfl⟩ := Prod.mk.inj (Except.ok.inj h)
        exact List.nil_subset _
      · obtain ⟨⟨f, handled, mid⟩, hf, h⟩ := bind_eq_ok.1 h
        obtain ⟨-, rfl⟩ := Prod.mk.inj (pure_eq_ok.1 h)
        have hconstructs := constructs_of_constructForm hf
        have hnest : (r.nest scope [] []).1.methodHandlers = [] := hmethods
        rw [hnest] at hconstructs
        exact hconstructs.pendingOf_subset

end Engine

namespace Work

variable {e : Engine} {w : Work}

/-- The work came to its end without a failure. -/
structure Finished (out : Staging) (w : Work) : Prop where
  isDone : w.IsDone
  failure : w.failure = none
  staging : w.staging = out

theorem unknownAmong_seen_lt {nodes seen : List PendingRef} {next : PendingRef}
    (hmem : next ∈ nodes) (hnew : decide (next ∈ seen) = false) :
    unknownAmong nodes (fun r => decide (r ∈ next :: seen)) <
      unknownAmong nodes fun r => decide (r ∈ seen) := by
  have hmark : (fun r => decide (r ∈ next :: seen)) = mark (fun r => decide (r ∈ seen)) next := by
    funext r
    simp [mark, @eq_comm _ next]
  rw [hmark]
  exact unknownAmong_mark_lt hmem hnew

theorem leads_drain {scope : EngineScope} (htypes : scope.typeHandlers = [])
    (hmethods : scope.methodHandlers = []) {nodes : List PendingRef}
    (hnodes : e.program.pendingReach ⊆ nodes) {fuel : Nat} {queue : List PendingRef}
    (r : Registry) (hw : w.failure = none) (hqueue : queue ⊆ nodes)
    (hfuel : unknownAmong nodes (fun ref => decide (ref ∈ w.seen)) ≤ fuel) :
    Leads e { w with types := [], encoding := none, queue } Finished
      (e.drain scope fuel queue w.seen w.staging r).1 := by
  induction fuel generalizing queue w r with
  | zero =>
      refine .after (turns_skipSeen hw queue) ?_
      unfold Engine.drain
      cases hdrop : queue.dropWhile fun ref => decide (ref ∈ w.seen) with
      | nil => exact .ok .refl ⟨⟨rfl, rfl, rfl⟩, hw, rfl⟩
      | cons next rest =>
          -- without fuel all references that can come up are seen, but `next` is not
          obtain ⟨hnew, hsub⟩ := unskipped_of_dropWhile hdrop
          have hlt := unknownAmong_seen_lt (hqueue (hsub List.mem_cons_self)) hnew
          omega
  | succ fuel ih =>
      refine .after (turns_skipSeen hw queue) ?_
      unfold Engine.drain
      cases hdrop : queue.dropWhile fun ref => decide (ref ∈ w.seen) with
      | nil => exact .ok .refl ⟨⟨rfl, rfl, rfl⟩, hw, rfl⟩
      | cons next rest =>
          obtain ⟨hnew, hsub⟩ := unskipped_of_dropWhile hdrop
          have hrest : rest ⊆ nodes := fun ref h => hqueue (hsub (List.mem_cons_of_mem next h))
          refine .turn (turn_of_queue
            (w := { w with types := [], encoding := none, queue := next :: rest })
            hw rfl rfl rfl) ?_
          rw [take, if_neg (by simpa using hnew)]
          have hstep := leads_begin (w := { w with seen := next :: w.seen }) (e := e)
            htypes hmethods hw rest r next
          rcases hresult : e.step scope w.staging r next with ⟨err | ⟨mid, more⟩, r'⟩
          · simp only [hresult] at hstep ⊢
            cases hstep with
            | error h hfailure => exact .error h hfailure
          · have hreach := Engine.subset_pendingReach_of_step hmethods (by rw [hresult])
            have hmore : more ⊆ nodes := List.Subset.trans hreach hnodes
            -- one more reference is seen, which pays for the unit of fuel
            have hlt := unknownAmong_seen_lt (hqueue (hsub List.mem_cons_self)) hnew
            simp only [hresult] at hstep ⊢
            cases hstep with
            | ok h hp =>
                obtain ⟨built, rfl⟩ := hp
                refine .after h (ih (w := { w with seen := next :: w.seen, staging := mid, built })
                  r' hw (List.append_subset.2 ⟨hrest, hmore⟩) ?_)
                exact Nat.le_of_lt_succ (Nat.lt_of_lt_of_le hlt hfuel)

end Work

/-! ## whole requests -/

namespace Engine

variable {e : Engine} {q : Request}

/-- How a request ends, given how its work-list does. -/
inductive Concludes {α : Type} (e : Engine) :
    Except ResolutionError Staging → Except ResolutionError α × Engine → Prop where
  | error (err : ResolutionError) (r : Registry) :
      Concludes e (.error err) (.error err, { e with handlers := r })
  | ok (s : Staging) (a : α) (r : Registry) :
      Concludes e (.ok s) (.ok a, s.commit { e with handlers := r })

theorem Concludes.map {α β : Type} {x : Except ResolutionError Staging}
    {result : Except ResolutionError α × Engine} (h : e.Concludes x result) (f : α → β) :
    e.Concludes x (result.1.map f, result.2) := by
  cases h with
  | error err r => exact .error err r
  | ok s a r => exact .ok s (f a) r

theorem concludes_resolveType (e : Engine) (t : TypeRef) :
    e.Concludes (e.stageType [] .empty t) (e.resolveType t) := by
  unfold resolveType
  cases hfind : e.types.find? t with
  | some x =>
      have hstored : e.types.contains t = true := Option.isSome_iff_exists.2 ⟨x, hfind⟩
      have hknown : Staging.empty.hasType e t = true := by
        rw [Staging.hasType, hstored, Bool.or_true]
      have hstage : e.stageType [] .empty t = .ok .empty := by
        unfold stageType stageTypes
        rw [List.dropWhile_cons_of_pos hknown, List.dropWhile_nil]
      rw [hstage]
      exact .ok .empty _ e.handlers
  | none =>
      have hhandlers : (e.handlers.enter ([] : List TypeHandler)
        ([] : List MethodHandler)).1.typeHandlers = [] := rfl
      simp only [hhandlers]
      cases hstage : e.stageType [] .empty t with
      | error err => exact .error err _
      | ok s =>
          obtain ⟨x, hx⟩ := exists_find?_commit_of_stages (stages_of_stageTypes hstage)
          simp only
          split
          · next hnone => exact absurd (hx.symm.trans hnone) (by simp)
          · exact .ok s _ _
          · exact .ok s _ _

theorem drain_of_stored {m : MethodRef} (h : e.forms.contains m = true) (scope : EngineScope)
    (fuel : Nat) (s : Staging) (r : Registry) :
    (e.drain scope (fuel + 1) [.method m] [] s r).1 = .ok s := by
  have hdrop : [PendingRef.method m].dropWhile (fun ref => decide (ref ∈ [])) = [.method m] := rfl
  unfold drain
  simp only [hdrop, step, h, if_true]
  unfold drain
  rfl

theorem concludes_resolveMethod (e : Engine) (m : MethodRef) : ∃ scope r,
    scope.typeHandlers = [] ∧ scope.methodHandlers = [] ∧
    e.Concludes (e.drain scope (e.methodBudget [] []) [.method m] [] .empty r).1
      (e.resolveMethod m [] []) := by
  refine ⟨(e.handlers.enter [] []).1, (e.handlers.enter ([] : List TypeHandler)
    ([] : List MethodHandler)).2, rfl, rfl, ?_⟩
  unfold resolveMethod
  cases hfind : e.forms.find? m with
  | some f =>
      have hstored : e.forms.contains m = true := Option.isSome_iff_exists.2 ⟨f, hfind⟩
      obtain ⟨fuel, hfuel⟩ : ∃ fuel, e.methodBudget [] [] = fuel + 1 :=
        Nat.exists_eq_add_one.2 (by rw [methodBudget]; omega)
      rw [hfuel, drain_of_stored hstored]
      exact .ok .empty _ e.handlers
  | none =>
      simp only
      rcases hdrain : e.drain (e.handlers.enter [] []).1 (e.methodBudget [] []) [.method m] []
        .empty (e.handlers.enter ([] : List TypeHandler) ([] : List MethodHandler)).2 with
        ⟨err | s, r⟩
      · exact .error err _
      · obtain ⟨f, hf⟩ := exists_find?_commit_of_drains (drains_of_drain hdrain)
        simp only
        split
        · next hnone => exact absurd (hf.symm.trans hnone) (by simp)
        · exact .ok s _ _
        · exact .ok s _ _
        · exact .ok s _ _

theorem leads_perform (e : Engine) (hq : q.IsUnaided) :
    ∃ x, e.Concludes x (e.perform q) ∧ Work.Leads e (.start q) Work.Finished x := by
  cases q with
  | type t =>
      refine ⟨_, (e.concludes_resolveType t).map _, ?_⟩
      refine (Work.leads_stageType (w := .start (.type t)) rfl t).imp ?_
      rintro out w ⟨built, rfl⟩
      exact ⟨⟨rfl, rfl, rfl⟩, rfl, rfl⟩
  | method m types methods =>
      obtain ⟨rfl, rfl⟩ := hq
      obtain ⟨scope, r, htypes, hmethods, hconcludes⟩ := e.concludes_resolveMethod m
      refine ⟨_, hconcludes.map _, ?_⟩
      refine Work.leads_drain (w := .start (.method m [] [])) htypes hmethods
        (List.subset_cons_self (.method m) e.program.pendingReach) r rfl (by simp) ?_
      refine (unknownAmong_le_length _ _).trans ?_
      simp only [List.length_cons, Program.pendingReach, List.length_append, List.length_map,
        methodBudget]
      omega

theorem stores_commit_iff {s : Staging} (hs : OwnTypes s) (r : Registry) (a : PendingRef) :
    (s.commit { e with handlers := r }).Stores a ↔ e.IsSettled s a := by
  cases a with
  | type t =>
      rw [Stores, hs.contains_commit_types_eq]
      rfl
  | method m =>
      rw [Stores, contains_commit_forms_eq, Staging.hasForm, Bool.or_eq_true, or_comm]
      rfl

/-- **A request ends and builds nothing twice.** Whatever is stored already, and whatever cycles the
program has: at no time has a request without handlers set out to build a sentence or form twice,
or one that is stored. After finitely many turns there is no other. Then the request has ended as
the work did. If there was no failure, nothing is left in the work-lists and what is staged is
stored: to what was there the request adds just what it has built. -/
theorem perform_builds_once (e : Engine) (hq : q.IsUnaided) :
    (∀ n, (Work.after e n (.start q)).built.Nodup ∧
      ∀ r ∈ (Work.after e n (.start q)).built, ¬e.Stores r) ∧
    ∃ n, let w := Work.after e n (.start q)
      w.turn e = none ∧ (e.perform q).1 = w.outcome ∧
      (w.failure = none → w.IsDone ∧
        (e.perform q).2 = w.staging.commit { e with handlers := (e.perform q).2.handlers }) ∧
      ∀ r, (e.perform q).2.Stores r ↔ e.Stores r ∨ w.failure = none ∧ r ∈ w.built := by
  have honce : ∀ n, Work.Once e (.after e n (.start q)) := fun n => (Work.once_start e q).after n
  refine ⟨fun n => ⟨(honce n).nodup, (honce n).unstored⟩, ?_⟩
  obtain ⟨x, hconcludes, hleads⟩ := e.leads_perform hq
  cases hleads with
  | error h hfailure =>
      obtain ⟨n, rfl⟩ := Work.exists_after_of_turns h
      refine ⟨n, Work.turn_of_failure hfailure, ?_⟩
      generalize e.perform q = result at hconcludes ⊢
      cases hconcludes with
      | error err r =>
          refine ⟨by rw [Work.outcome, hfailure], ?_, fun a => ?_⟩
          · rw [hfailure]
            exact fun hnone => by contradiction
          · simp only [hfailure, reduceCtorEq, false_and, or_false]
            cases a <;> rfl
  | ok h hfinished =>
      obtain ⟨n, rfl⟩ := Work.exists_after_of_turns h
      obtain ⟨hdone, hfailure, rfl⟩ := hfinished
      refine ⟨n, hdone.turn, ?_⟩
      generalize e.perform q = result at hconcludes ⊢
      cases hconcludes with
      | ok s a r =>
          refine ⟨by rw [Work.outcome, hfailure], fun _ => ⟨hdone, rfl⟩, fun a => ?_⟩
          rw [stores_commit_iff (honce n).ownTypes, (honce n).settled hfailure]
          simp only [hfailure, true_and]

end Engine

namespace Sample

def trunk : TypeRef := .named "Sample" "Trunk" []

def twig : TypeRef := .named "Sample" "Twig" []

/-- A method that calls `fall`. -/
def climb : MethodRef := .static trunk "Climb" [twig] .void

/-- A method that calls `climb`. -/
def fall : MethodRef := .static twig "Fall" [twig] .void

/-- A method that hands its argument on to another one. -/
def passing (m callee : MethodRef) : MethodGraph :=
  { method := m
    blocks := [
      { index := 0
        instructions := [⟨0, .call callee false, none, [⟨.parameter 0, twig⟩]⟩, ⟨1, .ret, none, []⟩]
        successors := [] }] }

/-- A trunk has twigs, and a twig is a trunk with a table of trunks. -/
def tangled : Program :=
  (((Program.empty.addType
      { type := trunk
        base := none
        fields := [⟨"twigs", .array twig, false⟩, ⟨"parent", trunk, false⟩]
        isValueType := false }).addType
      { type := twig
        base := some trunk
        fields := [⟨"table", .array (.array trunk), false⟩]
        isValueType := false }).addMethod (passing climb fall)).addMethod (passing fall climb)

/-- Objects are stored with the strings. -/
def tangledEngine : Engine :=
  (Engine.new tangled {}).performAll [.type .string, .type (.array .string)]

/-- The work that is left after some steps. -/
def tangledWork (n : Nat) : Work := .after tangledEngine n (.start (.method climb [] []))

theorem builds_once_climb : (Engine.Request.method climb [] []).IsUnaided ∧
    tangledEngine.Stores (.type .object) ∧
    ∃ n, (tangledWork n).IsDone ∧ (tangledWork n).built.Nodup ∧
      .type .object ∉ (tangledWork n).built ∧ .method fall ∈ (tangledWork n).built := by
  have hq : (Engine.Request.method climb [] []).IsUnaided := ⟨rfl, rfl⟩
  have hobject : tangledEngine.Stores (.type .object) := rfl
  have hfall : (tangledEngine.perform (.method climb [] [])).2.Stores (.method fall) :=
    rfl
  have hnew : ¬tangledEngine.Stores (.method fall) := by
    change ¬tangledEngine.forms.contains fall = true
    decide
  obtain ⟨honce, n, -, -, hdone, hstores⟩ := tangledEngine.perform_builds_once hq
  obtain ⟨hfailure, hbuilt⟩ := ((hstores (.method fall)).1 hfall).resolve_left hnew
  exact ⟨hq, hobject, n, (hdone hfailure).1, (honce n).1, fun hmem => (honce n).2 _ hmem hobject,
    hbuilt⟩

end Sample

end Pathwise
