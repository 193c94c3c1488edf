import Pathwise.Proofs.Renumbering.Render

/-!
# Pathwise.Proofs.Renumbering.Cover

Answers depend on earlier runs only through numbers. Two runs of one method, in
contexts with any history, start as twins with one site each, and rendering keeps
them in step. Groups that differ on one side differ on the other, by assertions
that are no equations and so do not depend on pointers; hence repeats are left
out in step too (`Engine.corresponds_cover`).
-/

namespace Pathwise

open List (Forall₂)
open Relator (BiUnique)
open Run (Outcome)

/-! ## twins at the start -/

namespace Context

variable {c : Context}

theorem Lawful.rootSite (h : c.Lawful) (m : MethodRef) : (c.rootSite m).2.Lawful where
  settled := h.settled.of_eq (c.countsUp_rootSite m) rfl rfl
  sound := (Step.rootSite c m).sound h.sound
  flows := ⟨h.flows.stored, h.flows.injective⟩

theorem used_after (calls : List (Engine × MethodRef)) : (after calls).Used := by
  have hruns : ∀ c : Context, c.Used →
      (calls.foldl (fun c call => (call.1.cover call.2 c).2) c).Used := by
    induction calls with
    | nil => exact fun _ hc => hc
    | cons call calls ih => exact fun c hc => ih _ (call.1.used_cover call.2 hc)
  exact hruns empty .refl

/-- Between runs a context is lawful: there are no flows to account for. -/
theorem lawful_after (calls : List (Engine × MethodRef)) : (after calls).Lawful where
  settled := (idle_after calls).settled
  sound := (used_after calls).sound
  flows := by
    have hnone : ∀ k, (after calls).flows.find? k = none := by
      intro k
      simp [Table.find?, (idle_after calls).flowless]
    exact ⟨fun k f h => by simp [hnone] at h, fun k _ f _ h => by simp [hnone] at h⟩

end Context

/-- Two contexts in which a run of one method begins. -/
theorem Twins.exists_rootSite (e : Engine) {c d : Context} (hc : c.Lawful) (hd : d.Lawful)
    (m : MethodRef) : ∃ w : Twins e, w.left = (c.rootSite m).2 ∧ w.right = (d.rootSite m).2 ∧
      w.sites (c.rootSite m).1 (d.rootSite m).1 := by
  refine ⟨{
    sites := fun s t => s = (c.rootSite m).1 ∧ t = (d.rootSite m).1
    pointers := fun _ _ _ => False
    left := (c.rootSite m).2
    right := (d.rootSite m).2
    oneToOne := ⟨?_, ⟨?_, ?_⟩, ?_⟩
    lawful := ⟨hc.rootSite m, hd.rootSite m⟩
    issued := ?_
    counted := by simp
    calls := ?_
    allocations := ?_ }, rfl, rfl, rfl, rfl⟩
  · rintro s t ⟨rfl, rfl⟩
    rfl
  · rintro s s' t ⟨rfl, -⟩ ⟨rfl, -⟩
    rfl
  · rintro s t t' ⟨-, rfl⟩ ⟨-, rfl⟩
    rfl
  · exact fun type => ⟨fun _ _ _ h => h.elim, fun _ _ _ h => h.elim⟩
  · rintro s t ⟨rfl, rfl⟩
    exact ⟨c.issued_rootSite m, d.issued_rootSite m⟩
  · rintro s t ⟨rfl, rfl⟩ offset callee
    have hleft : (c.rootSite m).2.sites.find? ⟨(c.rootSite m).1, offset, callee⟩ = none :=
      hc.settled.find?_sites (c.not_issued_rootSite m) offset callee
    have hright : (d.rootSite m).2.sites.find? ⟨(d.rootSite m).1, offset, callee⟩ = none :=
      hd.settled.find?_sites (d.not_issued_rootSite m) offset callee
    rw [hleft, hright]
    exact .none
  · rintro s t ⟨rfl, rfl⟩ offset
    have hleft : (c.rootSite m).2.allocations.find? ((c.rootSite m).1, offset) = none :=
      hc.settled.find?_allocations (c.not_issued_rootSite m) offset
    have hright : (d.rootSite m).2.allocations.find? ((d.rootSite m).1, offset) = none :=
      hd.settled.find?_allocations (d.not_issued_rootSite m) offset
    rw [hleft, hright]
    exact .none

/-! ## groups -/

/-- Groups of corresponding paths. -/
theorem PathState.Corresponds.ofState {e : Engine} (he : e.Distinct) {w : Twins e}
    {s s' : PathState} (h : s.Corresponds w s') {root root' : Site} (hroot : w.sites root root')
    (m : MethodRef) :
    (PathGroup.ofState m root s).Corresponds w.toCorrespondence e (.ofState m root' s') where
  method := rfl
  site := hroot
  lines := h.lines
  exit := congrArg (·.getD .returned) h.exit
  returnValue := h.returnValue
  returnOrigin := by
    have hvalue := h.returnValue
    unfold PathGroup.ofState
    generalize s.returnValue = value at hvalue ⊢
    generalize s'.returnValue = value' at hvalue ⊢
    cases hvalue with
    | none => exact .none
    | @some a b hab =>
        have hnumbered := h.numbered
        exact .some (Flows.texts_origin w.oneToOne he hnumbered.1 hnumbered.2 h.flows
          ⟨a, b, hab, rfl, rfl⟩)

theorem Run.Outcome.map {α β γ δ : Type} {R : α → β → Prop} {S : γ → δ → Prop} {f : α → γ}
    {g : β → δ} (hfg : ∀ a b, R a b → S (f a) (g b)) {x : Except CoverageError α}
    {y : Except CoverageError β} (h : Outcome R x y) : Outcome S (x.map f) (y.map g) := by
  cases h with
  | ok h => exact .ok (hfg _ _ h)
  | error err => exact .error err

namespace Engine

variable {e : Engine}

/-- **Runs in step**: the groups of two runs of a method correspond, in the same order. -/
theorem corresponds_renderGroups (he : e.Filled) (hd : e.Distinct) {c d : Context}
    (hc : c.Lawful) (hd' : d.Lawful) (m : MethodRef) :
    ∃ κ : Correspondence, κ.OneToOne ∧ Outcome (Forall₂ (PathGroup.Corresponds κ e))
      (e.renderGroups m c).1 (e.renderGroups m d).1 := by
  obtain ⟨w, hl, hr, hroot⟩ := Twins.exists_rootSite e hc hd' m
  unfold renderGroups
  cases hform : e.form? m with
  | none => exact ⟨w.toCorrespondence, w.oneToOne, .error _⟩
  | some form =>
      obtain ⟨w', hle, -, -, hout⟩ := Run.matches_render he hd e.inliningDepth w form _ _
        [(c.rootSite m).1] [(d.rootSite m).1] ⟨he.renamable hform, hform, hroot⟩ rfl
      rw [hl, hr] at hout
      refine ⟨w'.toCorrespondence, w'.oneToOne, hout.map fun states states' hstates => ?_⟩
      rw [List.forall₂_map_left_iff, List.forall₂_map_right_iff]
      exact hstates.imp fun s s' hs => hs.ofState hd (hle.correspondence.sites _ _ hroot) m

end Engine

/-! ## repeats -/

/-- Repeats are the same. -/
theorem forall₂_eraseDups {α β : Type} [DecidableEq α] [DecidableEq β] {R : α → β → Prop}
    (hR : BiUnique R) (l : List α) (l' : List β) (h : Forall₂ R l l') :
    Forall₂ R l.eraseDups l'.eraseDups := by
  induction hn : l.length using Nat.strong_induction_on generalizing l l' with
  | _ n ih =>
      cases h with
      | nil => exact .nil
      | @cons a b l l' hab h =>
          rw [List.eraseDups_cons, List.eraseDups_cons]
          refine .cons hab (ih _ ?_ _ _ ?_ rfl)
          · have hlength := List.length_filter_le (fun x => !x == a) l
            rw [← hn, List.length_cons]
            omega
          · refine List.rel_filter (fun x y hxy => ?_) h
            simp [Relator.rel_eq hR hxy hab]

theorem PathGroup.Corresponds.asserted {κ : Correspondence} {e : Engine} {g g' : PathGroup}
    (h : g.Corresponds κ e g') : Forall₂ (κ.Asserted e) g.asserted g'.asserted := by
  refine List.rel_filterMap (fun l l' hl => ?_) h.lines
  cases hl with
  | declare => exact .none
  | assert hab => exact .some hab

theorem forall₂_getElem? {α β : Type} {R : α → β → Prop} {l : List α} {l' : List β}
    (h : Forall₂ R l l') (i : Nat) : Option.Rel R l[i]? l'[i]? := by
  induction h generalizing i with
  | nil => exact .none
  | cons hab _ ih =>
      cases i with
      | zero => exact .some hab
      | succ i => exact ih i

/-- Terms that contradict each other are not related to the same terms, if only equations are
related to several terms. -/
theorem Guards.Excludes.not_forall₂ {R : Sexp → Sexp → Prop}
    (hR : ∀ a b c, R a c → R b c → a = b ∨ a.head? = some "=" ∧ b.head? = some "=")
    {as bs cs : List Sexp} (h : Guards.Excludes as bs) (ha : Forall₂ R as cs) :
    ¬ Forall₂ R bs cs := by
  intro hb
  obtain ⟨i, a, b, hia, hib, hne, hheads⟩ := h.exists_conflict
  have ha := forall₂_getElem? ha i
  have hb := forall₂_getElem? hb i
  rw [hia] at ha
  rw [hib] at hb
  generalize cs[i]? = c at ha hb
  cases ha with
  | some ha =>
      cases hb with
      | some hb => exact (hR _ _ _ ha hb).elim hne hheads

namespace Engine

variable {e : Engine}

/-- The groups of two runs are related one-to-one. -/
theorem biUnique_groups (he : e.Filled) (hd : e.Distinct) {κ : Correspondence} (hκ : κ.OneToOne)
    {c d : Context} (hc : c.Used) (hd' : d.Used) {m : MethodRef} {groups groups' : List PathGroup}
    (h : (e.renderGroups m c).1 = .ok groups) (h' : (e.renderGroups m d).1 = .ok groups') :
    BiUnique fun g g' => g ∈ groups ∧ g' ∈ groups' ∧ g.Corresponds κ e g' := by
  constructor
  · rintro a b g ⟨ha, -, hag⟩ ⟨hb, -, hbg⟩
    obtain heq | hexcludes := excludes_of_mem_renderGroups he hc h ha hb
    · exact heq
    · refine absurd hbg.asserted (hexcludes.not_forall₂ ?_ hag.asserted)
      exact fun _ _ _ h h' => h.left_cases hκ hd h'
  · rintro g a b ⟨-, ha, hga⟩ ⟨-, hb, hgb⟩
    obtain heq | hexcludes := excludes_of_mem_renderGroups he hd' h' ha hb
    · exact heq
    · refine absurd hgb.asserted.flip (hexcludes.not_forall₂ ?_ hga.asserted.flip)
      exact fun _ _ _ h h' => Correspondence.Asserted.right_cases hκ hd h h'

/-- **Answers depend on earlier runs only through numbers.** -/
theorem corresponds_cover (he : e.Filled) (hd : e.Distinct) (history : List (Engine × MethodRef))
    (m : MethodRef) :
    ∃ κ : Correspondence, κ.OneToOne ∧ Outcome (Forall₂ (PathGroup.Corresponds κ e))
      (e.cover m (.after history)).1 (e.cover m .empty).1 := by
  have hused := Context.used_after history
  have hused' : Context.empty.Used := Context.used_after []
  obtain ⟨κ, hκ, hout⟩ := corresponds_renderGroups he hd (Context.lawful_after history)
    (Context.lawful_after []) m
  refine ⟨κ, hκ, ?_⟩
  change Outcome _ ((e.renderGroups m (.after history)).1.map PathGroup.prune)
    ((e.renderGroups m .empty).1.map PathGroup.prune)
  change Outcome _ (e.renderGroups m (.after history)).1 (e.renderGroups m .empty).1 at hout
  generalize hx : (e.renderGroups m (.after history)).1 = x at hout ⊢
  generalize hy : (e.renderGroups m .empty).1 = y at hout ⊢
  cases hout with
  | error err => exact .error err
  | @ok groups groups' hgroups =>
      refine .ok ?_
      rw [PathGroup.prune_eq_eraseDups (separated_renderGroups he hused hx),
        PathGroup.prune_eq_eraseDups (separated_renderGroups he hused' hy)]
      have hunique := biUnique_groups he hd hκ hused hused' hx hy
      have hmem : Forall₂ (fun g g' => g ∈ groups ∧ g' ∈ groups' ∧ g.Corresponds κ e g')
          groups groups' := by
        have hright : Forall₂ (fun g g' => g' ∈ groups' ∧ g.Corresponds κ e g') groups groups' :=
          .flip ((List.forall₂_and_left _ _).2 ⟨fun _ h => h, hgroups.flip⟩)
        exact (List.forall₂_and_left _ _).2 ⟨fun _ h => h, hright⟩
      exact (forall₂_eraseDups hunique _ _ hmem).imp fun _ _ h => h.2.2

end Engine

namespace Sample

theorem distinct_engine : engine.Distinct := by
  have hforms : ∀ p ∈ engine.forms.forms.entries, ∀ q ∈ engine.forms.forms.entries,
      p.2.method.symbol = q.2.method.symbol → p.1 = q.1 := by decide
  intro m m' f f' hf hf' hsymbol
  exact hforms _ (Table.mem_entries_of_find? hf) _ (Table.mem_entries_of_find? hf') hsymbol

theorem exists_cover_entry {c : Context} (hc : c.Used) (sequences : List Nat)
    (h : (engine.renderGroups entry c).1.toOption.map
      (fun groups => groups.eraseDups.map (·.site.sequence)) = some sequences) :
    ∃ groups, (engine.cover entry c).1 = .ok groups ∧ groups.map (·.site.sequence) = sequences := by
  cases hrun : (engine.renderGroups entry c).1 with
  | error err =>
      rw [hrun] at h
      contradiction
  | ok groups =>
      rw [hrun] at h
      exact ⟨groups.eraseDups, (Engine.cover_eq_ok_iff_eraseDups filled_engine hc).2
        ⟨groups, hrun, rfl⟩, Option.some.inj h⟩

/-- After a run of `check` and one of `entry`, the groups of `entry` are others than in a new
context, but they correspond. -/
theorem corresponds_entry : engine.Filled ∧ engine.Distinct ∧ ∃ κ groups groups', κ.OneToOne ∧
    (engine.cover entry (.after [(engine, check), (engine, entry)])).1 = .ok groups ∧
    (engine.cover entry .empty).1 = .ok groups' ∧ groups.length = 3 ∧ groups ≠ groups' ∧
    Forall₂ (PathGroup.Corresponds κ engine) groups groups' := by
  obtain ⟨groups, hgroups, hsequences⟩ := exists_cover_entry
    (Context.used_after [(engine, check), (engine, entry)]) [1, 1, 1] (by decide +kernel)
  obtain ⟨groups', hgroups', hsequences'⟩ := exists_cover_entry used_empty [0, 0, 0]
    (by decide +kernel)
  obtain ⟨κ, hκ, hout⟩ := Engine.corresponds_cover filled_engine distinct_engine
    [(engine, check), (engine, entry)] entry
  rw [hgroups, hgroups'] at hout
  refine ⟨filled_engine, distinct_engine, κ, groups, groups', hκ, hgroups, hgroups', ?_, ?_, ?_⟩
  · simpa using congrArg List.length hsequences
  · rintro rfl
    exact absurd (hsequences.symm.trans hsequences') (by decide)
  · cases hout with
    | ok h => exact h

end Sample

end Pathwise
