import Mathlib.Data.List.Nodup
import Pathwise.Proofs.Layout

/-!
# Pathwise.Proofs.Guards

What the guards of a block say. `Guards.Family` lists every shape that the guards
of a block's edges can have: one edge without any guard, the two sides of a
branch, the outcomes of a series of checks, or those of an element access. Every
block of a form has such a family (`Form.guarded_of_ofGraph`).

The guards of two edges of one block exclude each other (`Guards.Excludes`), on the
face of their terms: where they first differ, one term is the negation of the
other, or they place an index differently.
-/

namespace Pathwise

/-- The terms that a statement asserts. -/
def Statement.terms (s : Statement) : List Sexp :=
  match s.body with
  | .declaration .. => []
  | .assertion terms _ | .branch terms _ => terms

/-- A statement that only asserts terms. -/
def Statement.IsPlain (s : Statement) : Prop := s.isDeclaration = false ∧ s.effect = .none

namespace Sexp

/-- An index lies between zero and a length. -/
def inBounds (zero index length : Sexp) : Sexp :=
  .and (app "<=" [zero, index]) (app "<" [index, length])

/-- One term is the negation of the other. -/
def Contrary (a b : Sexp) : Prop := b = a.not ∨ a = b.not

theorem Contrary.symm {a b : Sexp} (h : Contrary a b) : Contrary b a := Or.symm h

theorem ne_not (a : Sexp) : a ≠ a.not := by
  intro h
  have hsize := congrArg sizeOf h
  simp only [not, app, Sexp.list.sizeOf_spec, List.cons.sizeOf_spec] at hsize
  omega

theorem Contrary.ne {a b : Sexp} (h : Contrary a b) : a ≠ b := by
  rcases h with rfl | rfl
  · exact ne_not a
  · exact (ne_not b).symm

end Sexp

namespace Guards

open Sexp (app Contrary inBounds)

/-! ## lists of terms that exclude each other -/

/-- Two lists of terms that agree up to a point where they contradict each other. -/
inductive Excludes : List Sexp → List Sexp → Prop where
  | contrary (front : List Sexp) {a b : Sexp} (h : Contrary a b) (as bs : List Sexp) :
      Excludes (front ++ a :: as) (front ++ b :: bs)
  | tooLow (front : List Sexp) (zero index length : Sexp) (as bs : List Sexp) :
      Excludes (front ++ inBounds zero index length :: as) (front ++ app "<" [index, zero] :: bs)
  | tooHigh (front : List Sexp) (zero index length : Sexp) (as bs : List Sexp) :
      Excludes (front ++ inBounds zero index length :: as)
        (front ++ (app "<" [index, zero]).not :: app ">=" [index, length] :: bs)
  | symm {as bs : List Sexp} (h : Excludes as bs) : Excludes bs as

namespace Excludes

variable {as bs : List Sexp}

theorem append (h : Excludes as bs) (xs ys : List Sexp) : Excludes (as ++ xs) (bs ++ ys) := by
  induction h generalizing xs ys with
  | contrary front h as bs =>
      simpa using Excludes.contrary front h (as ++ xs) (bs ++ ys)
  | tooLow front zero index length as bs =>
      simpa using Excludes.tooLow front zero index length (as ++ xs) (bs ++ ys)
  | tooHigh front zero index length as bs =>
      simpa using Excludes.tooHigh front zero index length (as ++ xs) (bs ++ ys)
  | symm _ ih => exact (ih ys xs).symm

theorem prepend (h : Excludes as bs) (front : List Sexp) :
    Excludes (front ++ as) (front ++ bs) := by
  induction h with
  | contrary front' h as bs =>
      simpa using Excludes.contrary (front ++ front') h as bs
  | tooLow front' zero index length as bs =>
      simpa using Excludes.tooLow (front ++ front') zero index length as bs
  | tooHigh front' zero index length as bs =>
      simpa using Excludes.tooHigh (front ++ front') zero index length as bs
  | symm _ ih => exact ih.symm

/-- Extensions of lists that exclude each other do so too. -/
theorem extend {as' bs' : List Sexp} (h : Excludes as bs) (ha : as <+: as') (hb : bs <+: bs') :
    Excludes as' bs' := by
  obtain ⟨xs, rfl⟩ := ha
  obtain ⟨ys, rfl⟩ := hb
  exact h.append xs ys

/-- Neither list begins the other: they have different terms at some place. -/
theorem exists_ne (h : Excludes as bs) :
    ∃ front a b as' bs', a ≠ b ∧ as = front ++ a :: as' ∧ bs = front ++ b :: bs' := by
  induction h with
  | contrary front h as bs => exact ⟨front, _, _, as, bs, h.ne, rfl, rfl⟩
  | tooLow front zero index length as bs =>
      exact ⟨front, _, _, as, bs, by simp [inBounds, Sexp.and, app], rfl, rfl⟩
  | tooHigh front zero index length as bs =>
      exact ⟨front, _, _, as, _, by simp [inBounds, Sexp.and, Sexp.not, app], rfl, rfl⟩
  | symm _ ih =>
      obtain ⟨front, a, b, as', bs', hne, ha, hb⟩ := ih
      exact ⟨front, b, a, bs', as', hne.symm, hb, ha⟩

/-- Renaming that spares the operators keeps the contradiction. -/
theorem rename (h : Excludes as bs) {f : String → String}
    (hf : ∀ op ∈ ["not", "and", "<", "<=", ">="], f op = op) :
    Excludes (as.map (·.mapAtoms f)) (bs.map (·.mapAtoms f)) := by
  simp only [List.mem_cons, List.not_mem_nil, or_false, forall_eq_or_imp, forall_eq] at hf
  obtain ⟨hnot, hand, hlt, hle, hge⟩ := hf
  have hcontrary : ∀ a b : Sexp, Contrary a b → Contrary (a.mapAtoms f) (b.mapAtoms f) := by
    intro a b hab
    cases hab with
    | inl hb => exact Or.inl (by simp [hb, Sexp.not, app, Sexp.mapAtoms, Sexp.mapAtomsList, hnot])
    | inr ha => exact Or.inr (by simp [ha, Sexp.not, app, Sexp.mapAtoms, Sexp.mapAtomsList, hnot])
  induction h with
  | contrary front h as bs =>
      simpa using Excludes.contrary _ (hcontrary _ _ h) _ _
  | tooLow front zero index length as bs =>
      simpa [inBounds, Sexp.and, app, Sexp.mapAtoms, Sexp.mapAtomsList, hand, hlt, hle] using
        Excludes.tooLow (front.map (·.mapAtoms f)) (zero.mapAtoms f) (index.mapAtoms f)
          (length.mapAtoms f) (as.map (·.mapAtoms f)) (bs.map (·.mapAtoms f))
  | tooHigh front zero index length as bs =>
      simpa [inBounds, Sexp.and, Sexp.not, app, Sexp.mapAtoms, Sexp.mapAtomsList, hnot, hand, hlt,
        hle, hge] using
        Excludes.tooHigh (front.map (·.mapAtoms f)) (zero.mapAtoms f) (index.mapAtoms f)
          (length.mapAtoms f) (as.map (·.mapAtoms f)) (bs.map (·.mapAtoms f))
  | symm _ ih => exact ih.symm

/-- Excluded guards are no prefix. -/
theorem not_isPrefix (h : Excludes as bs) : ¬as <+: bs := by
  obtain ⟨front, a, b, as', bs', hne, rfl, rfl⟩ := h.exists_ne
  intro hpre
  rw [List.prefix_append_right_inj, List.cons_prefix_cons] at hpre
  exact hne hpre.1

end Excludes

/-! ## families of guards -/

/-- For each of several checks the terms that say it is the first to occur. -/
def faultTerms (front : List Sexp) : List FaultCheck → List (List Sexp)
  | [] => []
  | check :: checks => (front ++ [check.occurs]) :: faultTerms (front ++ [check.absent]) checks

theorem prefix_of_mem_faultTerms {front : List Sexp} {checks : List FaultCheck} {terms : List Sexp}
    (h : terms ∈ faultTerms front checks) : front <+: terms := by
  induction checks generalizing front with
  | nil => simp [faultTerms] at h
  | cons check checks ih =>
      rcases List.mem_cons.1 h with rfl | h
      · exact List.prefix_append front [check.occurs]
      · exact (List.prefix_append front [check.absent]).trans (ih h)

/-- The guards of all edges of a block, in their order. -/
inductive Family : List (List Sexp) → Prop where
  /-- A block with one way on. -/
  | always : Family [[]]
  | branch {taken notTaken : Sexp} (h : Contrary taken notTaken) : Family [[taken], [notTaken]]
  /-- No check occurs, or one is the first to occur. -/
  | checks {checks : List FaultCheck} (h : ∀ check ∈ checks, Contrary check.occurs check.absent) :
      Family (checks.map (·.absent) :: faultTerms [] checks)
  /-- An access in bounds, without an array, below and above the bounds. -/
  | element {isNull notNull : Sexp} (h : Contrary isNull notNull) (zero index length : Sexp) :
      Family [[notNull, inBounds zero index length], [isNull], [notNull, app "<" [index, zero]],
        [notNull, (app "<" [index, zero]).not, app ">=" [index, length]]]

section Checks

variable {checks : List FaultCheck} (h : ∀ check ∈ checks, Contrary check.occurs check.absent)

include h

theorem excludes_of_mem_faultTerms (front : List Sexp) {terms : List Sexp}
    (ht : terms ∈ faultTerms front checks) :
    Excludes (front ++ checks.map (·.absent)) terms := by
  induction checks generalizing front with
  | nil => simp [faultTerms] at ht
  | cons check checks ih =>
      rw [List.forall_mem_cons] at h
      rcases List.mem_cons.1 ht with rfl | ht
      · exact .contrary front h.1.symm _ []
      · simpa using ih h.2 (front ++ [check.absent]) ht

/-- Faults exclude each other. -/
theorem pairwise_faultTerms (front : List Sexp) :
    (faultTerms front checks).Pairwise Excludes := by
  induction checks generalizing front with
  | nil => exact List.Pairwise.nil
  | cons check checks ih =>
      rw [List.forall_mem_cons] at h
      refine List.Pairwise.cons (fun terms ht => ?_) (ih h.2 _)
      exact (Excludes.contrary front h.1 [] []).extend (List.prefix_refl _)
        (prefix_of_mem_faultTerms ht)

end Checks

/-- **The guards of different edges exclude each other.** -/
theorem Family.pairwise {guards : List (List Sexp)} (h : Family guards) :
    guards.Pairwise Excludes := by
  cases h with
  | always => exact List.pairwise_singleton _ _
  | branch h => exact List.pairwise_pair.2 (.contrary [] h [] [])
  | checks h =>
      exact List.Pairwise.cons (fun terms ht => excludes_of_mem_faultTerms h [] ht)
        (pairwise_faultTerms h [])
  | element h zero index length =>
      simp only [List.pairwise_cons, List.mem_cons, List.not_mem_nil, or_false, forall_eq_or_imp,
        forall_eq, false_implies, implies_true, List.Pairwise.nil, and_true]
      refine ⟨⟨?_, ?_, ?_⟩, ⟨?_, ?_⟩, ?_⟩
      · exact .contrary [] h.symm _ []
      · exact .tooLow [_] zero index length [] []
      · exact .tooHigh [_] zero index length [] []
      · exact .contrary [] h [] _
      · exact .contrary [] h [] _
      · exact .contrary [_] (Or.inl rfl) [] _

end Guards

open Guards (Family Excludes)

namespace Block

/-- The terms that hold when the block is left under a condition. -/
def guardTerms (b : Block) (condition : Condition) : List Sexp :=
  (b.guards condition).flatMap (·.statement.terms)

/-- The guards of a block form a family, and do nothing but assert terms. The exits of a form have
no edges. -/
structure Guarded (b : Block) : Prop where
  plain : ∀ edge ∈ b.successors, ∀ p ∈ b.guards edge.condition, p.statement.IsPlain
  family : b.successors = [] ∨ Family (b.successors.map (b.guardTerms ·.condition))

/-- A block with one way on has no guards. -/
theorem Guarded.of_always {b : Block} (target : BlockId)
    (h : b.successors = [⟨.always, target⟩]) : b.Guarded := by
  constructor
  · simp [h, guards]
  · simpa [h, guardTerms, guards] using Family.always

/-- A block with the two sides of a branch and an edge for each. -/
theorem Guarded.of_branch {b : Block} {taken other : BlockId} {offset : Nat} {holds fails : Sexp}
    (h : b.successors = [⟨.taken, taken⟩, ⟨.notTaken, other⟩])
    (hconditions : b.branchConditions = [(Statement.branch offset holds).link b.id,
      (Statement.assertion offset [fails]).link b.id])
    (hcontrary : Sexp.Contrary holds fails) : b.Guarded := by
  have htaken : b.guards .taken = [(Statement.branch offset holds).link b.id] := by
    simp [guards, hconditions, Statement.link, Statement.isBranch, Statement.branch,
      Statement.assertion]
  have hother : b.guards .notTaken = [(Statement.assertion offset [fails]).link b.id] := by
    simp [guards, hconditions, Statement.link, Statement.isAssertion, Statement.branch,
      Statement.assertion]
  constructor
  · simp only [h, List.forall_mem_cons, htaken, hother]
    exact ⟨⟨⟨rfl, rfl⟩, by simp⟩, ⟨⟨⟨rfl, rfl⟩, by simp⟩, by simp⟩⟩
  · right
    simp only [h, List.map_cons, List.map_nil, guardTerms, htaken, hother,
      List.flatMap_singleton]
    exact .branch hcontrary

/-- Exits exclude each other. -/
theorem Guarded.excludes {b : Block} (h : b.Guarded) {j k : Nat} {e e' : Edge}
    (hj : b.successors[j]? = some e) (hk : b.successors[k]? = some e') (hne : j ≠ k) :
    Excludes (b.guardTerms e.condition) (b.guardTerms e'.condition) := by
  obtain hnil | hfamily := h.family
  · simp [hnil] at hj
  · have hpair := List.pairwise_map.1 hfamily.pairwise
    rw [List.pairwise_iff_getElem] at hpair
    obtain ⟨hj', rfl⟩ := List.getElem?_eq_some_iff.1 hj
    obtain ⟨hk', rfl⟩ := List.getElem?_eq_some_iff.1 hk
    rcases Nat.lt_or_gt_of_ne hne with hlt | hgt
    · exact hpair j k hj' hk' hlt
    · exact (hpair k j hk' hj' hgt).symm

end Block

/-! ## the guards of an instruction -/

namespace Sentence

variable {s : Sentence} {a : Sexp}

/-- Only references have the null tests, and the tests are contrary. -/
theorem contrary_null {isNull notNull : Sexp} (h : s.apply (.isNull a) = .ok isNull)
    (h' : s.apply (.isNotNull a) = .ok notNull) : Sexp.Contrary isNull notNull := by
  cases hs : s.shape <;>
    simp only [apply, hs, applyBool, applyInt, applyReal, applyNumeric, applyStr, applyObject,
      applyArray, applyComposite, applyReference, unsupported, reduceCtorEq] at h h' <;>
    split at h <;> simp_all [Sexp.Contrary]

theorem contrary_truth {isTrue isFalse : Sexp} (h : s.apply (.isTrue a) = .ok isTrue)
    (h' : s.apply (.isFalse a) = .ok isFalse) : Sexp.Contrary isTrue isFalse := by
  cases hs : s.shape <;>
    simp only [apply, hs, applyBool, applyInt, applyReal, applyNumeric, applyStr, applyObject,
      applyArray, applyComposite, applyReference, unsupported, Except.ok.injEq] at h h' <;>
    grind [Sexp.Contrary]

/-- Only arrays have the index tests. -/
theorem index_tests {index below above within : Sexp}
    (hb : s.apply (.belowLowerBound a index) = .ok below)
    (ha : s.apply (.aboveUpperBound a index) = .ok above)
    (hw : s.apply (.inRange a index) = .ok within) :
    ∃ zero length, below = .app "<" [index, zero] ∧ above = .app ">=" [index, length] ∧
      within = .inBounds zero index length := by
  cases hs : s.shape <;>
    simp only [apply, hs, applyBool, applyInt, applyReal, applyNumeric, applyStr, applyObject,
      applyArray, applyComposite, applyReference, unsupported, Except.ok.injEq, reduceCtorEq]
      at hb ha hw
  subst hb ha hw
  exact ⟨_, _, rfl, rfl, rfl⟩

end Sentence

/-- What the guards of an encoded instruction say. -/
def Lowered.Guarded : Lowered → Prop
  | .plain _ => True
  | .faulting groups _ =>
    Family (groups.map (·.2.terms)) ∧ (groups.map (·.1.ordinal)).Nodup ∧
      ∀ g ∈ groups, ∃ terms, g.2 = .assertion g.1.offset terms
  | .branch taken notTaken =>
    ∃ offset holds fails, taken = .branch offset holds ∧ notTaken = .assertion offset [fails] ∧
      Sexp.Contrary holds fails

namespace Lowering

open MethodGraph (Instruction)

variable {c : Lowering} {checks : List FaultCheck} {offset : Nat}

theorem terms_faultGroups (offset : Nat) (absent : List Sexp) (ordinal : Nat)
    (checks : List FaultCheck) :
    (faultGroups offset absent ordinal checks).map (·.2.terms) =
      Guards.faultTerms absent checks := by
  induction checks generalizing absent ordinal with
  | nil => rfl
  | cons check checks ih =>
      rw [faultGroups, List.map_cons, ih, Guards.faultTerms]
      rfl

theorem ordinals_faultGroups (offset : Nat) (absent : List Sexp) (ordinal : Nat)
    (checks : List FaultCheck) :
    (faultGroups offset absent ordinal checks).map (·.1.ordinal) =
      List.range' ordinal checks.length := by
  induction checks generalizing absent ordinal with
  | nil => rfl
  | cons check checks ih => rw [faultGroups, List.map_cons, ih, List.length_cons, List.range'_succ]

theorem assertion_of_mem_faultGroups {absent : List Sexp} {ordinal : Nat}
    {g : FaultGroup × Statement} (h : g ∈ faultGroups offset absent ordinal checks) :
    ∃ terms, g.2 = .assertion g.1.offset terms := by
  induction checks generalizing absent ordinal with
  | nil => simp [faultGroups] at h
  | cons check checks ih =>
      rcases List.mem_cons.1 h with rfl | h
      · exact ⟨_, rfl⟩
      · exact ih h

theorem guarded_faulting {normal : List Sexp} {semantics : List Statement}
    (h : Family (normal :: Guards.faultTerms [] checks)) :
    (faulting offset normal checks semantics).Guarded := by
  unfold faulting
  split
  · trivial
  · refine ⟨?_, ?_, ?_⟩
    · rw [List.map_cons, terms_faultGroups]
      exact h
    · rw [List.map_cons, ordinals_faultGroups]
      simp [List.nodup_range']
    · intro g hg
      rcases List.mem_cons.1 hg with rfl | hg
      · exact ⟨_, rfl⟩
      · exact assertion_of_mem_faultGroups hg

theorem nullCheck_contrary {s : Sentence} {a : Sexp} {check : FaultCheck}
    (h : nullCheck s a = .ok check) : Sexp.Contrary check.occurs check.absent := by
  simp only [nullCheck, apply, bind_eq_ok, pure_eq_ok, mapError_eq_ok] at h
  obtain ⟨isNull, hnull, notNull, hnot, rfl⟩ := h
  exact Sentence.contrary_null hnull hnot

theorem family_elementGuards {s : Sentence} {array index : Sexp} {normal : List Sexp}
    (h : elementGuards s array index = .ok (normal, checks)) :
    Family (normal :: Guards.faultTerms [] checks) := by
  simp only [elementGuards, bind_eq_ok, pure_eq_ok] at h
  obtain ⟨below, hb, above, ha, notNull, hn, within, hw, check, hc, heq⟩ := h
  obtain ⟨rfl, rfl⟩ := Prod.mk.inj heq
  have hcontrary := nullCheck_contrary hc
  obtain rfl := nullCheck_absent hc hn
  simp only [apply, mapError_eq_ok] at hb ha hw
  obtain ⟨zero, length, rfl, rfl, rfl⟩ := Sentence.index_tests hb ha hw
  exact .element hcontrary zero index length

/-- A call with virtual dispatch checks its receiver, and that an abstract method has been
overridden. -/
theorem guarded_lowerCall {i : Instruction} {callee : MethodRef} {virtualDispatch : Bool}
    {l : Lowered} (h : c.lowerCall i callee virtualDispatch = .ok l) : l.Guarded := by
  obtain ⟨arguments, -, rfl | ⟨-, receiver, s, checks, statement, -, -, hchecks, -, rfl⟩⟩ :=
    lowerCall_cases h
  · trivial
  · refine guarded_faulting (.checks fun check hcheck => ?_)
    cases hchecks check hcheck with
    | null h => exact nullCheck_contrary h
    | missing => exact Or.inl rfl

/-- Instructions are guarded. -/
theorem guarded_lower {i : Instruction} {l : Lowered} (h : c.lower i = .ok l) :
    l.Guarded := by
  cases hop : i.opcode with
  | branch test =>
      simp only [lower, hop, bind_eq_ok, pure_eq_ok, apply, mapError_eq_ok] at h
      obtain ⟨a, -, s, -, taken, ht, notTaken, hn, rfl⟩ := h
      refine ⟨i.offset, taken, notTaken, rfl, rfl, ?_⟩
      cases test with
      | ifTrue => exact Sentence.contrary_truth ht hn
      | ifFalse => exact (Sentence.contrary_truth hn ht).symm
      | ifNull => exact Sentence.contrary_null ht hn
      | ifNotNull => exact (Sentence.contrary_null hn ht).symm
  | call callee virtualDispatch =>
      rw [lower, hop] at h
      exact guarded_lowerCall h
  | arrayLength =>
      simp only [lower, hop, bind_eq_ok, pure_eq_ok] at h
      obtain ⟨array, -, s, -, length, -, semantics, -, check, hc, notNull, hn, rfl⟩ := h
      obtain rfl := nullCheck_absent hc hn
      have hchecks : ∀ check' ∈ [check], Sexp.Contrary check'.occurs check'.absent := by
        simpa using nullCheck_contrary hc
      exact guarded_faulting (.checks hchecks)
  | loadElement =>
      simp only [lower, hop, bind_eq_ok, pure_eq_ok] at h
      obtain ⟨array, -, index, -, s, -, at_, -, e, -, semantics, -, ⟨normal, checks⟩, hg, rfl⟩ := h
      exact guarded_faulting (family_elementGuards hg)
  | storeElement =>
      simp only [lower, hop, bind_eq_ok, pure_eq_ok] at h
      obtain ⟨array, -, index, -, value, -, s, -, at_, -, stored, -, e, -, semantics, -,
        ⟨normal, checks⟩, hg, rfl⟩ := h
      exact guarded_faulting (family_elementGuards hg)
  | newObject constructor =>
      obtain ⟨_, _, _, _, -, -, -, -, rfl⟩ := lower_newObject hop h
      trivial
  | storeField field =>
      obtain ⟨_, _, _, _, _, _, _, -, -, -, -, -, -, rfl⟩ := lower_storeField hop h
      trivial
  | ret =>
      obtain ⟨_, rfl, -⟩ := lower_ret hop h
      trivial
  | jump =>
      rw [lower, hop] at h
      obtain rfl := Except.ok.inj h
      trivial
  | unsupported name =>
      rw [lower, hop] at h
      contradiction
  | _ =>
      simp only [lower, hop, bind_eq_ok, pure_eq_ok] at h
      grind [Lowered.Guarded]

/-! ## the guards of a form -/

/-- A block under encoding: its complete segments have their guards, the current one has none. -/
structure Segments.Open (s : Segments) : Prop where
  complete : ∀ b ∈ s.complete.toList, b.Guarded
  successors : s.current.successors = []
  faultGuards : s.current.faultGuards = []
  branchConditions : s.current.branchConditions = []

theorem Segments.Open.declareAll {vs : List Variable} {s out : Segments} (hs : s.Open)
    (h : c.declareAll offset vs s = .ok out) : out.Open := by
  obtain ⟨declared, rfl, -, -⟩ := declareAll_eq_ok h
  exact ⟨hs.complete, hs.successors, hs.faultGuards, hs.branchConditions⟩

theorem Segments.Open.assert {s : Segments} (hs : s.Open) (statements : List Statement) :
    (s.assert statements).Open :=
  ⟨hs.complete, hs.successors, hs.faultGuards, hs.branchConditions⟩

/-- The guards of a group in its segment are its own: no other group has its number. -/
theorem filter_group {groups : List (FaultGroup × Statement)} {id : BlockId}
    (hnodup : (groups.map (·.1.ordinal)).Nodup) {g : FaultGroup × Statement} (hg : g ∈ groups) :
    (groups.map fun (g, guard) => (guard.inGroup g.ordinal).link id).filter
        (·.statement.group = g.1.ordinal) = [(g.2.inGroup g.1.ordinal).link id] := by
  have hfilter : groups.filter (fun g' => g'.1.ordinal = g.1.ordinal) = [g] := by
    have hinj := List.inj_on_of_nodup_map hnodup
    rw [List.filter_congr (q := (· == g)), List.filter_beq,
      List.count_eq_one_of_mem hnodup.of_map hg]
    · rfl
    · intro g' hg'
      simp only [beq_eq_decide, decide_eq_decide]
      exact ⟨fun h => hinj hg' hg h, fun h => by rw [h]⟩
  rw [List.filter_map]
  exact congrArg (List.map _) hfilter

theorem Segments.Open.split {s : Segments} (hs : s.Open)
    {groups : List (FaultGroup × Statement)} {semantics : List Statement}
    (hg : (Lowered.faulting groups semantics).Guarded) : (s.split groups).Open := by
  obtain ⟨hfamily, hnodup, hassertion⟩ := hg
  refine ⟨?_, rfl, rfl, rfl⟩
  rw [Segments.split, Array.toList_push]
  refine List.forall_mem_append.2 ⟨hs.complete, List.forall_mem_singleton.2 ⟨?_, Or.inr ?_⟩⟩
  · simp only [hs.successors, List.nil_append, List.forall_mem_map]
    intro g hg p hp
    simp only [Block.guards, hs.faultGuards, List.nil_append, filter_group hnodup hg,
      List.mem_singleton] at hp
    obtain ⟨terms, hterms⟩ := hassertion g hg
    rw [hp, hterms]
    exact ⟨rfl, rfl⟩
  · simp only [hs.successors, List.nil_append, List.map_map]
    rw [← List.map_congr_left fun g hg => ?_]
    · exact hfamily
    · simp only [Function.comp_apply, Block.guardTerms, Block.guards, hs.faultGuards,
        List.nil_append, filter_group hnodup hg, List.flatMap_singleton]
      rfl

/-- What instructions leave behind: the complete segments have their guards, and if the last one is
a branch, the current segment has the two sides of it. -/
theorem guarded_lowerAll {instructions : List Instruction} {s out : Segments}
    (h : c.lowerAll instructions s = .ok out) (hs : s.Open) :
    (∀ b ∈ out.complete.toList, b.Guarded) ∧ out.current.successors = [] ∧
      ∀ i test, instructions.getLast? = some i → i.opcode = .branch test →
        ∃ offset holds fails, Sexp.Contrary holds fails ∧ out.current.branchConditions =
          [(Statement.branch offset holds).link out.current.id,
            (Statement.assertion offset [fails]).link out.current.id] := by
  induction instructions generalizing s with
  | nil =>
      obtain rfl := Except.ok.inj h
      exact ⟨hs.complete, hs.successors, by simp⟩
  | cons i rest ih =>
      obtain ⟨d, hd, hstep⟩ := lowerAll_cons h
      have hopen := hs.declareAll hd
      -- only a branch becomes the two sides of one, so what is known of the rest is enough
      have hlast : ∀ l, c.lower i = .ok l → (∀ taken notTaken, l ≠ .branch taken notTaken) →
          ∀ j test, (i :: rest).getLast? = some j → j.opcode = .branch test →
            rest.getLast? = some j := by
        intro l hl hne j test hj hop
        cases rest with
        | nil =>
            obtain rfl : i = j := by simpa using hj
            obtain ⟨_, _, _, _, -, -, -, -, rfl⟩ := lower_branch hop hl
            exact absurd rfl (hne _ _)
        | cons k rest => rwa [List.getLast?_cons_cons] at hj
      obtain ⟨statements, hl, h⟩ | ⟨groups, semantics, hl, h⟩ | ⟨taken, notTaken, hl, rfl, rfl⟩ :=
        hstep
      · obtain ⟨hcomplete, hsucc, hbranch⟩ := ih h (hopen.assert statements)
        exact ⟨hcomplete, hsucc, fun j test hj hop =>
          hbranch j test (hlast _ hl (by simp) j test hj hop) hop⟩
      · obtain ⟨hcomplete, hsucc, hbranch⟩ :=
          ih h ((hopen.split (guarded_lower hl)).assert semantics)
        exact ⟨hcomplete, hsucc, fun j test hj hop =>
          hbranch j test (hlast _ hl (by simp) j test hj hop) hop⟩
      · refine ⟨hopen.complete, hopen.successors, fun j test _ _ => ?_⟩
        obtain ⟨offset, holds, fails, rfl, rfl, hcontrary⟩ := guarded_lower hl
        exact ⟨offset, holds, fails, hcontrary, by simp [Segments.branch, hopen.branchConditions]⟩

/-- Blocks are guarded. -/
theorem guarded_lowerBlock {visible : List Slot} {source : MethodGraph.Block}
    {segments : List Block} (h : c.lowerBlock visible source = .ok segments) :
    ∀ b ∈ segments, b.Guarded := by
  obtain ⟨s, edges, hs, he, rfl⟩ := lowerBlock_eq_ok h
  obtain ⟨hcomplete, hsucc, hbranch⟩ := guarded_lowerAll hs ⟨by simp, rfl, rfl, rfl⟩
  refine List.forall_mem_append.2 ⟨hcomplete, List.forall_mem_singleton.2 ?_⟩
  obtain ⟨test, taken, other, hterm, -, rfl⟩ | ⟨-, target, rfl, -⟩ := exits_cases he
  · obtain ⟨i, hi, hop⟩ := Option.map_eq_some_iff.1 hterm
    obtain ⟨offset, holds, fails, hcontrary, hconditions⟩ := hbranch i test hi hop
    exact .of_branch (by rw [hsucc]; rfl) hconditions hcontrary
  · exact .of_always target (by rw [hsucc]; rfl)

end Lowering

/-- Every block of a form has its guards. -/
def Form.Guarded (f : Form) : Prop := ∀ b ∈ f.blocks, b.Guarded

theorem Form.guarded_empty (m : MethodRef) : (Form.empty m).Guarded := by
  intro b hb
  simp only [Form.empty, List.mem_cons, List.not_mem_nil, or_false] at hb
  obtain rfl | rfl := hb
  · exact .of_always _ rfl
  · exact ⟨by simp, Or.inl rfl⟩

/-- **Guards of a form**: the guards of every block form a family. -/
theorem Form.guarded_of_ofGraph {lookup : SentenceLookup} {g : MethodGraph} {f : Form}
    (h : Form.ofGraph lookup g = .ok f) : f.Guarded := by
  intro b hb
  obtain ⟨bare, preds, rfl, he | ⟨n, -, source, visible, segments, -, hs, hbare⟩ | rfl | rfl⟩ :=
    mem_blocks_of_ofGraph h hb
  · obtain ⟨declared, rfl, -, -⟩ := Lowering.lowerEntry_eq_ok he
    exact .of_always _ rfl
  · exact ⟨(Lowering.guarded_lowerBlock hs bare hbare).plain,
      (Lowering.guarded_lowerBlock hs bare hbare).family⟩
  · exact ⟨by simp, Or.inl rfl⟩
  · exact ⟨by simp, Or.inl rfl⟩

end Pathwise
