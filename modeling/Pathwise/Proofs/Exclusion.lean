import Pathwise.Proofs.Divergence

/-!
# Pathwise.Proofs.Exclusion

The groups of one answer exclude each other: no interpretation satisfies two of
them (`Engine.not_satisfies_of_ne`).

An interpretation reads negation, conjunction, equality and the order of integers
in the standard way and is free in everything else. The constants, selectors and
conversions in a term may mean anything, as long as the same term means the same
wherever it occurs; so the groups contradict each other by the guards they
contain, not by what else is known of the program's values.
-/

namespace Pathwise

open Guards (Excludes)

/-- A reading of terms: how its values are read as truth values and as integers, and the value of
every term that is no negation, conjunction, equation or comparison. -/
structure Interpretation where
  Carrier : Type
  decEq : DecidableEq Carrier
  ofBool : Bool → Carrier
  truth : Carrier → Bool
  truth_ofBool : ∀ b, truth (ofBool b) = b
  number : Carrier → Int
  other : Sexp → Carrier

namespace Interpretation

instance (I : Interpretation) : DecidableEq I.Carrier := I.decEq

/-- The value of a term. -/
def eval (I : Interpretation) : Sexp → I.Carrier
  | .list [.atom "not", a] => I.ofBool (!I.truth (I.eval a))
  | .list [.atom "and", a, b] => I.ofBool (I.truth (I.eval a) && I.truth (I.eval b))
  | .list [.atom "=", a, b] => I.ofBool (I.eval a = I.eval b)
  | .list [.atom "<", a, b] => I.ofBool (I.number (I.eval a) < I.number (I.eval b))
  | .list [.atom "<=", a, b] => I.ofBool (I.number (I.eval a) ≤ I.number (I.eval b))
  | .list [.atom ">=", a, b] => I.ofBool (I.number (I.eval b) ≤ I.number (I.eval a))
  | e => I.other e

/-- A term is read as true. -/
def Holds (I : Interpretation) (e : Sexp) : Prop := I.truth (I.eval e) = true

/-- All assertions of a group hold. -/
def Satisfies (I : Interpretation) (g : PathGroup) : Prop :=
  ∀ e, Line.assert e ∈ g.lines → I.Holds e

variable {I : Interpretation} {a b : Sexp}

@[simp]
theorem holds_not : I.Holds a.not ↔ ¬I.Holds a := by
  simp [Holds, Sexp.not, Sexp.app, eval, I.truth_ofBool]

@[simp]
theorem holds_and : I.Holds (.and a b) ↔ I.Holds a ∧ I.Holds b := by
  simp [Holds, Sexp.and, Sexp.app, eval, I.truth_ofBool]

@[simp]
theorem holds_lt : I.Holds (.app "<" [a, b]) ↔ I.number (I.eval a) < I.number (I.eval b) := by
  simp [Holds, Sexp.app, eval, I.truth_ofBool]

@[simp]
theorem holds_le : I.Holds (.app "<=" [a, b]) ↔ I.number (I.eval a) ≤ I.number (I.eval b) := by
  simp [Holds, Sexp.app, eval, I.truth_ofBool]

@[simp]
theorem holds_ge : I.Holds (.app ">=" [a, b]) ↔ I.number (I.eval b) ≤ I.number (I.eval a) := by
  simp [Holds, Sexp.app, eval, I.truth_ofBool]

theorem not_holds_of_contrary (h : Sexp.Contrary a b) (ha : I.Holds a) : ¬I.Holds b := by
  obtain rfl | rfl := h
  · simpa using ha
  · simpa using ha

/-- Terms that exclude each other do not hold together. -/
theorem not_holds_of_excludes {as bs : List Sexp} (h : Excludes as bs) (ha : ∀ e ∈ as, I.Holds e) :
    ¬∀ e ∈ bs, I.Holds e := by
  induction h with
  | contrary front h as bs =>
      intro hb
      exact not_holds_of_contrary h (ha _ (by simp)) (hb _ (by simp))
  | tooLow front zero index length as bs =>
      intro hb
      have hin := ha (Sexp.inBounds zero index length) (by simp)
      have hlow := hb (.app "<" [index, zero]) (by simp)
      simp only [Sexp.inBounds, holds_and, holds_le, holds_lt] at hin hlow
      omega
  | tooHigh front zero index length as bs =>
      intro hb
      have hin := ha (Sexp.inBounds zero index length) (by simp)
      have hhigh := hb (.app ">=" [index, length]) (by simp)
      simp only [Sexp.inBounds, holds_and, holds_le, holds_lt, holds_ge] at hin hhigh
      omega
  | symm _ ih => exact fun hb => ih hb ha

theorem satisfies_iff {g : PathGroup} : I.Satisfies g ↔ ∀ e ∈ g.asserted, I.Holds e := by
  have hmem : ∀ e, Line.assert e ∈ g.lines ↔ e ∈ g.asserted := by
    intro e
    simp only [PathGroup.asserted, List.mem_filterMap]
    constructor
    · exact fun h => ⟨_, h, rfl⟩
    · rintro ⟨l, hl, he⟩
      cases l with
      | declare symbol sort => contradiction
      | assert term => rwa [← Option.some.inj he]
  simp only [Satisfies, hmem]

end Interpretation

namespace Engine

/-- **Groups exclude each other**: no interpretation satisfies two groups at different positions of
an answer. -/
theorem not_satisfies_of_ne {e : Engine} (he : e.Filled) {m : MethodRef} {c : Context}
    (hc : c.Used) {groups : List PathGroup} (h : (e.cover m c).1 = .ok groups) {i j : Nat}
    {a b : PathGroup} (hi : groups[i]? = some a) (hj : groups[j]? = some b) (hij : i ≠ j)
    (I : Interpretation) : ¬(I.Satisfies a ∧ I.Satisfies b) := by
  obtain ⟨rendered, hrun, rfl⟩ := (cover_eq_ok_iff_eraseDups he hc).1 h
  have ha : a ∈ rendered := List.mem_eraseDups.1 (List.mem_of_getElem? hi)
  have hb : b ∈ rendered := List.mem_eraseDups.1 (List.mem_of_getElem? hj)
  have hne : a ≠ b := by
    rintro rfl
    obtain ⟨hlt, -⟩ := List.getElem?_eq_some_iff.1 hi
    exact hij ((List.getElem?_inj hlt (nodup_eraseDups rendered)).1 (hi.trans hj.symm))
  obtain heq | hexcludes := excludes_of_mem_renderGroups he hc hrun ha hb
  · exact absurd heq hne
  · rintro ⟨hsa, hsb⟩
    exact Interpretation.not_holds_of_excludes hexcludes (Interpretation.satisfies_iff.1 hsa)
      (Interpretation.satisfies_iff.1 hsb)

end Engine

namespace Sample

/-- The integers, with every term beyond the standard ones read as one. -/
def reading : Interpretation where
  Carrier := Int
  decEq := inferInstance
  ofBool b := if b then 1 else 0
  truth n := n ≠ 0
  truth_ofBool b := by cases b <;> rfl
  number n := n
  other _ := 1

/-- The group in which `check` throws is satisfied by `reading`, the one behind it is not. -/
theorem not_satisfies_entry : ∃ groups a b, (engine.cover entry .empty).1 = .ok groups ∧
    groups[0]? = some a ∧ groups[1]? = some b ∧ reading.Satisfies a ∧ ¬reading.Satisfies b := by
  obtain ⟨rendered, hrun, -, hthree⟩ := renderGroups_entry
  have hcover : (engine.cover entry .empty).1 = .ok rendered.eraseDups :=
    (Engine.cover_eq_ok_iff_eraseDups filled_engine used_empty).2 ⟨rendered, hrun, rfl⟩
  have htrue : (engine.renderGroups entry .empty).1.toOption.bind (fun groups =>
      groups.eraseDups[0]?.map fun g => g.asserted.all fun e => reading.truth (reading.eval e)) =
      some true := by decide +kernel
  rw [hrun] at htrue
  obtain ⟨a, ha, hall⟩ := Option.map_eq_some_iff.1 htrue
  have hone : 1 < rendered.eraseDups.length := by omega
  have hb : rendered.eraseDups[1]? = some rendered.eraseDups[1] := List.getElem?_eq_getElem hone
  have hsat : reading.Satisfies a :=
    Interpretation.satisfies_iff.2 fun e he => List.all_eq_true.1 hall e he
  refine ⟨_, a, _, hcover, ha, hb, hsat, fun hsat' => ?_⟩
  exact Engine.not_satisfies_of_ne filled_engine used_empty hcover ha hb (by decide) reading
    ⟨hsat, hsat'⟩

end Sample

end Pathwise
