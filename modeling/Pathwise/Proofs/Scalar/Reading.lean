import Pathwise.Proofs.Scalar.Semantics
import Pathwise.Proofs.Wording.Name

/-!
# Pathwise.Proofs.Scalar.Reading

Reading the terms of the scalar fragment: constants of slots stand for
themselves, numerals and negated numerals for their values. All of these terms
are readable, so what holds of a term holds of its text.
-/

namespace Pathwise

/-! ## literals -/

namespace Scalar

theorem readNat_toString (n : Nat) : Number.readNat (toString n).toList = some n := by
  have hdigits : (toString n).toList = Nat.toDigits 10 n := by
    rw [Nat.toString_eq_repr, Nat.toList_repr]
  have hall : (Nat.toDigits 10 n).all Char.isDigit = true :=
    List.all_eq_true.2 fun c hc => Nat.isDigit_of_mem_toDigits (by decide) (by decide) hc
  rw [hdigits, Number.readNat, if_pos ⟨Nat.toDigits_ne_nil, hall⟩]
  exact congrArg some Nat.ofDigitChars_ten_toDigits

theorem readInt_toString (n : Nat) : Number.readInt (toString n).toList = some (n : Int) := by
  have hread := readNat_toString n
  have hsign {c : Char} {cs : List Char} (hc : c.isDigit = false) :
      Number.readNat (c :: cs) = none := by simp [Number.readNat, hc]
  unfold Number.readInt
  split
  · next cs heq =>
      rw [heq, hsign (by decide)] at hread
      contradiction
  · next cs heq =>
      rw [heq, hsign (by decide)] at hread
      contradiction
  · rw [hread]
    rfl

theorem literal?_eq_none {text : String} (h : '!' ∈ text.toList ∨ '.' ∈ text.toList) :
    literal? text = none := by
  have hne : ∀ word : String, '!' ∉ word.toList → '.' ∉ word.toList → text ≠ word := by
    rintro word h₁ h₂ rfl
    exact h.elim h₁ h₂
  have hnat : Number.readNat text.toList = none := by
    refine if_neg fun hdigits => ?_
    have hall := List.all_eq_true.1 hdigits.2
    cases h with
    | inl h => exact absurd (hall _ h) (by decide)
    | inr h => exact absurd (hall _ h) (by decide)
  rw [literal?, if_neg (hne "true" (by decide) (by decide)),
    if_neg (hne "false" (by decide) (by decide)), hnat]
  rfl

theorem literal?_toString (n : Nat) : literal? (toString n) = some (.int n) := by
  have hne : ∀ word : String, Number.readNat word.toList = none → toString n ≠ word := by
    intro word hword heq
    have hread := readNat_toString n
    rw [heq, hword] at hread
    contradiction
  rw [literal?, if_neg (hne "true" (by decide)), if_neg (hne "false" (by decide)),
    readNat_toString]
  rfl

/-! ## terms -/

variable {v : Valuation}

@[simp]
theorem eval_slotSymbol (m : MethodRef) (slot : Slot) :
    eval v (.atom (m.slotSymbol slot)) = some (v (m.slotSymbol slot)) := by
  rw [eval, literal?_eq_none (m.mark_mem_slotSymbol slot)]
  rfl

@[simp]
theorem eval_app₁ (op : String) (a : Sexp) :
    eval v (.app op [a]) = (eval v a).bind fun x => operate op [x] := by
  rw [Sexp.app, eval, evalAll, evalAll]
  cases eval v a <;> rfl

@[simp]
theorem eval_app₂ (op : String) (a b : Sexp) :
    eval v (.app op [a, b]) =
      (eval v a).bind fun x => (eval v b).bind fun y => operate op [x, y] := by
  rw [Sexp.app, eval, evalAll, evalAll, evalAll]
  cases eval v a <;> cases eval v b <;> rfl

@[simp]
theorem eval_nat (n : Nat) : eval v (.nat n) = some (.int n) := by
  rw [Sexp.nat, eval, literal?_toString]
  rfl

@[simp]
theorem eval_int (i : Int) : eval v (.int i) = some (.int i) := by
  rw [Sexp.int]
  split
  · next hneg =>
      have hvalue : -(i.natAbs : Int) = i := by omega
      have heval : eval v (.app "-" [.nat i.natAbs]) = some (.int (-(i.natAbs : Int))) := by
        simp [operate]
      rw [heval, hvalue]
  · next hpos =>
      have hvalue : (i.toNat : Int) = i := by omega
      simp [hvalue]

/-- What holds of a readable term holds of its text. -/
theorem holds_render_iff {e : Sexp} (he : e.Readable) :
    Holds v e.render ↔ eval v e = some (.bool true) := by
  rw [Holds, Sexp.parse_render he]
  rfl

end Scalar

/-! ## readable terms -/

namespace Sexp

theorem readable_slotSymbol (m : MethodRef) (slot : Slot) :
    (Sexp.atom (m.slotSymbol slot)).Readable := m.isAtom_slotSymbol slot

/-- An application is readable if its arguments are. -/
theorem readable_app {op : String} (hop : IsAtom op) {args : List Sexp}
    (hargs : ∀ a ∈ args, a.Readable) : (app op args).Readable :=
  ⟨hop, readableAll_iff.2 hargs⟩

theorem readable_nat (n : Nat) : (nat n).Readable := by
  refine ⟨fun hnil => ?_, isPlain_toString n⟩
  rw [Nat.toString_eq_repr, Nat.toList_repr] at hnil
  exact Nat.toDigits_ne_nil hnil

theorem readable_int (i : Int) : (int i).Readable := by
  rw [int]
  split
  · refine readable_app (by decide) fun a ha => ?_
    rw [List.mem_singleton.1 ha]
    exact readable_nat _
  · exact readable_nat _

end Sexp

end Pathwise
