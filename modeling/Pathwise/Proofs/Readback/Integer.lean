import Mathlib.Data.Nat.Digits.Lemmas
import Pathwise.ConstantTable
import Pathwise.Proofs.Success

/-!
# Pathwise.Proofs.Readback.Integer

Which terms are read as which integers. An atom spells an integer by decimal digits
behind at most one sign (`Number.Spells`); a term is such an atom below any number of
minus signs (`Sexp.negated`), and its value is what the signs say.

The widths in which numbers are read show only at the edge of the 64-bit range, where
the number of minus signs decides (`ConstantTable.readInt_eq_ok_iff`): the least
integer can be written with its magnitude below one sign, but neither below two nor as
the negation of itself. Negation in 128 bits wraps for one word, which is no 64-bit
integer before or after (`ConstantTable.int64_neg_readWord`).
-/

namespace Pathwise

/-! ## spelling -/

namespace Number

/-- The value of decimal digits, the leading one first. -/
def decimal (digits : List Char) : Nat :=
  Nat.ofDigits 10 (digits.map fun c => c.toNat - '0'.toNat).reverse

/-- A non-empty run of ASCII digits. -/
def IsDigits (cs : List Char) : Prop := cs ≠ [] ∧ ∀ c ∈ cs, c.isDigit = true

/-- An integer is spelled by digits behind at most one sign. -/
inductive Spells : List Char → Int → Prop where
  | plain {digits : List Char} (h : IsDigits digits) : Spells digits (decimal digits)
  | plus {digits : List Char} (h : IsDigits digits) : Spells ('+' :: digits) (decimal digits)
  | minus {digits : List Char} (h : IsDigits digits) : Spells ('-' :: digits) (-decimal digits)

theorem natOfDigits_eq (cs : List Char) : natOfDigits cs = decimal cs := by
  rw [decimal, Nat.ofDigits_eq_foldr, List.foldr_reverse, List.foldl_map, natOfDigits]
  congr 1
  funext n c
  exact Nat.add_comm _ _

theorem readNat_eq_some_iff {cs : List Char} {n : Nat} :
    readNat cs = some n ↔ IsDigits cs ∧ decimal cs = n := by
  rw [readNat, Option.ite_some_none_eq_some, List.all_eq_true, natOfDigits_eq, IsDigits]

theorem readInt_eq_some_iff {cs : List Char} {n : Int} : readInt cs = some n ↔ Spells cs n := by
  constructor
  · intro h
    unfold readInt at h
    split at h
    all_goals
      obtain ⟨k, hk, rfl⟩ := Option.map_eq_some_iff.1 h
      obtain ⟨hdigits, rfl⟩ := readNat_eq_some_iff.1 hk
    · exact .plus hdigits
    · exact .minus hdigits
    · exact .plain hdigits
  · intro h
    have hread {digits : List Char} (hd : IsDigits digits) :
        readNat digits = some (decimal digits) := readNat_eq_some_iff.2 ⟨hd, rfl⟩
    cases h with
    | plus hd => rw [readInt, hread hd]; rfl
    | minus hd => rw [readInt, hread hd]; rfl
    | plain hd =>
        -- a sign is no digit
        have hsign {c : Char} (hc : c.isDigit = false) : cs.head? ≠ some c := by
          intro hhead
          rw [hd.2 c (List.mem_of_head? hhead)] at hc
          contradiction
        unfold readInt
        split
        · exact absurd rfl (hsign (by decide))
        · exact absurd rfl (hsign (by decide))
        · rw [hread hd]; rfl

end Number

/-- The 64-bit range by its limits. -/
theorem Number.isInt64_iff {i : Int} :
    IsInt64 i ↔ -9223372036854775808 ≤ i ∧ i ≤ 9223372036854775807 := Iff.rfl

/-- A term below a number of minus signs. -/
def Sexp.negated : Nat → Sexp → Sexp
  | 0, e => e
  | k + 1, e => .app "-" [negated k e]

namespace ConstantTable

open Number (IsInt64 Spells readWord)

variable {type : TypeRef} {v : Int}

/-! ## widths -/

theorem int64_eq_ok_iff {e : Sexp} {i? : Option Int} :
    int64 type e i? = .ok v ↔ i? = some v ∧ IsInt64 v := by
  cases i? with
  | none => simp [int64]
  | some i =>
      by_cases hi : IsInt64 i
      · simp only [int64, hi, if_true, Except.ok.injEq, Option.some.injEq]
        constructor
        · rintro rfl
          exact ⟨rfl, hi⟩
        · exact And.left
      · simp only [int64, hi, if_false, reduceCtorEq, Option.some.injEq, false_iff]
        rintro ⟨rfl, hv⟩
        exact hi hv

/-- Negation in 128 bits wraps only outside the 64-bit range. -/
theorem isInt64_neg_word_iff {i : Int} (hi : (BitVec.ofInt 128 i).toInt = i) :
    (IsInt64 (-BitVec.ofInt 128 i).toInt ↔ IsInt64 (-i)) ∧
      (IsInt64 (-i) → (-BitVec.ofInt 128 i).toInt = -i) := by
  have hrange := And.intro (BitVec.le_toInt (BitVec.ofInt 128 i))
    (BitVec.toInt_lt (x := .ofInt 128 i))
  rw [hi] at hrange
  have hneg : (-BitVec.ofInt 128 i).toInt = (-i).bmod (2 ^ 128) := by rw [BitVec.toInt_neg, hi]
  simp only [hneg, Number.isInt64_iff, Int.bmod]
  omega

/-- What is read below a minus sign is the negated number or nothing. -/
theorem int64_neg_readWord (e : Sexp) (cs : List Char) :
    int64 type e ((readWord 128 cs).map fun w => (-w).toInt) =
      int64 type e ((Number.readInt cs).map (- ·)) := by
  unfold readWord
  cases Number.readInt cs with
  | none => rfl
  | some i =>
      rw [Option.bind_some, Option.map_some]
      by_cases hi : (BitVec.ofInt 128 i).toInt = i
      · obtain ⟨hiff, heq⟩ := isInt64_neg_word_iff hi
        rw [if_pos hi, Option.map_some, int64, int64]
        by_cases h : IsInt64 (-i)
        · rw [heq h]
        · rw [if_neg h, if_neg (mt hiff.1 h)]
      · have hwide : ¬IsInt64 (-i) := by
          rw [BitVec.toInt_ofInt] at hi
          simp only [Number.isInt64_iff, Int.bmod] at hi ⊢
          omega
        rw [if_neg hi, Option.map_none, int64, int64, if_neg hwide]

/-! ## terms -/

theorem readInt_atom_eq_ok_iff {a : String} :
    readInt type (.atom a) = .ok v ↔ Spells a.toList v ∧ IsInt64 v := by
  rw [readInt, int64_eq_ok_iff, Number.readInt_eq_some_iff]

/-- Below one minus sign only the negated number must fit. -/
theorem readInt_neg_atom_eq_ok_iff {a : String} :
    readInt type (.app "-" [.atom a]) = .ok v ↔ Spells a.toList (-v) ∧ IsInt64 v := by
  rw [Sexp.app, readInt, if_pos rfl, int64_neg_readWord, int64_eq_ok_iff,
    ← Number.readInt_eq_some_iff]
  simp [neg_eq_iff_eq_neg]

/-- Below a further minus sign the number must fit before and behind it. -/
theorem readInt_neg_eq_ok_iff {inner : Sexp} (h : ∀ a, inner ≠ .atom a) :
    readInt type (.app "-" [inner]) = .ok v ↔ readInt type inner = .ok (-v) ∧ IsInt64 v := by
  rw [Sexp.app, readInt, if_pos rfl]
  · simp only [Pathwise.bind_eq_ok, int64_eq_ok_iff, Option.some.injEq]
    constructor
    · rintro ⟨w, hw, rfl, hv⟩
      rw [Int.neg_neg]
      exact ⟨hw, hv⟩
    · rintro ⟨hw, hv⟩
      exact ⟨-v, hw, Int.neg_neg v, hv⟩
  · exact h

/-- Only numbers below minus signs are read. -/
theorem exists_negated_of_readInt {e : Sexp} (h : readInt type e = .ok v) :
    ∃ (k : Nat) (a : String), e = .negated k (.atom a) := by
  fun_induction readInt type e generalizing v with
  | case1 a => exact ⟨0, a, rfl⟩
  | case2 a => exact ⟨1, a, rfl⟩
  | case4 inner =>
      rename_i ih
      obtain ⟨w, hw, -⟩ := Pathwise.bind_eq_ok.1 h
      obtain ⟨k, a, rfl⟩ := ih hw
      exact ⟨k + 1, a, rfl⟩
  | case3 | case5 | case6 => contradiction

/-- What the value of a number below minus signs is, and when there is one. -/
theorem readInt_negated_eq_ok_iff (k : Nat) (a : String) :
    readInt type (.negated k (.atom a)) = .ok v ↔ ∃ n, Spells a.toList n ∧ v = (-1) ^ k * n ∧
      (k = 0 ∧ IsInt64 n ∨ 1 ≤ k ∧ IsInt64 (-n) ∧ (2 ≤ k → IsInt64 n)) := by
  induction k generalizing v with
  | zero => simp [Sexp.negated, readInt_atom_eq_ok_iff]
  | succ k ih =>
      cases k with
      | zero =>
          simp only [Sexp.negated, readInt_neg_atom_eq_ok_iff]
          constructor
          · rintro ⟨hspells, hv⟩
            exact ⟨-v, hspells, by simp, Or.inr ⟨le_rfl, by simpa using hv, by simp⟩⟩
          · rintro ⟨n, hspells, rfl, ⟨h, -⟩ | ⟨-, hn, -⟩⟩
            · contradiction
            · simpa using ⟨hspells, hn⟩
      | succ k =>
          rw [Sexp.negated, readInt_neg_eq_ok_iff (by simp [Sexp.negated, Sexp.app]), ih]
          constructor
          · rintro ⟨⟨n, hspells, hv, ⟨h, -⟩ | ⟨-, hneg, hn⟩⟩, hfits⟩
            · contradiction
            · refine ⟨n, hspells, ?_, Or.inr ⟨by omega, hneg, fun _ => ?_⟩⟩
              · rw [pow_succ, mul_neg_one, Int.neg_mul, ← hv, Int.neg_neg]
              · cases k with
                | zero =>
                    obtain rfl : v = n := by simpa using hv
                    exact hfits
                | succ k => exact hn (by omega)
          · rintro ⟨n, hspells, rfl, ⟨h, -⟩ | ⟨-, hneg, hn⟩⟩
            · contradiction
            · refine ⟨⟨n, hspells, ?_, Or.inr ⟨by omega, hneg, fun _ => hn (by omega)⟩⟩, ?_⟩
              · rw [pow_succ, mul_neg_one, Int.neg_mul, Int.neg_neg]
              · obtain h | h := neg_one_pow_eq_or Int (k + 2)
                · rw [h, one_mul]
                  exact hn (by omega)
                · rw [h, neg_one_mul]
                  exact hneg

/-- **Integers are read exactly.** A term is read as an integer if and only if it is a number below
some minus signs, and then as the value that the signs give it. Without a sign the number must be in
the 64-bit range, below one sign its negation, and below several both. -/
theorem readInt_eq_ok_iff {e : Sexp} {v : Int} :
    readInt type e = .ok v ↔ ∃ (k : Nat) (a : String) (n : Int), e = .negated k (.atom a) ∧
      Spells a.toList n ∧ v = (-1) ^ k * n ∧
      (k = 0 ∧ IsInt64 n ∨ 1 ≤ k ∧ IsInt64 (-n) ∧ (2 ≤ k → IsInt64 n)) := by
  constructor
  · intro h
    obtain ⟨k, a, rfl⟩ := exists_negated_of_readInt h
    obtain ⟨n, hn⟩ := (readInt_negated_eq_ok_iff k a).1 h
    exact ⟨k, a, n, rfl, hn⟩
  · rintro ⟨k, a, n, rfl, hn⟩
    exact (readInt_negated_eq_ok_iff k a).2 ⟨n, hn⟩

/-- The least integer is its magnitude below one sign, and has no spelling below more of them. -/
example : readInt type (.negated 1 (.atom "9223372036854775808")) = .ok (-9223372036854775808) ∧
    (readInt type (.negated 1 (.atom "-9223372036854775808"))).isOk = false ∧
    (readInt type (.negated 3 (.atom "+9223372036854775808"))).isOk = false := ⟨rfl, rfl, rfl⟩

end ConstantTable

end Pathwise
