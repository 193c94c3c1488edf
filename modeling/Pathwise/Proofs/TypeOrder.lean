import Pathwise.TypeRef

/-!
# Pathwise.Proofs.TypeOrder

The order of types is a linear order. A type is spelled as a list of words, such that
comparing two types is comparing their words (`TypeRef.compare_eq_compare_words`), so
that the order is transitive and total as that of lists is. Types that compare equal
are equal (`TypeRef.eq_of_cmp`).
-/

namespace Pathwise

/-- The position of a builtin type in their order. -/
def Builtin.word : Builtin → String
  | .bool => "0"
  | .int32 => "1"
  | .float64 => "2"
  | .string => "3"
  | .object => "4"
  | .void => "5"

theorem Builtin.compare_word (a b : Builtin) : compare a.word b.word = compare a b := by
  cases a <;> cases b <;> decide

theorem Builtin.eq_of_compare {a b : Builtin} (h : compare a b = .eq) : a = b := by
  cases a <;> cases b <;> trivial

namespace TypeRef

mutual

/-- A type as words; the first one tells its kind. -/
def words : TypeRef → List String
  | .builtin b => ["0", b.word]
  | .array e => "1" :: e.words
  | .named s n as => "2" :: s :: n :: wordsList as

/-- Types as words; the first one tells whether there are any. -/
def wordsList : List TypeRef → List String
  | [] => ["0"]
  | a :: as => "1" :: (a.words ++ wordsList as)

end

/-! No spelling is the beginning of another one, so that what follows decides only for equal
types. -/

mutual

theorem compare_words_append (a b : TypeRef) (r r' : List String) :
    compare (a.words ++ r) (b.words ++ r') = (cmp a b).then (compare r r') := by
  match a, b with
  | .builtin a, .builtin b =>
      simp [words, cmp, List.compare_cons_cons, Builtin.compare_word]
  | .builtin a, .array e => rfl
  | .builtin a, .named s n as => rfl
  | .array e, .builtin b => rfl
  | .array e, .array e' => simpa [words, cmp] using compare_words_append e e' r r'
  | .array e, .named s n as => rfl
  | .named s n as, .builtin b => rfl
  | .named s n as, .array e => rfl
  | .named s n as, .named s' n' as' =>
      simp [words, cmp, List.compare_cons_cons, compare_wordsList_append as as' r r',
        Ordering.then_assoc]

theorem compare_wordsList_append (as bs : List TypeRef) (r r' : List String) :
    compare (wordsList as ++ r) (wordsList bs ++ r') = (cmpList as bs).then (compare r r') := by
  match as, bs with
  | [], [] => simp [wordsList, cmpList, List.compare_cons_cons]
  | [], b :: bs => rfl
  | a :: as, [] => rfl
  | a :: as, b :: bs =>
      simp [wordsList, cmpList, List.compare_cons_cons, Ordering.then_assoc,
        compare_words_append a b, compare_wordsList_append as bs r r']

end

/-- **Types are compared word by word.** -/
theorem compare_eq_compare_words (a b : TypeRef) : compare a b = compare a.words b.words := by
  have h := compare_words_append a b [] []
  change cmp a b = _
  simpa using h.symm

theorem isLE_trans {a b c : TypeRef} (hab : (compare a b).isLE = true)
    (hbc : (compare b c).isLE = true) : (compare a c).isLE = true := by
  rw [compare_eq_compare_words] at *
  exact Std.TransOrd.isLE_trans hab hbc

theorem isLE_total (a b : TypeRef) : ((compare a b).isLE || (compare b a).isLE) = true := by
  rw [compare_eq_compare_words a b, compare_eq_compare_words b a, Std.OrientedOrd.eq_swap]
  cases compare b.words a.words <;> rfl

/-! ## equal types -/

mutual

theorem eq_of_cmp (a b : TypeRef) (h : cmp a b = .eq) : a = b := by
  match a, b with
  | .builtin a, .builtin b => rw [Builtin.eq_of_compare h]
  | .array e, .array e' => rw [eq_of_cmp e e' h]
  | .named s n as, .named s' n' as' =>
      obtain ⟨hs, hn, has⟩ := by simpa only [cmp, Ordering.then_eq_eq] using h
      rw [Std.LawfulEqOrd.eq_of_compare hs, Std.LawfulEqOrd.eq_of_compare hn,
        eq_of_cmpList as as' has]

theorem eq_of_cmpList (as bs : List TypeRef) (h : cmpList as bs = .eq) : as = bs := by
  match as, bs with
  | [], [] => rfl
  | a :: as, b :: bs =>
      obtain ⟨hab, hasbs⟩ := by simpa only [cmpList, Ordering.then_eq_eq] using h
      rw [eq_of_cmp a b hab, eq_of_cmpList as bs hasbs]

end

theorem eq_of_isLE {a b : TypeRef} (hab : (compare a b).isLE = true)
    (hba : (compare b a).isLE = true) : a = b := by
  refine eq_of_cmp a b ?_
  change compare a b = .eq
  rw [compare_eq_compare_words] at *
  exact Std.OrientedCmp.isLE_antisymm hab hba

end TypeRef

end Pathwise
