import Pathwise.Coverage.Site
import Pathwise.Proofs.RoundTrip
import Pathwise.Proofs.Symbol

/-!
# Pathwise.Proofs.Wording.Name

Names in problems can be read. Constants of slots and tags are atoms, whatever the
program calls its types and members. The symbol of a type can be empty, if its
name has no letters; it is plain, and so are all sorts.
-/

namespace Pathwise

open Sexp (IsAtom isAtomChar)

/-! ## symbols of names -/

namespace Text

/-- A text begins with a colon if it did before other pairs were replaced. -/
theorem replacePair_colon (out cs : List Char) :
    ∃ ds, replacePair '[' ']' out (':' :: cs) = ':' :: ds := by
  cases cs with
  | nil => exact ⟨[], rfl⟩
  | cons c cs => exact ⟨_, by rw [replacePair, if_neg (by simp)]⟩

/-- Two colons in a row stay when other pairs are replaced. -/
theorem colons_infix_replacePair (out : List Char) {cs : List Char} (h : [':', ':'] <:+: cs) :
    [':', ':'] <:+: replacePair '[' ']' out cs := by
  fun_induction replacePair '[' ']' out cs with
  | case1 c d rest hcd ih =>
      obtain ⟨rfl, rfl⟩ := hcd
      simp only [List.infix_cons_iff, List.cons_prefix_cons] at h
      simp at h
      exact (ih h).trans (List.suffix_append out _).isInfix
  | case2 c d rest hcd ih =>
      rw [List.infix_cons_iff] at h
      cases h with
      | inl hprefix =>
          obtain ⟨rfl, htail⟩ := List.cons_prefix_cons.1 hprefix
          obtain ⟨rfl, -⟩ := List.cons_prefix_cons.1 htail
          obtain ⟨ds, hds⟩ := replacePair_colon out rest
          rw [hds]
          exact List.IsPrefix.isInfix ⟨ds, rfl⟩
      | inr hinfix => exact (ih hinfix).trans (List.suffix_cons c _).isInfix
  | case3 rest hrest => exact h

/-- Two colons in a row become a point. -/
theorem point_mem_replacePair {cs : List Char} (h : [':', ':'] <:+: cs) :
    '.' ∈ replacePair ':' ':' ['.'] cs := by
  fun_induction replacePair ':' ':' ['.'] cs with
  | case1 c d rest hcd ih => simp
  | case2 c d rest hcd ih =>
      rw [List.infix_cons_iff] at h
      cases h with
      | inl hprefix =>
          obtain ⟨rfl, htail⟩ := List.cons_prefix_cons.1 hprefix
          obtain ⟨rfl, -⟩ := List.cons_prefix_cons.1 htail
          simp at hcd
      | inr hinfix => exact List.mem_cons_of_mem c (ih hinfix)
  | case3 rest hrest =>
      match rest, h.length_le with
      | [], hle => simp at hle
      | [_], hle => simp at hle
      | c :: d :: rest, _ => exact (hrest c d rest rfl).elim

theorem point_mem_symbol (a b : String) : '.' ∈ (Text.symbol (a ++ "::" ++ b)).toList := by
  have hname : [':', ':'] <:+: (a ++ "::" ++ b).toList := ⟨a.toList, b.toList, by simp⟩
  obtain ⟨xs, ys, heq⟩ := colons_infix_replacePair ['_', 'A', 'r', 'r', 'a', 'y'] hname
  have hspelled : [':', ':'] <:+: (replacePair '[' ']' ['_', 'A', 'r', 'r', 'a', 'y']
      (a ++ "::" ++ b).toList).flatMap spellBracket := by
    rw [← heq]
    exact ⟨xs.flatMap spellBracket, ys.flatMap spellBracket, by simp [spellBracket]⟩
  rw [Text.symbol, String.toList_ofList, symbolChars]
  exact List.mem_filter.2 ⟨point_mem_replacePair hspelled, by decide⟩

end Text

/-! ## plain texts -/

namespace Sexp

instance (text : String) : Decidable (IsPlain text) :=
  decidable_of_iff (text.toList.all isAtomChar = true) (by simp [IsPlain])

theorem isAtomChar_of_isDigit {c : Char} (h : c.isDigit = true) : isAtomChar c = true := by
  refine isAtomChar_of_isSymbolChar ?_
  simp [Text.isSymbolChar,
    Text.isAlphanumeric_of_isAlphanum (c := c) (by simp [Char.isAlphanum, h])]

theorem isPlain_append {a b : String} : IsPlain (a ++ b) ↔ IsPlain a ∧ IsPlain b := by
  simp [IsPlain, or_imp, forall_and]

theorem isPlain_toString (n : Nat) : IsPlain (toString n) := by
  intro c hc
  rw [Nat.toString_eq_repr, Nat.toList_repr] at hc
  exact isAtomChar_of_isDigit (Nat.isDigit_of_mem_toDigits (by decide) (by decide) hc)

/-- Symbols are plain. -/
theorem isPlain_symbol (name : String) : IsPlain (Text.symbol name) :=
  fun _ => isAtomChar_of_mem_symbol

/-- A plain text with some more behind it is an atom. -/
theorem isAtom_append {a b : String} (ha : IsPlain a) (hb : IsAtom b) : IsAtom (a ++ b) := by
  refine ⟨?_, isPlain_append.2 ⟨ha, hb.2⟩⟩
  rw [String.toList_append]
  exact List.append_ne_nil_of_right_ne_nil _ hb.1

end Sexp

open Sexp (IsPlain isPlain_append)

/-- Suffixes are plain. -/
theorem Site.isPlain_suffix (s : Site) : IsPlain s.suffix := by
  simp only [suffix, isPlain_append]
  exact ⟨⟨Sexp.isPlain_toString _, by decide⟩, Sexp.isPlain_toString _⟩

/-- A renamed symbol is plain if the symbol and the suffix are. -/
theorem Renaming.isPlain_symbol_of_isPlain {r : Renaming} (hr : IsPlain r.suffix) {name : String}
    (h : IsPlain name) : IsPlain (r.symbol name) := by
  unfold symbol
  split
  · exact isPlain_append.2 ⟨isPlain_append.2 ⟨h, by decide⟩, hr⟩
  · exact h

/-! ## constants of slots -/

namespace MethodRef

/-- A constant holds a mark or a point, which no literal has. -/
theorem mark_mem_slotSymbol (m : MethodRef) (slot : Slot) :
    '!' ∈ (m.slotSymbol slot).toList ∨ '.' ∈ (m.slotSymbol slot).toList := by
  cases slot with
  | staticField f => exact Or.inr (Text.point_mem_symbol f.owner.text f.name)
  | parameter i => simp [slotSymbol]
  | localVar i => simp [slotSymbol]
  | stack i => simp [slotSymbol]

theorem isPlain_slotSymbol (m : MethodRef) (slot : Slot) : IsPlain (m.slotSymbol slot) := by
  have hlocal {kind : String} (i : Nat) (hkind : IsPlain kind) :
      IsPlain (m.symbol ++ "!" ++ (kind ++ toString i)) :=
    isPlain_append.2 ⟨isPlain_append.2 ⟨Sexp.isPlain_symbol _, by decide⟩,
      isPlain_append.2 ⟨hkind, Sexp.isPlain_toString i⟩⟩
  cases slot with
  | staticField f => exact Sexp.isPlain_symbol _
  | parameter i => exact hlocal i (by decide)
  | localVar i => exact hlocal i (by decide)
  | stack i => exact hlocal i (by decide)

/-- Constants are atoms. -/
theorem isAtom_slotSymbol (m : MethodRef) (slot : Slot) : IsAtom (m.slotSymbol slot) := by
  refine ⟨fun hnil => ?_, m.isPlain_slotSymbol slot⟩
  have hmark := m.mark_mem_slotSymbol slot
  rw [hnil] at hmark
  simp at hmark

end MethodRef

/-! ## symbols of types -/

namespace TypeRef

theorem isPlain_symbol (t : TypeRef) : IsPlain t.symbol := by
  fun_induction TypeRef.symbol t with
  | case7 e ih => exact isPlain_append.2 ⟨ih, by decide⟩
  | case8 s n as => exact Sexp.isPlain_symbol _
  | _ => decide

/-- Tags are atoms. -/
theorem isAtom_tag (t : TypeRef) : IsAtom t.tag :=
  Sexp.isAtom_append t.isPlain_symbol (by decide)

/-- Sorts are clean. -/
theorem clean_sort (t : TypeRef) : t.sort.Clean := by
  fun_induction TypeRef.sort t with
  | case1 e ih => exact ⟨(by decide : IsPlain "SeqArray"), ih, trivial⟩
  | case2 t ht => exact t.isPlain_symbol

end TypeRef

end Pathwise
