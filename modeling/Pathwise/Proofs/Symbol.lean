import Mathlib.Data.List.Basic
import Pathwise.Form.Lowering

/-!
# Pathwise.Proofs.Symbol

Constants and the mark `!`. No symbol of a type, a method or a field holds a
mark; the constant of a local slot holds one, between the symbol of its method
and the name of the slot. What stands on the two sides of a mark can therefore be
told from the constant (`MethodRef.slotSymbol_inj`), also if more follows behind
a further mark.
-/

namespace Pathwise

/-! ## symbols without a mark -/

theorem Text.mark_not_mem_symbol (name : String) : '!' ∉ (Text.symbol name).toList := by
  intro h
  rw [Text.symbol, String.toList_ofList] at h
  exact absurd (Text.isSymbolChar_of_mem_symbolChars h) (by decide)

theorem TypeRef.mark_not_mem_symbol (t : TypeRef) : '!' ∉ t.symbol.toList := by
  fun_induction TypeRef.symbol t with
  | case7 e ih => simpa using ih
  | case8 s n as => exact Text.mark_not_mem_symbol _
  | _ => decide

theorem TypeRef.mark_not_mem_tag (t : TypeRef) : '!' ∉ t.tag.toList := by
  simp [tag, mark_not_mem_symbol]

theorem MethodRef.mark_not_mem_symbol (m : MethodRef) : '!' ∉ m.symbol.toList :=
  Text.mark_not_mem_symbol _

theorem mark_not_mem_toDigits (n : Nat) : '!' ∉ Nat.toDigits 10 n := by
  intro h
  exact absurd (Nat.isDigit_of_mem_toDigits (by decide) (by decide) h) (by decide)

theorem toDigits_inj {n m : Nat} (h : Nat.toDigits 10 n = Nat.toDigits 10 m) : n = m := by
  rw [← Nat.ofDigitChars_ten_toDigits (n := n), h, Nat.ofDigitChars_ten_toDigits]

/-! ## constants of slots -/

/-- Slots of a method other than static fields. -/
def Slot.isLocal : Slot → Bool
  | .staticField _ => false
  | _ => true

/-- Constant of a slot in a method. -/
def MethodRef.slotSymbol (m : MethodRef) : Slot → String
  | .staticField f => Text.symbol f.text
  | slot => m.symbol ++ "!" ++ slot.text

namespace MethodRef

@[simp]
theorem variableSymbol_eq (m : MethodRef) (x : Variable) :
    m.variableSymbol x = m.slotSymbol x.slot := by
  unfold variableSymbol slotSymbol
  cases x.slot <;> rfl

theorem slotSymbol_of_isLocal (m : MethodRef) {slot : Slot} (h : slot.isLocal) :
    m.slotSymbol slot = m.symbol ++ "!" ++ slot.text := by
  cases slot with
  | staticField f => contradiction
  | _ => rfl

theorem mark_mem_slotSymbol_iff (m : MethodRef) (slot : Slot) :
    '!' ∈ (m.slotSymbol slot).toList ↔ slot.isLocal := by
  cases slot with
  | staticField f => simp [slotSymbol, Slot.isLocal, Text.mark_not_mem_symbol]
  | _ => simp [slotSymbol, Slot.isLocal]

end MethodRef

theorem Slot.mark_not_mem_text {slot : Slot} (h : slot.isLocal) : '!' ∉ slot.text.toList := by
  cases slot with
  | staticField f => contradiction
  | _ => simp [Slot.text, mark_not_mem_toDigits]

theorem Slot.text_inj {slot slot' : Slot} (h : slot.isLocal) (h' : slot'.isLocal)
    (htext : slot.text = slot'.text) : slot = slot' := by
  have hchars := congrArg String.toList htext
  cases slot <;> cases slot' <;> simp [Slot.text, Slot.isLocal] at hchars h h' ⊢
  all_goals exact toDigits_inj hchars

/-- What stands before and behind the first mark can be told from a text. -/
theorem append_mark_inj {mark : Char} {a a' b b' : List Char} (ha : mark ∉ a) (ha' : mark ∉ a')
    (h : a ++ mark :: b = a' ++ mark :: b') : a = a' ∧ b = b' := by
  obtain ⟨c, rfl, hc⟩ | ⟨c, rfl, hc⟩ := List.append_eq_append_iff.1 h
  · cases c with
    | nil => simpa using hc
    | cons d c =>
        obtain ⟨rfl, -⟩ := List.cons.inj hc
        simp at ha'
  · cases c with
    | nil => simpa [eq_comm] using hc
    | cons d c =>
        obtain ⟨rfl, -⟩ := List.cons.inj hc
        simp at ha

/-- The method's symbol and the slot can be told from a constant that is renamed. -/
theorem MethodRef.slotSymbol_inj {m m' : MethodRef} {slot slot' : Slot} {suffix suffix' : String}
    (hslot : slot.isLocal) (hslot' : slot'.isLocal)
    (h : m.slotSymbol slot ++ "!" ++ suffix = m'.slotSymbol slot' ++ "!" ++ suffix') :
    m.symbol = m'.symbol ∧ slot = slot' := by
  rw [slotSymbol_of_isLocal m hslot, slotSymbol_of_isLocal m' hslot'] at h
  have hchars := congrArg String.toList h
  simp only [String.toList_append, List.append_assoc] at hchars
  obtain ⟨hsymbol, hrest⟩ := append_mark_inj m.mark_not_mem_symbol m'.mark_not_mem_symbol hchars
  obtain ⟨htext, -⟩ := append_mark_inj (Slot.mark_not_mem_text hslot)
    (Slot.mark_not_mem_text hslot') hrest
  exact ⟨String.toList_inj.1 hsymbol, Slot.text_inj hslot hslot' (String.toList_inj.1 htext)⟩

end Pathwise
