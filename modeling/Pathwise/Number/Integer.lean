/-!
# Pathwise.Number.Integer

Decimal integers: an optional sign followed by ASCII digits, at least one. Where
integers have a width, those that do not fit are refused.
-/

namespace Pathwise.Number

/-- Value of a text that holds digits only. -/
def natOfDigits (cs : List Char) : Nat :=
  cs.foldl (fun n c => 10 * n + (c.toNat - '0'.toNat)) 0

/-- A non-empty run of ASCII digits. -/
def readNat (cs : List Char) : Option Nat :=
  if cs ≠ [] ∧ cs.all Char.isDigit then some (natOfDigits cs) else none

/-- An integer with at most one sign. -/
def readInt : List Char → Option Int
  | '+' :: cs => (readNat cs).map Int.ofNat
  | '-' :: cs => (readNat cs).map fun n => -Int.ofNat n
  | cs => (readNat cs).map Int.ofNat

/-- An integer as a word of a width, in two's complement. -/
def readWord (width : Nat) (cs : List Char) : Option (BitVec width) :=
  (readInt cs).bind fun i =>
    if (BitVec.ofInt width i).toInt = i then some (.ofInt width i) else none

/-- The signed 64-bit range. -/
def IsInt64 (i : Int) : Prop := Int64.minValue.toInt ≤ i ∧ i ≤ Int64.maxValue.toInt

instance (i : Int) : Decidable (IsInt64 i) := inferInstanceAs (Decidable (_ ∧ _))

end Pathwise.Number
