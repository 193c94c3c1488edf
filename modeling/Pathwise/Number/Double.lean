import Pathwise.Number.Integer

/-!
# Pathwise.Number.Double

Binary floating-point numbers of double precision, as exact data: a finite number
is `± m * 2 ^ e` with `m < 2 ^ 53` and `-1074 ≤ e ≤ 971`, and `2 ^ 52 ≤ m` unless `e` is
least. Rounding goes to the nearest such number, a tie to the even `m`.

Only what constants need is here: the bit pattern, negation, division, and
reading a decimal.
-/

namespace Pathwise.Number

/-- A double. Every not-a-number is the same value. -/
inductive Double where
  | nan
  | infinite (negative : Bool)
  | finite (negative : Bool) (significand : Nat) (exponent : Int)
deriving DecidableEq, Inhabited

namespace Double

/-! ## Bit pattern -/

/-- The double with a 64-bit pattern: sign, 11 bits of exponent, 52 bits of fraction. -/
def ofBits (bits : Nat) : Double :=
  let negative := bits / Nat.pow 2 63 % 2 = 1
  let biased : Nat := bits / Nat.pow 2 52 % Nat.pow 2 11
  let fraction := bits % Nat.pow 2 52
  if biased = 2047 then
    if fraction = 0 then .infinite negative else .nan
  else if biased = 0 then .finite negative fraction (-1074)
  else .finite negative (Nat.pow 2 52 + fraction) ((biased : Int) - 1075)

/-- The 64-bit pattern of a double. -/
def toBits : Double → Nat
  | .nan => 2047 * Nat.pow 2 52 + Nat.pow 2 51
  | .infinite negative => negative.toNat * Nat.pow 2 63 + 2047 * Nat.pow 2 52
  | .finite negative m e =>
    negative.toNat * Nat.pow 2 63 +
      if m < Nat.pow 2 52 then m else (e + 1075).toNat * Nat.pow 2 52 + (m - Nat.pow 2 52)

/-! ## Rounding -/

/-- Nearest integer to `num / den`, a tie to the even one. -/
def roundDiv (num den : Nat) : Nat :=
  let q := num / den
  let r := num % den
  if 2 * r < den then q
  else if den < 2 * r then q + 1
  else if q % 2 = 0 then q else q + 1

/-- `num / den` in units of `2 ^ e`, as a fraction. -/
def scaled (num den : Nat) (e : Int) : Nat × Nat :=
  if 0 ≤ e then (num, den * Nat.pow 2 e.toNat) else (num * Nat.pow 2 (-e).toNat, den)

/-- The double nearest to `± num / den`. -/
def ofRatio (negative : Bool) (num den : Nat) : Double :=
  if num = 0 then .finite negative 0 (-1074)
  else
    -- the quotient lies strictly between `2 ^ (estimate + 51)` and `2 ^ (estimate + 53)`
    let estimate : Int := (Nat.log2 num : Int) - Nat.log2 den - 52
    let (n, d) := scaled num den estimate
    let e := max (if n / d < Nat.pow 2 52 then estimate - 1 else estimate) (-1074)
    let (n, d) := scaled num den e
    let m := roundDiv n d
    let (m, e) := if m = Nat.pow 2 53 then (Nat.pow 2 52, e + 1) else (m, e)
    if 971 < e then .infinite negative else .finite negative m e

/-! ## Arithmetic -/

/-- The opposite sign. -/
def neg : Double → Double
  | .nan => .nan
  | .infinite s => .infinite !s
  | .finite s m e => .finite (!s) m e

/-- Division, rounded to the nearest. -/
def div : Double → Double → Double
  | .nan, _ | _, .nan | .infinite _, .infinite _ => .nan
  | .infinite s, .finite t _ _ => .infinite (s != t)
  | .finite s _ _, .infinite t => .finite (s != t) 0 (-1074)
  | .finite s m e, .finite t n f =>
    if n = 0 then
      if m = 0 then .nan else .infinite (s != t)
    else
      let (num, den) := scaled m n (f - e)
      ofRatio (s != t) num den

/-! ## Reading -/

/-- Letters in lower case. -/
def lower (cs : List Char) : List Char := cs.map Char.toLower

/-- The double nearest to `± digits * 10 ^ exponent`. -/
def ofDecimal (negative : Bool) (digits : Nat) (exponent : Int) : Double :=
  -- beyond these bounds the value overflows, or is nearer to zero than to any other double
  let size : Int := (Nat.toDigits 10 digits).length + exponent
  if digits = 0 ∨ size < -330 then .finite negative 0 (-1074)
  else if 310 < size then .infinite negative
  else if 0 ≤ exponent then ofRatio negative (digits * Nat.pow 10 exponent.toNat) 1
  else ofRatio negative digits (Nat.pow 10 (-exponent).toNat)

/-- The exponent part of a decimal: nothing, or `e` and an integer. -/
def readExponent : List Char → Option Int
  | [] => some 0
  | c :: cs => if c = 'e' ∨ c = 'E' then readInt cs else none

/-- A decimal without its sign: digits on at least one side of an optional point, then the
exponent. -/
def readUnsigned (negative : Bool) (cs : List Char) : Option Double :=
  let whole := cs.takeWhile Char.isDigit
  let rest := cs.dropWhile Char.isDigit
  let (fraction, rest) :=
    match rest with
    | '.' :: more => (more.takeWhile Char.isDigit, more.dropWhile Char.isDigit)
    | _ => ([], rest)
  if whole = [] ∧ fraction = [] then none
  else do
    let exponent ← readExponent rest
    return ofDecimal negative (natOfDigits (whole ++ fraction)) (exponent - fraction.length)

/-- A number with at most one sign; the words for infinity and not-a-number count in any
letter case. -/
def read (cs : List Char) : Option Double :=
  let (negative, cs) :=
    match cs with
    | '-' :: rest => (true, rest)
    | '+' :: rest => (false, rest)
    | _ => (false, cs)
  if lower cs = "inf".toList ∨ lower cs = "infinity".toList then some (.infinite negative)
  else if lower cs = "nan".toList then some .nan
  else readUnsigned negative cs

/-! ## Classes -/

/-- Neither infinite nor not-a-number. -/
def isFinite : Double → Bool
  | .finite .. => true
  | _ => false

end Double

end Pathwise.Number
