import Pathwise.Number.Double

/-!
# Pathwise.Number.Shortest

Decimal text of positive finite doubles. An integer is written with all its
digits and one zero behind the point. Any other number is written with the
fewest digits that read back as the same double, never with an exponent; of two
such texts the nearer one is taken, of two equally near the greater.
-/

namespace Pathwise.Number

/-- `digits` with a point before the last `places` of them. -/
def withPoint (digits places : Nat) : String :=
  let cs := Nat.toDigits 10 digits
  let cs := List.replicate (places + 1 - cs.length) '0' ++ cs
  String.ofList (cs.take (cs.length - places)) ++ "." ++
    String.ofList (cs.drop (cs.length - places))

/-- The decimal with `places` digits behind the point that is nearest to `m / 2 ^ k`, if it
reads back. Texts within half a unit of `m` read back; below a power of two the next double is
only half as far, the least power apart, and the ends of the interval belong to an even `m`. -/
def candidate? (m k places : Nat) : Option Nat :=
  let unit := Nat.pow 10 places
  let num := m * unit
  let den := Nat.pow 2 k
  let below := num / den
  let under := num - below * den
  let above := (below + 1) * den - num
  let within (distance width : Nat) : Bool :=
    if m % 2 = 0 then distance ≤ width else distance < width
  let low := within (2 * under * (if m = Nat.pow 2 52 ∧ k < 1074 then 2 else 1)) unit && 0 < below
  let high := within (2 * above) unit
  match low, high with
  | true, true => some (if under < above then below else below + 1)
  | true, false => some below
  | false, true => some (below + 1)
  | false, false => none

/-- The first number of places, from `places` on, that has a candidate. -/
def shortestFrom (m k : Nat) : (fuel places : Nat) → String
  | 0, places => withPoint (m * Nat.pow 10 places / Nat.pow 2 k) places
  | fuel + 1, places =>
    match candidate? m k places with
    | some digits => withPoint digits places
    | none => shortestFrom m k fuel (places + 1)

/-- Text of `m * 2 ^ e`. With `k` places behind the point a fraction `m / 2 ^ k` is exact. -/
def Double.magnitudeText (m : Nat) (e : Int) : String :=
  if 0 ≤ e then toString (m * Nat.pow 2 e.toNat) ++ ".0"
  else
    let k := (-e).toNat
    if m % Nat.pow 2 k = 0 then toString (m / Nat.pow 2 k) ++ ".0"
    else shortestFrom m k k 0

end Pathwise.Number
