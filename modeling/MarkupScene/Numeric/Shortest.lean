import MarkupScene.Numeric.Decimal

/-!
# Shortest digits

The text of a number has the fewest digits that read back as the number, and of those the digits
nearest to it. The decimals that read back form an interval around the number: it ends halfway
to the neighbouring magnitudes, and the ends belong to it when the rank is even. A decimal grid
has a point in the interval if and only if one of the two points next to the number is in it, so
each grid is tried on two points, from the coarsest grid to the finest.
-/
namespace MarkupScene.Numeric

/-- The positive decimal `significand * 10 ^ exponent`; the significand ends in a digit other
than zero. -/
structure Digits where
  significand : Nat
  exponent : Int
deriving DecidableEq, Repr

namespace Digits

/-- Zeros at the end of a significand go into the exponent; at most `fuel` of them. -/
def strip (fuel : Nat) (d : Digits) : Digits :=
  match fuel with
  | 0 => d
  | fuel + 1 =>
    if d.significand % 10 = 0 then strip fuel ⟨d.significand / 10, d.exponent + 1⟩ else d

/-- The point of two neighbours on a grid that is nearer to `num / den`; `lower` is the lower
neighbour, and a tie goes to the even point or upwards. -/
def nearer (tiesToEven : Bool) (num den lower : Nat) : Nat :=
  let r := num - lower * den
  if 2 * r < den then lower
  else if den < 2 * r then lower + 1
  else if tiesToEven then lower + lower % 2 else lower + 1

/-- The factors of a grid of step `10 ^ exponent`: the step is their quotient. -/
def step (exponent : Int) : Nat × Nat :=
  match exponent with
  | .ofNat e => (Nat.pow 10 e, 1)
  | .negSucc e => (1, Nat.pow 10 (e + 1))

/-- The best point of the grid of step `10 ^ exponent` that reads back as the rank. -/
def onGrid? (f : Format) (tiesToEven : Bool) (rank : Nat) (exponent : Int) : Option Nat :=
  let (up, down) := step exponent
  let unit := up * f.scale
  let value := f.units rank * down
  let low := (f.units (rank - 1) + f.units rank) * down
  let high := (f.units rank + f.units (rank + 1)) * down
  let closed := rank % 2 = 0
  let inside (point : Nat) : Bool :=
    let p := 2 * point * unit
    if closed then low ≤ p ∧ p ≤ high else low < p ∧ p < high
  let lower := value / unit
  match inside lower, inside (lower + 1) with
  | true, true => some (nearer tiesToEven value unit lower)
  | true, false => some lower
  | false, true => some (lower + 1)
  | false, false => none

/-- The coarsest of `count + 1` grids, each ten times finer than the one before, that has a
point which reads back. -/
def search (f : Format) (tiesToEven : Bool) (rank : Nat) (exponent : Int) : Nat → Digits
  | 0 => ⟨(onGrid? f tiesToEven rank exponent).getD 0, exponent⟩
  | count + 1 =>
    match onGrid? f tiesToEven rank exponent with
    | some point => ⟨point, exponent⟩
    | none => search f tiesToEven rank (exponent - 1) count

/-- The exponent of the leading decimal digit of a positive magnitude in units. -/
def leadingExponent (f : Format) (units : Nat) : Int :=
  let places := f.scale.log2 / 3 + 1
  (Decimal.digitCount (units * Nat.pow 10 places / f.scale) : Int) - 1 - places

/-- The shortest digits of a positive finite rank. The finest grid is finer than the units of
every rank, which is so after `fraction / 3 + 2` digits. -/
def ofRank (f : Format) (tiesToEven : Bool) (rank : Nat) : Digits :=
  let count := f.fraction / 3 + 2
  (search f tiesToEven rank (leadingExponent f (f.units rank)) count).strip (count + 1)

end Digits

/-- How digits become text. `usesExponent` decides on the number of places before the point,
which is not positive when the number is less than one. -/
structure Style where
  tiesToEven : Bool
  usesExponent : Int → Bool
  wholeSuffix : String

namespace Style

/-- Zeros as text. -/
def zeros (n : Nat) : String := .ofList (List.replicate n '0')

/-- Digits without an exponent. -/
def positional (style : Style) (d : Digits) : String :=
  let digits := toString d.significand
  match d.exponent with
  | .ofNat e => digits ++ zeros e ++ style.wholeSuffix
  | .negSucc e =>
    let places := e + 1
    let padded := if digits.length ≤ places then zeros (places + 1 - digits.length) ++ digits else digits
    let cs := padded.toList
    .ofList (cs.take (cs.length - places) ++ '.' :: cs.drop (cs.length - places))

/-- Digits with one of them before the point and the exponent with its sign. -/
def scientific (d : Digits) : String :=
  let cs := (toString d.significand).toList
  let exponent := d.exponent + (cs.length - 1 : Nat)
  let mantissa := match cs with
    | [] | [_] => cs
    | c :: rest => c :: '.' :: rest
  .ofList mantissa ++ (if exponent < 0 then "e-" else "e+") ++ toString exponent.natAbs

def digits (style : Style) (d : Digits) : String :=
  if style.usesExponent (d.exponent + Decimal.digitCount d.significand) then scientific d
  else style.positional d

/-- The text of a finite number; other numbers have no digits. -/
def text? {f : Format} (style : Style) (x : Floating f) : Option String :=
  match x with
  | .nan => none
  | .signed negative rank =>
    if rank.val = f.top then none
    else
      let magnitude :=
        if rank.val = 0 then "0" ++ style.wholeSuffix
        else style.digits (.ofRank f style.tiesToEven rank)
      some (if negative then "-" ++ magnitude else magnitude)

end Style

end MarkupScene.Numeric
