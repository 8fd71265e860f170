import MarkupScene.Numeric.Floating
import MarkupScene.Text.Digits

/-!
# Decimal numbers as text

A decimal is a sign, digits with at most one point among them, and an exponent of ten. Scanning
takes the longest decimal at the start of a text: the point needs a digit on one side of it, and
the letter of an exponent is taken only with a digit after it. A decimal is rounded to a binary
format once, from its exact value.
-/
namespace MarkupScene.Numeric

open MarkupScene.Text

/-- The value `significand * 10 ^ exponent` with a sign. -/
structure Decimal where
  negative : Bool
  significand : Nat
  exponent : Int
deriving DecidableEq, Repr

namespace Decimal

/-- A plus or a minus sign, when the text has one. -/
def scanSign : List Char → Bool × List Char
  | '-' :: rest => (true, rest)
  | '+' :: rest => (false, rest)
  | s => (false, s)

/-- The exponent at the start of a text, zero when there is none. -/
def scanExponent (s : List Char) : Int × List Char :=
  match s with
  | c :: rest =>
    if c = 'e' ∨ c = 'E' then
      let (negative, unsigned) := scanSign rest
      let (digits, after) := takeDigits unsigned
      if digits.isEmpty then (0, s)
      else (if negative then -(decimalValue digits : Int) else decimalValue digits, after)
    else (0, s)
  | [] => (0, s)

/-- The fraction digits at the start of a text, none when there is no point. -/
def scanFraction : List Char → List Char × List Char
  | '.' :: rest => takeDigits rest
  | s => ([], s)

/-- The longest decimal at the start of a text, and the rest. -/
def scan? (s : List Char) : Option (Decimal × List Char) :=
  let (negative, unsigned) := scanSign s
  let (whole, afterWhole) := takeDigits unsigned
  let (fraction, afterFraction) := scanFraction afterWhole
  if whole.isEmpty && fraction.isEmpty then none
  else
    let (exponent, rest) := scanExponent afterFraction
    some (⟨negative, decimalValue (whole ++ fraction), exponent - fraction.length⟩, rest)

/-- A text that is one decimal and nothing else. -/
def parse? (s : List Char) : Option Decimal :=
  match scan? s with
  | some (d, []) => some d
  | _ => none

/-- The number of decimal digits, zero for zero. -/
def digitCount (n : Nat) : Nat := if n = 0 then 0 else (Nat.toDigits 10 n).length

/-- The decimals that lie in reach of a format: those of at least `10 ^ reach` are infinite, and
those below `10 ^ -reach` are zero. The two-power `2 ^ 2 ^ exponent` exceeds the reciprocal of
half a unit and every finite magnitude, and a two-power is below the ten-power of its exponent. -/
def reach (f : Format) : Nat := Nat.pow 2 f.exponent

/-- The number of a format that is nearest to a decimal. -/
def toFloating {f : Format} (d : Decimal) : Floating f :=
  let magnitude := digitCount d.significand + d.exponent
  if d.significand = 0 ∨ magnitude < -(reach f : Int) then .signedZero d.negative
  else if (reach f : Int) < magnitude then .infinity d.negative
  else match d.exponent with
    | .ofNat e => .ofFraction d.negative (d.significand * Nat.pow 10 e) 1
    | .negSucc e => .ofFraction d.negative d.significand (Nat.pow 10 (e + 1))

end Decimal

namespace Floating
variable {f : Format}

/-- The names of the numbers that have no digits, in any case of letters. -/
def named? (s : List Char) : Option (Floating f) :=
  let (negative, name) := Decimal.scanSign s
  let name := String.ofList (name.map Char.toLower)
  if name = "inf" ∨ name = "infinity" then some (infinity negative)
  else if name = "nan" then some nan
  else none

/-- The number that a whole text writes, as a decimal or by name. -/
def parse? (s : List Char) : Option (Floating f) :=
  (Decimal.parse? s).map Decimal.toFloating <|> named? s

/-- The number that a text starts with. -/
def leading? (s : List Char) : Option (Floating f) :=
  (Decimal.scan? s).map fun (d, _) => d.toFloating

end Floating

end MarkupScene.Numeric
