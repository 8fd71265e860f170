import MarkupScene.Json.Value
import MarkupScene.Numeric.Decimal

/-!
# JSON numbers

A number without point and exponent that fits in eight bytes is an integer. Any other number is a
double, found in two steps that each round: the leading digits that fit in eight bytes become a
double, which is then multiplied or divided by powers of ten. The result lies within a few
neighbours of the nearest double, and is the nearest one when the digits and the power are exact
doubles. A magnitude that grows beyond every finite double has no value.
-/
namespace MarkupScene.Json

open Numeric Text

/-- The text of a number, cut into its parts. -/
structure NumberText where
  negative : Bool
  whole : List Char
  fraction : List Char
  exponent : Int
  /-- Whether there are whole digits alone. -/
  plain : Bool
deriving DecidableEq, Repr

namespace NumberText

/-- The parts of a number. Its whole part has a digit, and no zero before another digit; a point
has a digit after it. -/
def ofChars? (cs : List Char) : Option NumberText :=
  let (negative, unsigned) := match cs with
    | '-' :: rest => (true, rest)
    | _ => (false, cs)
  let (whole, afterWhole) := takeDigits unsigned
  let (fraction, afterFraction) := Decimal.scanFraction afterWhole
  let (exponent, rest) := Decimal.scanExponent afterFraction
  let wholeOk := match whole with
    | [] => false
    | c :: more => more.isEmpty || c ≠ '0'
  let fractionOk := afterWhole.head? ≠ some '.' || !fraction.isEmpty
  if wholeOk && fractionOk && rest.isEmpty then
    some { negative, whole, fraction, exponent, plain := afterWhole.isEmpty }
  else none

/-- The first number that is too great for eight bytes. -/
def wordLimit : Nat := UInt64.size

/-- The number with as many digits appended as fit in eight bytes, and how many these are. -/
def absorb (n : Nat) : List Char → Nat × Nat
  | [] => (n, 0)
  | c :: rest =>
    let longer := decimalValue [c] + n * 10
    if longer < wordLimit then
      let (m, count) := absorb longer rest
      (m, count + 1)
    else (n, 0)

/-- The digits that count and the power of ten that goes with them. Whole digits that do not fit
raise the power; fraction digits that do not fit are nothing. -/
def scientific (t : NumberText) : Nat × Int :=
  let (w, wholeCount) := absorb 0 t.whole
  let (s, fractionCount) := absorb w t.fraction
  (s, t.exponent + (t.whole.length - wholeCount : Nat) - fractionCount)

/-- The greatest power of ten that is taken at once. -/
def greatestStep : Nat := 308

def power (n : Nat) : Double := .ofNat (Nat.pow 10 n)

/-- A number over a power of ten, in steps. A zero needs no more of them. -/
def shrink (x : Double) (n : Nat) : Double :=
  if _h : n ≤ greatestStep then x / power n
  else if x.same 0 then x
  else shrink (x / power greatestStep) (n - greatestStep)
termination_by n
decreasing_by simp only [greatestStep] at *; omega

/-- A number times a power of ten, when the result is finite. -/
def grow? (x : Double) (n : Nat) : Option Double :=
  if n ≤ greatestStep then
    let y := x * power n
    if y.isFinite then some y else none
  else if x.same 0 then some x
  else none

/-- The double that a number stands for, when it is in range. -/
def toDouble? (t : NumberText) : Option Double :=
  let (s, exponent) := t.scientific
  let magnitude := match exponent with
    | .ofNat n => grow? (.ofNat s) n
    | .negSucc n => some (shrink (.ofNat s) (n + 1))
  magnitude.map fun x => if t.negative then -x else x

/-- The integer that a number stands for. Minus zero is none. -/
def toInteger? (t : NumberText) : Option Int :=
  let n := decimalValue t.whole
  if !t.plain then none
  else if !t.negative then if n < wordLimit then some n else none
  else if 0 < n ∧ n ≤ wordLimit / 2 then some (-n)
  else none

def value (t : NumberText) : Value :=
  match t.toInteger? with
  | some i => .integer i
  | none =>
    match t.toDouble? with
    | some x => .real x
    | none => .broken

end NumberText

end MarkupScene.Json
