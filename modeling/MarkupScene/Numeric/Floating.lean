/-!
# Binary floating-point numbers

A number of a format is not-a-number or a sign with a rank. The ranks count the magnitudes of
the format from zero upwards, without a gap: rank zero is zero, the last rank is infinity, and
a greater rank is a greater magnitude. Every finite magnitude is a whole number of units, where
the unit is the least positive magnitude, so that sums, products and quotients are exact
fractions of naturals before they are rounded. Rounding goes to the nearest magnitude and, from
the middle, to the even rank.
-/
namespace MarkupScene.Numeric

/-- A binary format, given by the widths of its fraction and its exponent. -/
structure Format where
  fraction : Nat
  exponent : Nat
deriving DecidableEq, Repr

namespace Format

/-- The four-byte format. -/
def single : Format := ⟨23, 8⟩

/-- The eight-byte format. -/
def double : Format := ⟨52, 11⟩

/-- The number of units in one. -/
def scale (f : Format) : Nat := Nat.pow 2 (Nat.pow 2 (f.exponent - 1) - 2 + f.fraction)

/-- The rank of infinity. -/
def top (f : Format) : Nat := (Nat.pow 2 f.exponent - 1) * Nat.pow 2 f.fraction

/-- The magnitude of a rank in units. On the rank of infinity it is the magnitude that would
follow the greatest finite one. -/
def units (f : Format) (rank : Nat) : Nat :=
  let binade := rank / Nat.pow 2 f.fraction
  let offset := rank % Nat.pow 2 f.fraction
  if binade = 0 then offset else (Nat.pow 2 f.fraction + offset) * Nat.pow 2 (binade - 1)

end Format

/-- The nearest natural to a fraction, the even one of two that are equally near. -/
def roundHalfEven (num den : Nat) : Nat :=
  let q := num / den
  let r := num % den
  if 2 * r < den then q else if den < 2 * r then q + 1 else q + q % 2

/-- The rank nearest to a fraction of units. In the binade of `2 ^ (fraction + shift)` units
neighbours lie `2 ^ shift` units apart, and the significand `m` of that binade has the rank
`shift * 2 ^ fraction + m`, also when rounding carries it into the next binade. -/
def Format.nearest (f : Format) (num den : Nat) : Fin (f.top + 1) :=
  let shift := (num / den).log2 - f.fraction
  let m := roundHalfEven num (den * Nat.pow 2 shift)
  ⟨min (shift * Nat.pow 2 f.fraction + m) f.top, by omega⟩

inductive Floating (f : Format) where
  | nan
  | signed (negative : Bool) (rank : Fin (f.top + 1))
deriving DecidableEq, Repr

abbrev Single := Floating .single
abbrev Double := Floating .double

/-- A number by what arithmetic needs of it: the magnitude is in units. -/
inductive Parts where
  | nan
  | infinite (negative : Bool)
  | finite (negative : Bool) (magnitude : Nat)
deriving DecidableEq, Repr

namespace Floating
variable {f : Format}

def signedZero (negative : Bool) : Floating f := signed negative ⟨0, Nat.succ_pos _⟩

def zero : Floating f := signedZero false

def infinity (negative : Bool) : Floating f := .signed negative (Fin.last _)

instance : Inhabited (Floating f) := ⟨zero⟩

def parts : Floating f → Parts
  | nan => .nan
  | signed s rank =>
    if rank.val = f.top then .infinite s else .finite s (f.units rank)

/-- The number nearest to a fraction of units with the given sign. -/
def ofUnits (negative : Bool) (num den : Nat) : Floating f :=
  .signed negative (f.nearest num den)

/-- The number nearest to a fraction with the given sign. -/
def ofFraction (negative : Bool) (num den : Nat) : Floating f :=
  ofUnits negative (num * f.scale) den

def ofNat (n : Nat) : Floating f := ofFraction false n 1

def ofInt (i : Int) : Floating f := ofFraction (i < 0) i.natAbs 1

instance (n : Nat) : OfNat (Floating f) n := ⟨ofNat n⟩

/-- The same number, or the nearest one, in another format. -/
def convert {g : Format} (x : Floating f) : Floating g :=
  match x.parts with
  | .nan => nan
  | .infinite s => infinity s
  | .finite s m => ofFraction s m f.scale

def isFinite (x : Floating f) : Bool :=
  match x.parts with
  | .finite .. => true
  | _ => false

end Floating

end MarkupScene.Numeric
