import MarkupScene.Numeric.Floating

/-!
# Arithmetic and comparison

Each operation takes the exact result and rounds it once. The exceptional cases follow the
standard: an infinity less an infinity, a zero times an infinity, and the quotients of two
zeros or two infinities are not numbers, and a sum that cancels is positive zero. Comparison goes
by signed rank, so the two zeros are equal and nothing is equal to not-a-number.
-/
namespace MarkupScene.Numeric.Floating
variable {f : Format}

def neg : Floating f → Floating f
  | nan => nan
  | signed s rank => signed (!s) rank

def abs : Floating f → Floating f
  | nan => nan
  | signed _ rank => signed false rank

/-- A signed magnitude. -/
def signedUnits (negative : Bool) (m : Nat) : Int := if negative then -m else m

def add (x y : Floating f) : Floating f :=
  match x.parts, y.parts with
  | .nan, _ => nan
  | _, .nan => nan
  | .infinite s, .infinite t => if s = t then infinity s else nan
  | .infinite s, .finite .. => infinity s
  | .finite .., .infinite t => infinity t
  | .finite s m, .finite t n =>
    let sum := signedUnits s m + signedUnits t n
    if sum = 0 then ofUnits (s && t) 0 1 else ofUnits (sum < 0) sum.natAbs 1

def sub (x y : Floating f) : Floating f := add x (neg y)

def mul (x y : Floating f) : Floating f :=
  match x.parts, y.parts with
  | .nan, _ => nan
  | _, .nan => nan
  | .infinite s, .infinite t => infinity (s != t)
  | .infinite s, .finite t n => if n = 0 then nan else infinity (s != t)
  | .finite s m, .infinite t => if m = 0 then nan else infinity (s != t)
  | .finite s m, .finite t n => ofUnits (s != t) (m * n) f.scale

def div (x y : Floating f) : Floating f :=
  match x.parts, y.parts with
  | .nan, _ => nan
  | _, .nan => nan
  | .infinite _, .infinite _ => nan
  | .infinite s, .finite t _ => infinity (s != t)
  | .finite s _, .infinite t => signedZero (s != t)
  | .finite s m, .finite t n =>
    if n = 0 then
      if m = 0 then nan else infinity (s != t)
    else ofUnits (s != t) (m * f.scale) n

instance : Neg (Floating f) := ⟨neg⟩
instance : Add (Floating f) := ⟨add⟩
instance : Sub (Floating f) := ⟨sub⟩
instance : Mul (Floating f) := ⟨mul⟩
instance : Div (Floating f) := ⟨div⟩

/-- The place of a number in the order. -/
def key? : Floating f → Option Int
  | nan => none
  | signed s rank => some (signedUnits s rank)

/-- Whether both are numbers and their places are related. -/
def compareBy (r : Int → Int → Bool) (x y : Floating f) : Bool :=
  match x.key?, y.key? with
  | some a, some b => r a b
  | _, _ => false

def lt (x y : Floating f) : Bool := compareBy (· < ·) x y

/-- Equality as numbers: zero equals negative zero, and not-a-number equals nothing. -/
def same (x y : Floating f) : Bool := compareBy (· = ·) x y

/-- The greater of two numbers, and zero rather than negative zero; one that is not a number gives
way to the other. -/
def max (x y : Floating f) : Floating f :=
  match x, y with
  | nan, _ => y
  | _, nan => x
  | signed s rank, signed t _ =>
    if lt x y then y else if lt y x then x else signed (s && t) rank

/-- The number, or the bound that it passes. Not-a-number passes no bound. -/
def clamp (x low high : Floating f) : Floating f :=
  let raised := if lt x low then low else x
  if lt high raised then high else raised

/-- The nearest whole number, away from zero from the middle, with the sign kept. -/
def round (x : Floating f) : Floating f :=
  match x.parts with
  | .finite s m => ofFraction s ((2 * m + f.scale) / (2 * f.scale)) 1
  | _ => x

def isWhole (x : Floating f) : Bool :=
  match x.parts with
  | .finite _ m => m % f.scale = 0
  | _ => false

/-- The whole part as an integer, held within bounds; not-a-number gives zero. -/
def truncate (low high : Int) (x : Floating f) : Int :=
  match x.parts with
  | .nan => 0
  | .infinite s => if s then low else high
  | .finite s m => Max.max low (Min.min high (signedUnits s (m / f.scale)))

/-- The whole part as a signed word of four bytes. -/
def toWord (x : Floating f) : Int32 := .ofInt (truncate Int32.minValue.toInt Int32.maxValue.toInt x)

/-- The whole part as a byte. -/
def toByte (x : Floating f) : UInt8 := .ofNat (truncate 0 255 x).toNat

end MarkupScene.Numeric.Floating
