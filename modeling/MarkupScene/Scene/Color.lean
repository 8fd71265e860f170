import MarkupScene.Text.Blank
import MarkupScene.Text.Digits
import MarkupScene.Text.Split

/-!
# Colors

A color literal is a hexadecimal number after `0x`, `0X` or `#`, or a decimal number. The low three
bytes of the number are red, green and blue, and the color is opaque.
-/
namespace MarkupScene

open Text

structure Color where
  red : UInt8
  green : UInt8
  blue : UInt8
  alpha : UInt8 := 255
deriving DecidableEq, Repr

namespace Color

def white : Color := { red := 255, green := 255, blue := 255 }

instance : Inhabited Color := ⟨white⟩

/-- The color of the low three bytes of a number. -/
def ofNumber (n : Nat) : Color where
  red := .ofNat (n / 0x10000)
  green := .ofNat (n / 0x100)
  blue := .ofNat n

/-- The hexadecimal digits of a literal, when it has a mark for them. -/
def hexadecimal? (s : List Char) : Option (List Char) :=
  match s with
  | '0' :: 'x' :: rest | '0' :: 'X' :: rest | '#' :: rest => some rest
  | _ => none

def parse? (s : String) : Option Color :=
  let trimmed := trimChars s.toList
  let number? := match hexadecimal? trimmed with
    | some digits => word? 16 digits
    | none => word? 10 trimmed
  number?.map ofNumber

end Color

end MarkupScene
