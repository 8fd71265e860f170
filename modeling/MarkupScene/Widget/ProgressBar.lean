import MarkupScene.Numeric.Arithmetic
import MarkupScene.Numeric.Shortest
import MarkupScene.Widget.Importer

/-!
# Progress bars

The descendant `thumb` of a progress bar is filled in proportion to `value` and `maximum`, from
its far end when the direction runs right to left or top to bottom. The descendant `labelDisplay`
shows both numbers: whole numbers below a billion without a point, and all others by their shortest
digits without an exponent.
-/
namespace MarkupScene

open Numeric

/-- Shortest digits, never with an exponent; a tie goes upwards. -/
def amountStyle : Style where
  tiesToEven := false
  usesExponent _ := false
  wholeSuffix := ""

/-- A billion, from which on amounts are no longer written as integers. -/
def amountLimit : Single := .ofNat 1000000000

def amountText (x : Single) : String :=
  if x.isWhole && x.abs.lt amountLimit then toString (x.truncate Int64.minValue.toInt Int64.maxValue.toInt)
  else match amountStyle.text? x with
    | some text => text
    | none =>
      match x with
      | .nan => "NaN"
      | .signed negative _ => if negative then "-inf" else "inf"

namespace Widget

variable {ω : Type}

def isReverse (direction : String) : Bool := direction = "rtl" || direction = "ttb"

def isVertical (direction : String) : Bool := direction = "ttb" || direction = "btt"

/-- The rounded value as a part of the maximum, between zero and one. -/
def progressOf (value maximum : Single) : Single :=
  if (0 : Single).lt maximum then (value.round / maximum).clamp 0 1 else 0

/-- The fill of a thumb. From the far end the range counts backwards. -/
def fillOf (vertical reverse : Bool) (progress : Single) : Fill where
  direction := if vertical then .vertical else .horizontal
  start := if reverse then 1 else 0
  range := if reverse then -progress else progress

def lengthAlong (vertical : Bool) (s : Size) : Single := if vertical then s.height else s.width

def fillSprite (fill : Fill) (n : Node) : Node :=
  n.mapSprite fun s => { s with kind := .filled, fill := some fill }

def progressBar : Importer ω := fun scope e n =>
  let direction := e.textOr "direction" "ltr"
  let reverse := isReverse direction
  let vertical := isVertical direction
  let value := e.singleOr "value" 0
  let maximum := e.singleOr "maximum" 100
  let progress := progressOf value maximum
  let thumb := n.findNamed? "thumb"
  let measured := (thumb.bind n.descendant?).getD n
  let filled := match thumb with
    | some way => n.modifyAt (fillSprite (fillOf vertical reverse progress)) way
    | none => n
  let labeled := match filled.findNamed? "labelDisplay" with
    | some way =>
      let text := amountText value ++ " / " ++ amountText maximum
      filled.modifyAt (Node.mapLabel fun l => { l with text }) way
    | none => filled
  scope.attach labeled (.progressBar {
    mode := .filled
    bar := thumb.map n.namePath
    totalLength := lengthAlong vertical measured.size
    progress
    reverse })

end Widget

end MarkupScene
