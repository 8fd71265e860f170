import MarkupScene.Scene.Color
import MarkupScene.Markup.Element
import MarkupScene.Numeric.Arithmetic
import MarkupScene.Numeric.Decimal

/-!
# Reading attributes

Attributes are read by name and type with a default. An empty attribute counts as a missing one
for texts and flags; a number is what the trimmed attribute starts with, so that units after it
do no harm.
-/
namespace MarkupScene

open Numeric Text

/-- The number that a text starts with, after blanks. -/
def leadingNumber? (s : String) : Option Single := Floating.leading? (trimChars s.toList)

namespace Element

/-- The attribute, when it is not empty. -/
def filled? (e : Element) (name : String) : Option String :=
  (e.attribute? name).filter fun v => !v.isEmpty

def textOr (e : Element) (name default : String) : String := (e.filled? name).getD default

/-- The first of several attributes that is not empty. -/
def firstFilled? (e : Element) (names : List String) : Option String :=
  names.findSome? e.filled?

def single? (e : Element) (name : String) : Option Single :=
  (e.attribute? name).bind leadingNumber?

def singleOr (e : Element) (name : String) (default : Single) : Single :=
  (e.single? name).getD default

def wordOr (e : Element) (name : String) (default : Int32) : Int32 :=
  ((e.single? name).map Floating.toWord).getD default

/-- A flag is set by the word true in any case of letters. -/
def isTrue (s : String) : Bool := (trimChars s.toList).map Char.toLower = "true".toList

def flagOr (e : Element) (name : String) (default : Bool) : Bool :=
  ((e.filled? name).map isTrue).getD default

def color? (e : Element) (name : String) : Option Color := (e.attribute? name).bind Color.parse?

/-- The attributes that can give a width, in order of preference. -/
def widthNames : List String := ["width", "minWidth", "maxWidth"]

/-- The attributes that can give a height, in order of preference. -/
def heightNames : List String := ["height", "minHeight", "maxHeight"]

/-- Whether an attribute for a dimension is filled in. -/
def declaresSize (e : Element) : Bool :=
  (e.firstFilled? widthNames).isSome || (e.firstFilled? heightNames).isSome

end Element

end MarkupScene
