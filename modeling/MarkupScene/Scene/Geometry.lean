import MarkupScene.Numeric.Arithmetic
import MarkupScene.Numeric.Decimal
import MarkupScene.Text.Blank
import MarkupScene.Text.Split

/-!
# Geometry

Points, sizes and rectangles in single precision. A grid that cuts a texture into nine parts is
the rectangle of its middle part; its insets are the distances of that part from the four sides
of the texture, none below zero.
-/
namespace MarkupScene

open Numeric Text

structure Point where
  x : Single := 0
  y : Single := 0
deriving DecidableEq, Repr, Inhabited

structure Size where
  width : Single := 0
  height : Single := 0
deriving DecidableEq, Repr, Inhabited

/-- Whether both sides equal zero, of either sign. -/
def Size.isZero (s : Size) : Bool := s.width.same 0 && s.height.same 0

structure Rect where
  x : Single
  y : Single
  width : Single
  height : Single
deriving DecidableEq, Repr

structure Insets where
  top : Single
  bottom : Single
  left : Single
  right : Single
deriving DecidableEq, Repr

namespace Rect

def right (r : Rect) : Single := r.x + r.width

def bottom (r : Rect) : Single := r.y + r.height

/-- Four numbers between commas, with blanks around them. -/
def parse? (s : String) : Option Rect :=
  match (pieces ',' s.toList).mapM fun n => Floating.parse? (trimChars n) with
  | some [x, y, width, height] => some ⟨x, y, width, height⟩
  | _ => none

/-- The insets of a middle part within a texture. -/
def insetsWithin (grid : Rect) (texture : Size) : Insets where
  top := grid.y.max 0
  bottom := (texture.height - grid.bottom).max 0
  left := grid.x.max 0
  right := (texture.width - grid.right).max 0

end Rect

end MarkupScene
