import MarkupScene.Markup.Reading

/-!
# Placements

What the attributes of an element say about its size and place. A dimension comes from the first
of its attributes that is filled in. It is a number of points or, when its text ends in a percent
sign, a fraction of the parent's length.
-/
namespace MarkupScene

open Numeric Text

inductive Length where
  | points (x : Single)
  | percent (fraction : Single)
deriving DecidableEq, Repr

namespace Length

def parse? (s : String) : Option Length :=
  let trimmed := trimChars s.toList
  (Floating.leading? trimmed).map fun value =>
    if trimmed.getLast? = some '%' then percent (value / 100) else points value

def resolve (parent : Single) : Length → Single
  | points x => x
  | percent fraction => fraction * parent

def fraction? : Length → Option Single
  | points _ => none
  | percent fraction => some fraction

end Length

structure Placement where
  width : Option Length := none
  height : Option Length := none
  x : Single := 0
  y : Single := 0
  anchorOffsetX : Single := 0
  anchorOffsetY : Single := 0
  alpha : Single := 1
  scaleX : Single := 1
  scaleY : Single := 1
  rotation : Single := 0
  visible : Bool := true
  left : Option Single := none
  right : Option Single := none
  top : Option Single := none
  bottom : Option Single := none
  horizontalCenter : Option Single := none
  verticalCenter : Option Single := none
deriving DecidableEq, Repr

namespace Placement

def ofElement (e : Element) : Placement where
  width := (e.firstFilled? Element.widthNames).bind Length.parse?
  height := (e.firstFilled? Element.heightNames).bind Length.parse?
  x := e.singleOr "x" 0
  y := e.singleOr "y" 0
  anchorOffsetX := e.singleOr "anchorOffsetX" 0
  anchorOffsetY := e.singleOr "anchorOffsetY" 0
  alpha := e.singleOr "alpha" 1
  scaleX := e.singleOr "scaleX" 1
  scaleY := e.singleOr "scaleY" 1
  rotation := e.singleOr "rotation" 0
  visible := e.flagOr "visible" true
  left := e.single? "left"
  right := e.single? "right"
  top := e.single? "top"
  bottom := e.single? "bottom"
  horizontalCenter := e.single? "horizontalCenter"
  verticalCenter := e.single? "verticalCenter"

def widthFraction? (p : Placement) : Option Single := p.width.bind Length.fraction?

def heightFraction? (p : Placement) : Option Single := p.height.bind Length.fraction?

/-- Whether any edge or center is given. -/
def hasEdges (p : Placement) : Bool :=
  p.left.isSome || p.right.isSome || p.top.isSome || p.bottom.isSome ||
    p.horizontalCenter.isSome || p.verticalCenter.isSome

end Placement

end MarkupScene
