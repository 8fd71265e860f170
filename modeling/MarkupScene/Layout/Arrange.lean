import MarkupScene.Layout.AxisRule

/-!
# Arranging a node

A placement and the size of the parent give a node its size, position, looks and constraint. A
dimension that is not declared is zero, except that a node copied from a skin keeps its own.
-/
namespace MarkupScene

open Numeric

/-- How a downward coordinate becomes an upward one. -/
inductive YAxis where
  | anchorOffset
  | parentFlip
deriving DecidableEq, Repr, Inhabited

def YAxis.place (axis : YAxis) (parentHeight y offset : Single) : Single :=
  match axis with
  | anchorOffset => offset - y
  | parentFlip => parentHeight - y + offset

/-- A dimension from what is declared, the parent's dimension and the node's own. -/
def dimension (declared : Option Length) (parent : Single) (inherits : Bool) (own : Single) :
    Single :=
  match declared with
  | some length => length.resolve parent
  | none => if inherits then own else 0

/-- The opacity of an alpha between zero and one. -/
def opacityOf (alpha : Single) : UInt8 := ((alpha.clamp 0 1) * 255).round.toByte

/-- A node as a placement puts it into a parent; a root has no parent. -/
def Node.arrange (n : Node) (axis : YAxis) (p : Placement) (parent : Option Size) : Node :=
  let outer := parent.getD {}
  { n with
    size :=
      { width := dimension p.width outer.width n.isSkinInstance n.size.width
        height := dimension p.height outer.height n.isSkinInstance n.size.height }
    widthPercent := p.widthFraction?
    heightPercent := p.heightFraction?
    anchor := topLeft
    position := { x := p.x - p.anchorOffsetX, y := axis.place outer.height p.y p.anchorOffsetY }
    opacity := opacityOf p.alpha
    scaleX := p.scaleX
    scaleY := p.scaleY
    rotation := p.rotation
    active := p.visible
    constraint := p.constraint? parent }

end MarkupScene
