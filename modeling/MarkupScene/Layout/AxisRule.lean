import MarkupScene.Layout.Placement
import MarkupScene.Scene.Node

/-!
# Constraints from placements

Each axis is decided on its own. A fraction of a known parent pins both edges: edges that are
given keep their distance, and a missing one takes what the fraction leaves, shared equally when
both are missing. Without such a fraction a center of zero centers the node, and otherwise
exactly the given edges are pinned.
-/
namespace MarkupScene

open Numeric

/-- What a placement says about one axis. -/
structure AxisInput where
  fraction : Option Single := none
  parent : Option Single := none
  start : Option Single := none
  finish : Option Single := none
  center : Option Single := none
deriving DecidableEq, Repr

/-- One axis of a constraint. -/
structure AxisRule where
  alignStart : Bool := false
  alignEnd : Bool := false
  start : Single := 0
  finish : Single := 0
  center : Bool := false
deriving DecidableEq, Repr

namespace AxisRule

/-- The distances from both edges when the fractions leave `remaining` points over. -/
def share (remaining : Single) : Option Single → Option Single → Single × Single
  | some s, some e => (s, e)
  | some s, none => (s, remaining - s)
  | none, some e => (remaining - e, e)
  | none, none => (remaining / 2, remaining / 2)

/-- The rule of an axis whose fraction or parent is unknown. -/
def ofEdges (start finish center : Option Single) : AxisRule :=
  if center.any (·.same 0) then { center := true }
  else
    { alignStart := start.isSome
      alignEnd := finish.isSome
      start := start.getD 0
      finish := finish.getD 0 }

def ofInput (i : AxisInput) : AxisRule :=
  match i.fraction, i.parent with
  | some fraction, some parent =>
    let (start, finish) := share (parent * (1 - fraction)) i.start i.finish
    { alignStart := true, alignEnd := true, start, finish }
  | _, _ => ofEdges i.start i.finish i.center

end AxisRule

namespace Placement

def horizontal (p : Placement) (parent : Option Size) : AxisInput where
  fraction := p.widthFraction?
  parent := parent.map (·.width)
  start := p.left
  finish := p.right
  center := p.horizontalCenter

def vertical (p : Placement) (parent : Option Size) : AxisInput where
  fraction := p.heightFraction?
  parent := parent.map (·.height)
  start := p.top
  finish := p.bottom
  center := p.verticalCenter

end Placement

def Constraint.ofRules (h v : AxisRule) : Constraint where
  alignLeft := h.alignStart
  alignRight := h.alignEnd
  alignTop := v.alignStart
  alignBottom := v.alignEnd
  alignHorizontalCenter := h.center
  alignVerticalCenter := v.center
  left := h.start
  right := h.finish
  top := v.start
  bottom := v.finish

/-- The constraint of a placement in a parent, none when it has neither edges nor fractions. -/
def Placement.constraint? (p : Placement) (parent : Option Size) : Option Constraint :=
  if p.hasEdges || p.widthFraction?.isSome || p.heightFraction?.isSome then
    some (.ofRules (.ofInput (p.horizontal parent)) (.ofInput (p.vertical parent)))
  else none

end MarkupScene
