import MarkupScene.Widget.Importer

/-!
# Scroll bars and scrollers

The handle of a scroll bar is its descendant `thumb`, which stretches with what is scrolled. A
scroller scrolls its descendant `viewport`, or else its first container, and is a mask as well. A
viewport without a width or a height takes the scroller's.
-/
namespace MarkupScene.Widget

open Numeric

variable {ω : Type}

def stretchSprite (n : Node) : Node := n.mapSprite fun s => { s with sizeMode := .custom }

def scrollBar (direction : Axis) : Importer ω := fun scope e n =>
  let thumb := n.findNamed? "thumb"
  let n := match thumb with
    | some way => n.modifyAt stretchSprite way
    | none => n
  scope.attach n (.scrollBar {
    direction
    handle := thumb.map n.namePath
    autoHide := e.flagOr "autoVisibility" true })

/-- The widgets that can hold what a scroller scrolls. -/
def containers : List String := ["Group", "DataGroup", "List", "TabBar", "ViewStack"]

def isContainer (n : Node) : Bool := n.widget.any containers.contains

def viewport? (n : Node) : Option (List Nat) := n.findNamed? "viewport" <|> n.find? isContainer

/-- A side of zero gives way to the outer one. -/
def fillSize (outer inner : Size) : Size where
  width := if inner.width.same 0 then outer.width else inner.width
  height := if inner.height.same 0 then outer.height else inner.height

/-- The path of the bar with a name, when its direction scrolls. -/
def barPath? (n : Node) (scrolls : Bool) (name : String) : Option String :=
  if scrolls then (n.findNamed? name).map n.namePath else none

def scroller : Importer ω := fun scope e n => do
  let horizontal := e.textOr "scrollPolicyH" "auto" ≠ "off"
  let vertical := e.textOr "scrollPolicyV" "auto" ≠ "off"
  let way := viewport? n
  let filled := match way with
    | some way => n.modifyAt (fun c => { c with size := fillSize n.size c.size }) way
    | none => n
  let attached ← scope.attach filled (.scrollView {
    horizontal
    vertical
    inertia := (0 : Single).lt (e.singleOr "throwSpeed" 0)
    elastic := e.flagOr "bounces" true
    content := way.map n.namePath
    horizontalScrollBar := barPath? n horizontal "horizontalScrollBar"
    verticalScrollBar := barPath? n vertical "verticalScrollBar" })
  scope.attach attached (.mask {})

end MarkupScene.Widget
