import MarkupScene.Scene.Color
import MarkupScene.Scene.Geometry

/-!
# Behaviors

A behavior gives a node its looks or its function. Sprites, labels and masks draw the node, and
a node has at most one of these three. Behaviors that need a descendant name it by the names on
the way down, joined by slashes. An asset is named by its path below the target root, and a frame
of a sheet by the frame's name as well. A prefab is named by the address under which it was stored.
-/
namespace MarkupScene

open Numeric

structure AssetRef where
  path : String
  frame : Option String := none
deriving DecidableEq, Repr, Inhabited

structure PrefabRef where
  url : String
deriving DecidableEq, Repr, Inhabited

inductive SizeMode where
  | raw
  | custom
deriving DecidableEq, Repr

inductive SpriteKind where
  | simple
  | sliced
  | tiled
  | filled
deriving DecidableEq, Repr

inductive Axis where
  | horizontal
  | vertical
deriving DecidableEq, Repr

structure Fill where
  direction : Axis
  start : Single
  range : Single
deriving DecidableEq, Repr

structure Sprite where
  frame : Option AssetRef := none
  sizeMode : SizeMode := .raw
  kind : SpriteKind := .simple
  fill : Option Fill := none
deriving DecidableEq, Repr

inductive HorizontalAlign where
  | left
  | center
  | right
deriving DecidableEq, Repr

inductive VerticalAlign where
  | top
  | center
  | bottom
deriving DecidableEq, Repr

/-- Whether a text stretches its node or is cut off at its sides. -/
inductive Overflow where
  | none
  | clamp
deriving DecidableEq, Repr

structure Label where
  text : String := ""
  horizontalAlign : HorizontalAlign := .left
  verticalAlign : VerticalAlign := .top
  fontSize : Single
  lineHeight : Single
  color : Color := .white
  overflow : Overflow := .none
  font : Option AssetRef := .none
  bold : Bool := false
  italic : Bool := false
deriving DecidableEq, Repr

structure ScrollBar where
  direction : Axis
  handle : Option String
  autoHide : Bool
deriving DecidableEq, Repr

structure ScrollView where
  horizontal : Bool
  vertical : Bool
  inertia : Bool
  elastic : Bool
  content : Option String
  horizontalScrollBar : Option String
  verticalScrollBar : Option String
deriving DecidableEq, Repr

structure Mask where
  inverted : Bool := false
deriving DecidableEq, Repr

inductive ProgressMode where
  | horizontal
  | vertical
  | filled
deriving DecidableEq, Repr

structure ProgressBar where
  mode : ProgressMode
  bar : Option String
  totalLength : Single
  progress : Single
  reverse : Bool
deriving DecidableEq, Repr

structure EditBox where
  text : String := ""
  placeholder : String := ""
  fontSize : Single
  fontColor : Color
  placeholderFontSize : Single
  placeholderColor : Color
  background : Option AssetRef := none
  /-- A limit of minus one is no limit. -/
  maxLength : Int32 := -1
  password : Bool := false
deriving DecidableEq, Repr

inductive Behavior where
  | sprite (s : Sprite)
  | label (l : Label)
  | scrollBar (b : ScrollBar)
  | scrollView (v : ScrollView)
  | mask (m : Mask)
  | progressBar (b : ProgressBar)
  | editBox (e : EditBox)
deriving DecidableEq, Repr

namespace Behavior

inductive Kind where
  | sprite
  | label
  | scrollBar
  | scrollView
  | mask
  | progressBar
  | editBox
deriving DecidableEq, Repr

def Kind.isRenderer : Kind → Bool
  | sprite | label | mask => true
  | _ => false

def Kind.name : Kind → String
  | sprite => "Sprite"
  | label => "Label"
  | scrollBar => "ScrollBar"
  | scrollView => "ScrollView"
  | mask => "Mask"
  | progressBar => "ProgressBar"
  | editBox => "EditBox"

def kind : Behavior → Kind
  | sprite _ => .sprite
  | label _ => .label
  | scrollBar _ => .scrollBar
  | scrollView _ => .scrollView
  | mask _ => .mask
  | progressBar _ => .progressBar
  | editBox _ => .editBox

def sprite? : Behavior → Option Sprite
  | sprite s => some s
  | _ => none

def label? : Behavior → Option Label
  | label l => some l
  | _ => none

def editBox? : Behavior → Option EditBox
  | editBox e => some e
  | _ => none

end Behavior

end MarkupScene
