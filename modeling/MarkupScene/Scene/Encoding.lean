import MarkupScene.Json.Value
import MarkupScene.Scene.Node

/-!
# Scenes as JSON

A record is an object with its fields in a fixed order. On nodes and asset references an absent
option is left out; inside behaviors it is null. A behavior is the object of its record with the
name of its kind in front.
-/
namespace MarkupScene

open Json Numeric

namespace SizeMode

def choices : List (String × SizeMode) := [("Raw", raw), ("Custom", custom)]

def name : SizeMode → String
  | raw => "Raw"
  | custom => "Custom"

end SizeMode

namespace SpriteKind

def choices : List (String × SpriteKind) :=
  [("Simple", simple), ("Sliced", sliced), ("Tiled", tiled), ("Filled", filled)]

def name : SpriteKind → String
  | simple => "Simple"
  | sliced => "Sliced"
  | tiled => "Tiled"
  | filled => "Filled"

end SpriteKind

namespace Axis

def choices : List (String × Axis) := [("Horizontal", horizontal), ("Vertical", vertical)]

def name : Axis → String
  | horizontal => "Horizontal"
  | vertical => "Vertical"

end Axis

namespace HorizontalAlign

def choices : List (String × HorizontalAlign) :=
  [("Left", left), ("Center", center), ("Right", right)]

def name : HorizontalAlign → String
  | left => "Left"
  | center => "Center"
  | right => "Right"

end HorizontalAlign

namespace VerticalAlign

def choices : List (String × VerticalAlign) :=
  [("Top", top), ("Center", center), ("Bottom", bottom)]

def name : VerticalAlign → String
  | top => "Top"
  | center => "Center"
  | bottom => "Bottom"

end VerticalAlign

namespace Overflow

def choices : List (String × Overflow) := [("None", none), ("Clamp", clamp)]

def name : Overflow → String
  | none => "None"
  | clamp => "Clamp"

end Overflow

namespace ProgressMode

def choices : List (String × ProgressMode) :=
  [("Horizontal", horizontal), ("Vertical", vertical), ("Filled", filled)]

def name : ProgressMode → String
  | horizontal => "Horizontal"
  | vertical => "Vertical"
  | filled => "Filled"

end ProgressMode

def Color.encode (c : Color) : Value :=
  .object [("r", .ofNat c.red.toNat), ("g", .ofNat c.green.toNat), ("b", .ofNat c.blue.toNat),
    ("a", .ofNat c.alpha.toNat)]

def Point.encode (p : Point) : Value := .object [("x", .ofSingle p.x), ("y", .ofSingle p.y)]

def Size.encode (s : Size) : Value :=
  .object [("width", .ofSingle s.width), ("height", .ofSingle s.height)]

def AssetRef.encode (r : AssetRef) : Value :=
  .object (("path", .text r.path) :: memberOf? "frame" .text r.frame)

def PrefabRef.encode (r : PrefabRef) : Value := .object [("url", .text r.url)]

def Fill.encode (f : Fill) : Value :=
  .object [("direction", .text f.direction.name), ("start", .ofSingle f.start),
    ("range", .ofSingle f.range)]

namespace Behavior

def spriteFields (s : Sprite) : List (String × Value) :=
  [("frame", .ofOption AssetRef.encode s.frame), ("size_mode", .text s.sizeMode.name),
    ("sprite_type", .text s.kind.name), ("fill", .ofOption Fill.encode s.fill)]

def labelFields (l : Label) : List (String × Value) :=
  [("text", .text l.text), ("horizontal_align", .text l.horizontalAlign.name),
    ("vertical_align", .text l.verticalAlign.name), ("font_size", .ofSingle l.fontSize),
    ("line_height", .ofSingle l.lineHeight), ("color", l.color.encode),
    ("overflow", .text l.overflow.name), ("font", .ofOption AssetRef.encode l.font),
    ("bold", .bool l.bold), ("italic", .bool l.italic)]

def scrollBarFields (b : ScrollBar) : List (String × Value) :=
  [("direction", .text b.direction.name), ("handle", .ofOption .text b.handle),
    ("auto_hide", .bool b.autoHide)]

def scrollViewFields (v : ScrollView) : List (String × Value) :=
  [("horizontal", .bool v.horizontal), ("vertical", .bool v.vertical),
    ("inertia", .bool v.inertia), ("elastic", .bool v.elastic),
    ("content", .ofOption .text v.content),
    ("horizontal_scroll_bar", .ofOption .text v.horizontalScrollBar),
    ("vertical_scroll_bar", .ofOption .text v.verticalScrollBar)]

def maskFields (m : Mask) : List (String × Value) := [("inverted", .bool m.inverted)]

def progressBarFields (b : ProgressBar) : List (String × Value) :=
  [("mode", .text b.mode.name), ("bar", .ofOption .text b.bar),
    ("total_length", .ofSingle b.totalLength), ("progress", .ofSingle b.progress),
    ("reverse", .bool b.reverse)]

def editBoxFields (e : EditBox) : List (String × Value) :=
  [("text", .text e.text), ("placeholder", .text e.placeholder),
    ("font_size", .ofSingle e.fontSize), ("font_color", e.fontColor.encode),
    ("placeholder_font_size", .ofSingle e.placeholderFontSize),
    ("placeholder_color", e.placeholderColor.encode),
    ("background", .ofOption AssetRef.encode e.background),
    ("max_length", .integer e.maxLength.toInt), ("password", .bool e.password)]

def fields : Behavior → List (String × Value)
  | sprite s => spriteFields s
  | label l => labelFields l
  | scrollBar b => scrollBarFields b
  | scrollView v => scrollViewFields v
  | mask m => maskFields m
  | progressBar b => progressBarFields b
  | editBox e => editBoxFields e

def encode (b : Behavior) : Value := .object (("type", .text b.kind.name) :: b.fields)

end Behavior

def Constraint.encode (c : Constraint) : Value :=
  .object [("align_left", .bool c.alignLeft), ("align_right", .bool c.alignRight),
    ("align_top", .bool c.alignTop), ("align_bottom", .bool c.alignBottom),
    ("align_horizontal_center", .bool c.alignHorizontalCenter),
    ("align_vertical_center", .bool c.alignVerticalCenter), ("left", .ofSingle c.left),
    ("right", .ofSingle c.right), ("top", .ofSingle c.top), ("bottom", .ofSingle c.bottom)]

def Body.fields (b : Body) : List (String × Value) :=
  ("name", .text b.name) :: memberOf? "widget" .text b.widget ++
    [("size", b.size.encode), ("anchor", b.anchor.encode), ("position", b.position.encode),
      ("rotation", .ofSingle b.rotation), ("scale_x", .ofSingle b.scaleX),
      ("scale_y", .ofSingle b.scaleY), ("opacity", .ofNat b.opacity.toNat),
      ("active", .bool b.active)] ++
    memberOf? "width_percent" .ofSingle b.widthPercent ++
    memberOf? "height_percent" .ofSingle b.heightPercent ++
    memberOf? "skin" PrefabRef.encode b.skin ++
    memberOf? "constraint" Constraint.encode b.constraint ++
    [("behaviors", .array (b.behaviors.map Behavior.encode))]

namespace Node

mutual

def encode : Node → Value
  | ⟨body, children⟩ => .object (body.fields ++ [("children", .array (encodeAll children))])

def encodeAll : List Node → List Value
  | [] => []
  | c :: rest => encode c :: encodeAll rest

end

end Node

end MarkupScene
