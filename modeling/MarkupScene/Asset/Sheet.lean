import MarkupScene.Json.Decode
import MarkupScene.Scene.Geometry

/-!
# Sprite sheets

A sheet is a texture with named frames. The size of a frame is that of the picture before its
empty margins were cut off, and the size of what is left when nothing else is said.
-/
namespace MarkupScene

open Json Numeric Text

structure SheetFrame where
  x : Single := 0
  y : Single := 0
  width : Single := 0
  height : Single := 0
  offsetX : Single := 0
  offsetY : Single := 0
  sourceWidth : Option Single := none
  sourceHeight : Option Single := none
deriving DecidableEq, Repr

structure SpriteSheet where
  file : String := ""
  frames : Dictionary SheetFrame := .empty

namespace SheetFrame

def decode? (v : Value) : Option SheetFrame := do
  let [x, y, width, height, offsetX, offsetY, sourceWidth, sourceHeight] ←
    slots? ["x", "y", "w", "h", "offX", "offY", "sourceW", "sourceH"] v | none
  return {
    x := ← x.withDefault 0 Value.single?
    y := ← y.withDefault 0 Value.single?
    width := ← width.withDefault 0 Value.single?
    height := ← height.withDefault 0 Value.single?
    offsetX := ← offsetX.withDefault 0 Value.single?
    offsetY := ← offsetY.withDefault 0 Value.single?
    sourceWidth := ← sourceWidth.optionalOrDefault Value.single?
    sourceHeight := ← sourceHeight.optionalOrDefault Value.single? }

def sourceSize (f : SheetFrame) : Size where
  width := f.sourceWidth.getD f.width
  height := f.sourceHeight.getD f.height

end SheetFrame

namespace SpriteSheet

def decode? (v : Value) : Option SpriteSheet := do
  let [file, frames] ← slots? ["file", "frames"] v | none
  return {
    file := ← file.withDefault "" Value.text?
    frames := ← frames.withDefault .empty (Value.dictionary? SheetFrame.decode?) }

def frame? (s : SpriteSheet) (name : String) : Option SheetFrame := s.frames.get? name

end SpriteSheet

end MarkupScene
