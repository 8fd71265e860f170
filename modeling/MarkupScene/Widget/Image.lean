import MarkupScene.Widget.Importer

/-!
# Images

An image shows the asset named by `source`. Without a declared size the node takes the size of the
texture. A `scale9Grid` cuts the texture into nine parts and is written into the texture's
border; otherwise `fillMode` says whether the texture is repeated.
-/
namespace MarkupScene.Widget

open Numeric

variable {ω : Type}

/-- The sprite that the node has, or a plain one, with the asset of the element. -/
def sourcedSprite (scope : ImportScope ω) (e : Element) (n : Node) : Importing ω Sprite := do
  let sprite := n.sprite?.getD {}
  match e.filled? "source" with
  | some name => return { sprite with frame := ← scope.resolve name }
  | none => return sprite

/-- The size that a node without a declared one takes from its sprite. -/
def naturalSize (scope : ImportScope ω) (sprite : Sprite) (own : Size) : Importing ω Size :=
  match sprite.frame with
  | some asset => do
    let size ← ImportScope.ask (scope.locator.textureSize asset)
    return size.getD own
  | none => pure own

/-- What the element says about the way the sprite is drawn. -/
def spriteKind (e : Element) (grid : Option Rect) (own : SpriteKind) : SpriteKind :=
  match grid with
  | some _ => .sliced
  | none =>
    match e.attribute? "fillMode" with
    | some mode => if mode = "repeat" then .tiled else .simple
    | none => own

/-- Writes the border of a cut texture; a failure is of no consequence. -/
def writeBorder (scope : ImportScope ω) (sprite : Sprite) (grid : Option Rect) :
    Importing ω Unit :=
  match grid, sprite.frame with
  | some grid, some asset => do
    let _ ← ImportScope.ask (scope.locator.setBorder asset grid)
    return ()
  | _, _ => pure ()

def image : Importer ω := fun scope e n => do
  let sprite ← sourcedSprite scope e n
  let declared := e.declaresSize
  let size ← if declared then pure n.size else naturalSize scope sprite n.size
  let grid := (e.attribute? "scale9Grid").bind Rect.parse?
  writeBorder scope sprite grid
  let sprite := { sprite with
    sizeMode := if declared then .custom else .raw
    kind := spriteKind e grid sprite.kind }
  scope.attach { n with size } (.sprite sprite)

end MarkupScene.Widget
