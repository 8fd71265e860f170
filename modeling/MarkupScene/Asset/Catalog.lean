import MarkupScene.Asset.Locator
import MarkupScene.Prefab.Store

/-!
# Catalogs

A catalog is a locator that answers from fixed tables and keeps the borders it was asked for. The
open locator finds every asset and knows nothing about any of them.
-/
namespace MarkupScene

open Text

structure Catalog where
  textures : Dictionary Size := .empty
  frames : Dictionary (Dictionary Size) := .empty
  fonts : Dictionary FontMetrics := .empty
  refusesBorders : Bool := false

namespace Catalog

def frameSize? (c : Catalog) (path frame : String) : Option Size :=
  (c.frames.get? path).bind fun frames => frames.get? frame

def resolve (c : Catalog) (path : String) (frame : Option String) : Option AssetRef :=
  match frame with
  | none =>
    if (c.textures.get? path).isSome || (c.fonts.get? path).isSome then some { path } else none
  | some f => (c.frameSize? path f).map fun _ => { path, frame }

def textureSize (c : Catalog) (asset : AssetRef) : Option Size :=
  match asset.frame with
  | none => c.textures.get? asset.path
  | some f => c.frameSize? asset.path f

def locator (c : Catalog) : Locator World where
  resolve path frame := pure (c.resolve path frame)
  textureSize asset := pure (c.textureSize asset)
  setBorder asset grid := do
    modify fun w => { w with borders := w.borders ++ [(asset, grid)] }
    return if c.refusesBorders then .error (.store "borders are refused") else .ok ()
  loadFont asset := pure <|
    match c.fonts.get? asset.path with
    | some metrics => .ok metrics
    | none => .error (.store "no such font")

end Catalog

namespace Locator

def openLocator {ω : Type} : Locator ω where
  resolve path frame := pure (some { path, frame })
  textureSize _ := pure none
  setBorder _ _ := pure (.ok ())
  loadFont _ := pure (.error (.store "no fonts"))

end Locator

end MarkupScene
