import MarkupScene.Asset.Font
import MarkupScene.Asset.Table
import MarkupScene.Disk.Failure
import MarkupScene.Scene.Behavior

/-!
# Locators

A locator finds assets in the target library, knows their sizes, writes the borders of cut
textures and reads fonts. It may look at the state of the outside and change it. A symbolic name is
turned into a question to the locator by the asset table alone.
-/
namespace MarkupScene

open Text

/-- The services that assets need, over a state of the outside. -/
structure Locator (ω : Type) where
  resolve (path : String) (frame : Option String) : StateM ω (Option AssetRef)
  textureSize (asset : AssetRef) : StateM ω (Option Size)
  setBorder (asset : AssetRef) (grid : Rect) : StateM ω (Except Failure Unit)
  loadFont (asset : AssetRef) : StateM ω (Except Failure FontMetrics)

/-- A question to a locator. -/
structure AssetQuery where
  path : String
  frame : Option String
deriving DecidableEq, Repr

namespace AssetTable

/-- A frame of a sheet, when the sheet has a path. -/
def frameQuery? (t : AssetTable) (sheet frame : String) : Option AssetQuery :=
  (t.path? sheet).map fun path => ⟨path, some frame⟩

/-- What to ask for a name: the path of the name, else the frame that the name stands for, else
the frame that follows its last dot. -/
def query? (t : AssetTable) (name : String) : Option AssetQuery :=
  match t.path? name with
  | some path => some ⟨path, none⟩
  | none =>
    match t.frame? name with
    | some (sheet, frame) => t.frameQuery? sheet frame
    | none => (splitLast '.' name.toList).bind fun (sheet, frame) =>
      t.frameQuery? (.ofList sheet) (.ofList frame)

end AssetTable

end MarkupScene
