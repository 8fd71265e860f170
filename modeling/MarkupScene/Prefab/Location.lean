import MarkupScene.Json.Decode
import MarkupScene.Layout.Arrange
import MarkupScene.Prefab.Basic

/-!
# Prefab locations

The options say where the sources of a run lie, where its prefabs go, under which address they are
known, and how vertical coordinates are turned around. A prefab keeps the place of its source below
the source root, both in the output tree and in its address. A source that does not lie below the
source root goes to the top of both.
-/
namespace MarkupScene

open Json Text

structure Options where
  sourceRoot : Path := ⟨""⟩
  outputRoot : Path := ⟨""⟩
  targetUrl : String := "db://assets"
  yAxis : YAxis := .anchorOffset
deriving Inhabited

namespace Options

def axisChoices : List (String × YAxis) :=
  [("anchorOffset", .anchorOffset), ("parentFlip", .parentFlip)]

def decode? (v : Value) : Option Options := do
  let [sourceRoot, outputRoot, targetUrl, yAxis] ←
    slots? ["sourceRoot", "outputRoot", "targetUrl", "yAxis"] v | none
  return {
    sourceRoot := ⟨← sourceRoot.withDefault "" Value.text?⟩
    outputRoot := ⟨← outputRoot.withDefault "" Value.text?⟩
    targetUrl := ← targetUrl.withDefault "db://assets" Value.text?
    yAxis := ← yAxis.withDefault .anchorOffset (Value.choice? Value.isNull axisChoices) }

end Options

/-- Where a prefab goes. -/
structure PrefabLocation where
  path : Path
  url : String
deriving DecidableEq

namespace PrefabLocation

def trimSlashes (s : String) : String :=
  .ofList (s.toList.reverse.dropWhile (· = '/')).reverse

/-- The text of a component inside an address. -/
def segment : Path.Component → String
  | .root => "/"
  | .here => "."
  | .up => ".."
  | .name n => n

/-- The directory of a source, relative to the source root. -/
def directory (o : Options) (source : Path) : Path :=
  (source.parent?.bind fun dir => dir.relativeTo? o.sourceRoot).getD ⟨""⟩

def fileName (source : Path) : String := source.stem?.getD "" ++ "." ++ Prefab.extension

def ofSource (o : Options) (source : Path) : PrefabLocation where
  path := (o.outputRoot.join (directory o source)).join ⟨fileName source⟩
  url := (directory o source).components.foldl (fun url c => url ++ "/" ++ segment c)
    (trimSlashes o.targetUrl) ++ "/" ++ fileName source

end PrefabLocation

end MarkupScene
