import MarkupScene.Json.Printer
import MarkupScene.Path.Basic
import MarkupScene.Scene.Decoding

/-!
# Prefabs

A prefab is what one markup file compiles to: the scene under its root, with the file that it
came from and the places where it goes, in the file tree and by address.
-/
namespace MarkupScene

open Json

structure Prefab where
  source : Path
  outputPath : Path
  url : String
  root : Node
deriving DecidableEq

namespace Prefab

/-- The file extension of stored prefabs. -/
def extension : String := "prefab"

def encode (p : Prefab) : Value :=
  .object [("source", .text p.source.text), ("outputPath", .text p.outputPath.text),
    ("url", .text p.url), ("root", p.root.encode)]

def decode? (v : Value) : Option Prefab := do
  let [source, outputPath, url, root] ← slots? ["source", "outputPath", "url", "root"] v | none
  return {
    source := ⟨← source.required Value.text?⟩
    outputPath := ⟨← outputPath.required Value.text?⟩
    url := ← url.required Value.text?
    root := ← root.required Node.decode? }

/-- The text of the file that a prefab is stored in. -/
def fileText (p : Prefab) : String := pretty singleNumber 0 p.encode

end Prefab

end MarkupScene
