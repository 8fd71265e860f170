import MarkupScene.Json.Decode
import MarkupScene.Text.Blank
import MarkupScene.Text.Split

/-!
# Asset tables

A manifest lists the assets of a project by name. An asset of type sheet also names the frames
that can be asked for without the sheet. A table holds the merged manifests of a run; the last
entry of a name counts, and an entry without a path counts as none.
-/
namespace MarkupScene

open Json Text

structure ManifestItem where
  name : String
  kind : String := ""
  url : String := ""
  subkeys : String := ""
deriving DecidableEq, Repr

structure Manifest where
  groups : List Value := []
  items : List ManifestItem := []

def ManifestItem.decode? (v : Value) : Option ManifestItem := do
  let [name, kind, url, subkeys] ← slots? ["name", "type", "url", "subkeys"] v | none
  return {
    name := ← name.required Value.text?
    kind := ← kind.withDefault "" Value.text?
    url := ← url.withDefault "" Value.text?
    subkeys := ← subkeys.withDefault "" Value.text? }

/-- A group may be any value without a broken part. -/
def Manifest.decodeGroup? (v : Value) : Option Value := if v.isSound then some v else none

def Manifest.decode? (v : Value) : Option Manifest := do
  let [groups, items] ← slots? ["groups", "resources"] v | none
  return {
    groups := ← groups.withDefault [] (Value.list? decodeGroup?)
    items := ← items.withDefault [] (Value.list? ManifestItem.decode?) }

/-- The frame names of an item, trimmed, without empty ones. -/
def ManifestItem.frames (i : ManifestItem) : List String :=
  ((pieces ',' i.subkeys.toList).map trimChars).filterMap fun cs =>
    if cs.isEmpty then none else some (.ofList cs)

structure AssetTable where
  paths : Dictionary String
  /-- The sheet and the frame that a name stands for. -/
  frames : Dictionary (String × String)

namespace AssetTable

def empty : AssetTable := { paths := .empty, frames := .empty }

instance : Inhabited AssetTable := ⟨empty⟩

def insert (t : AssetTable) (name path : String) : AssetTable :=
  { t with paths := t.paths.insert name path }

def insertFrame (t : AssetTable) (name sheet frame : String) : AssetTable :=
  { t with frames := t.frames.insert name (sheet, frame) }

/-- Takes in one item; an item without a name or a path is skipped. -/
def addItem (t : AssetTable) (i : ManifestItem) : AssetTable :=
  if i.name.isEmpty || i.url.isEmpty then t
  else
    let t := t.insert i.name i.url
    if i.kind = "sheet" then i.frames.foldl (fun t f => t.insertFrame f i.name f) t else t

def addManifest (t : AssetTable) (m : Manifest) : AssetTable := m.items.foldl addItem t

def path? (t : AssetTable) (name : String) : Option String :=
  (t.paths.get? name).filter fun p => !p.isEmpty

def frame? (t : AssetTable) (name : String) : Option (String × String) := t.frames.get? name

def size (t : AssetTable) : Nat := t.paths.size

end AssetTable

end MarkupScene
