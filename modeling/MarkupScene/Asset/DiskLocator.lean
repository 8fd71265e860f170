import MarkupScene.Asset.Locator
import MarkupScene.Asset.Picture.Gif
import MarkupScene.Asset.Picture.Jpeg
import MarkupScene.Asset.Picture.Png
import MarkupScene.Asset.Picture.Webp
import MarkupScene.Json.Printer
import MarkupScene.Prefab.Store

/-!
# Assets on disk

Assets are files below a root directory. The extension of a file says how its picture is stored, and
a file that cannot be read that way has no size. Sheets are read once and remembered. The border of a
texture is written into a companion file beside it, and that of a frame into the companion of the
sheet's texture under the name of the frame. A companion belongs to other tools as well, so what it
holds besides is kept; keys come out in ascending order.
-/
namespace MarkupScene

open Json Numeric Text

/-- The size of a picture in a file of the given path. -/
def Picture.size? (path : Path) (content : ByteArray) : Option PixelSize :=
  match (path.extension?.map fun e => e.map Char.toLower) with
  | some "png" => Png.size? content.toList
  | some "jpg" | some "jpeg" => Jpeg.size? content.toList
  | some "gif" => Gif.size? content.toList
  | some "webp" => Webp.size? content.toList
  | _ => none

namespace DiskLocator

def fullPath (root : Path) (path : String) : Path := root.join ⟨path⟩

/-- The sheet in a file, when it can be read. -/
def readSheet? (disk : Disk) (path : Path) : Option SpriteSheet :=
  match disk.readText path with
  | .ok text => (read? text).bind SpriteSheet.decode?
  | .error _ => none

/-- The sheet of a path, from memory when it was read before. -/
def sheet (root : Path) (path : String) : StateM World (Option SpriteSheet) := do
  let w ← get
  match w.sheets.lookup path with
  | some known => return known
  | none =>
    let loaded := readSheet? w.disk (fullPath root path)
    modify fun w => { w with sheets := (path, loaded) :: w.sheets }
    return loaded

def resolve (root : Path) (path : String) (frame : Option String) :
    StateM World (Option AssetRef) := do
  let w ← get
  if path.isEmpty || !w.disk.isFile (fullPath root path) then return none
  match frame with
  | none => return some { path }
  | some name =>
    let s ← sheet root path
    return (s.bind fun s => s.frame? name).map fun _ => { path, frame }

def textureSize (root : Path) (asset : AssetRef) : StateM World (Option Size) := do
  match asset.frame with
  | some name =>
    let s ← sheet root asset.path
    return (s.bind fun s => s.frame? name).map SheetFrame.sourceSize
  | none =>
    let path := fullPath root asset.path
    match (← get).disk.readBytes path with
    | .ok content =>
      return (Picture.size? path content).map fun s => ⟨.ofNat s.width, .ofNat s.height⟩
    | .error _ => return none

/-- The path of the texture that a sheet is cut from, relative to the root. -/
def sheetTexture (sheetPath : String) (s : SpriteSheet) : Path :=
  (((⟨sheetPath⟩ : Path).parent?).getD ⟨""⟩).join ⟨s.file⟩

/-- The companion of an asset file. -/
def companion (root : Path) (path : String) : Path := ⟨(fullPath root path).text ++ ".meta"⟩

/-- The file whose companion holds the border of an asset. -/
def borderOwner (root : Path) (asset : AssetRef) : StateM World String := do
  match asset.frame with
  | none => return asset.path
  | some _ =>
    match ← sheet root asset.path with
    | some s => return (sheetTexture asset.path s).text
    | none => return asset.path

/-- The members of a companion file; one that cannot be read has none. -/
def companionMembers (disk : Disk) (path : Path) : Dictionary Value :=
  match disk.readText path with
  | .ok text =>
    match (read? text).bind Value.settle? with
    | some (.object members) => .ofList members
    | _ => .empty
  | .error _ => .empty

def borderValue (i : Insets) : Value :=
  .object [("bottom", .ofSingle i.bottom), ("left", .ofSingle i.left),
    ("right", .ofSingle i.right), ("top", .ofSingle i.top)]

/-- Puts a border under the name of a frame; a member of another shape is left alone. -/
def putFrameBorder (members : Dictionary Value) (frame : String) (border : Value) :
    Dictionary Value :=
  let entry : Value := .object [("border", border)]
  match members.get? "subMetas" with
  | none => members.insert "subMetas" (.object [(frame, entry)])
  | some (.object frames) =>
    members.insert "subMetas" (.object ((Dictionary.ofList frames).insert frame entry).entries)
  | some _ => members

/-- The members of a companion with a border put in. -/
def putBorder (members : Dictionary Value) (frame : Option String) (border : Value) :
    Dictionary Value :=
  match frame with
  | none => members.insert "border" border
  | some name => putFrameBorder members name border

def setBorder (root : Path) (asset : AssetRef) (grid : Rect) :
    StateM World (Except Failure Unit) := do
  let texture := (← textureSize root asset).getD ⟨grid.right, grid.bottom⟩
  let path := companion root (← borderOwner root asset)
  let w ← get
  let members := putBorder (companionMembers w.disk path) asset.frame
    (borderValue (grid.insetsWithin texture))
  match w.disk.writeText path (pretty dataNumber 0 (.object members.entries)) with
  | .ok disk =>
    set { w with disk }
    return .ok ()
  | .error fault => return .error (.disk path fault)

/-- The metrics of a font file in either format. -/
def fontMetrics (path : Path) (text : String) : Except Failure FontMetrics :=
  match BitmapFont.classicMetrics? text with
  | some metrics => .ok metrics
  | none =>
    match (read? text).bind (BitmapFont.decode? (path.stem?.getD "")) with
    | some font => .ok font.metrics
    | none => .error (.json path)

def loadFont (root : Path) (asset : AssetRef) : StateM World (Except Failure FontMetrics) := do
  let path := fullPath root asset.path
  match (← get).disk.readText path with
  | .ok text => return fontMetrics path text
  | .error fault => return .error (.disk path fault)

/-- The locator of the assets below a root. -/
def locator (root : Path) : Locator World where
  resolve := resolve root
  textureSize := textureSize root
  setBorder := setBorder root
  loadFont := loadFont root

end DiskLocator

end MarkupScene
