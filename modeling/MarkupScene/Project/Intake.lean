import MarkupScene.Asset.Font
import MarkupScene.Asset.Table
import MarkupScene.Disk.Failure
import MarkupScene.Project.Classify
import MarkupScene.Skin.Table

/-!
# Taking in a resource tree

The tree below a source directory is walked in ascending order of names, and directories of the
same names are made below a target. Each file plays a role: markup and configuration documents
are only noted, fonts in the JSON form are written in the classic form, and every other file is
copied. A name that is taken in the target is left alone, and so is a document that looks like a
configuration and cannot be decoded as one.
-/
namespace MarkupScene

open Json

/-- What becomes of a file. -/
inductive FileRole where
  | markup
  | manifest (m : Manifest)
  | theme (t : Theme)
  | animation
  | converted (target : Path)
  | copied (target : Path)

structure IntakeFile where
  path : Path
  role : FileRole

/-- What a walk has found so far, in the order of the walk, and the disk as it leaves it. -/
structure Intake where
  disk : Disk
  files : List IntakeFile := []

namespace Intake

/-- The paths of all files with markup. -/
def documents (i : Intake) : List Path :=
  i.files.filterMap fun f => match f.role with
    | .markup => some f.path
    | _ => none

def manifests (i : Intake) : List Manifest :=
  i.files.filterMap fun f => match f.role with
    | .manifest m => some m
    | _ => none

def themes (i : Intake) : List Theme :=
  i.files.filterMap fun f => match f.role with
    | .theme t => some t
    | _ => none

def animations (i : Intake) : List Path :=
  i.files.filterMap fun f => match f.role with
    | .animation => some f.path
    | _ => none

/-- The files that fonts were written to. -/
def converted (i : Intake) : List Path :=
  i.files.filterMap fun f => match f.role with
    | .converted target => some target
    | _ => none

/-- The files that others were copied to. -/
def copied (i : Intake) : List Path :=
  i.files.filterMap fun f => match f.role with
    | .copied target => some target
    | _ => none

end Intake

/-- A step of a walk. What it did before a failure stays done. -/
abbrev Taking := ExceptT Failure (StateM Intake)

namespace Taking

def note (path : Path) (role : FileRole) : Taking Unit :=
  modify fun i => { i with files := i.files ++ [⟨path, role⟩] }

/-- The names in a directory. -/
def names (directory : Path) : Taking (List String) := do
  match (← get).disk.readDirectory directory with
  | .ok names => return names
  | .error fault => throw (.disk directory fault)

def makeDirectories (path : Path) : Taking Unit := do
  let (result, disk) := (← get).disk.makeDirectories path
  modify fun i => { i with disk }
  match result with
  | .ok () => return ()
  | .error fault => throw (.disk path fault)

/-- Changes a file on the disk. -/
def change (path : Path) (action : Disk → Except DiskFault Disk) : Taking Unit := do
  match action (← get).disk with
  | .ok disk => modify fun i => { i with disk }
  | .error fault => throw (.disk path fault)

/-- Copies a file unless its name is taken. -/
def copyFile (source target : Path) : Taking Unit := do
  if (← get).disk.exists? target then return ()
  change target fun disk => disk.copy source target
  note source (.copied target)

/-- The JSON value of a file, when it has one. -/
def value? (disk : Disk) (path : Path) : Option Value :=
  match disk.readText path with
  | .ok text => (read? text).bind Value.settle?
  | .error _ => none

/-- Notes a configuration that can be decoded. -/
def noteDecoded {α : Type} (source : Path) (role : α → FileRole) : Option α → Taking Unit
  | some a => note source (role a)
  | none => return ()

/-- Notes a configuration document and copies any other one. -/
def takeJson (source target : Path) : Taking Unit := do
  match value? (← get).disk source with
  | none => copyFile source target
  | some v =>
    match ConfigKind.ofValue? v with
    | some .manifest => noteDecoded source .manifest (Manifest.decode? v)
    | some .theme => noteDecoded source .theme (Theme.decode? v)
    | some .animation => note source .animation
    | none => copyFile source target

/-- The font in a file of the JSON form. Its face is named by the file. -/
def font? (disk : Disk) (path : Path) : Option BitmapFont :=
  match disk.readText path with
  | .ok text => (read? text).bind (BitmapFont.decode? (path.stem?.getD ""))
  | .error _ => none

/-- Writes a font of the JSON form in the classic form and copies any other one. -/
def takeFont (source target : Path) : Taking Unit := do
  match font? (← get).disk source with
  | some font =>
    change target fun disk => disk.writeText target font.classicText
    note source (.converted target)
  | none => copyFile source target

def takeFile (source target : Path) : Taking Unit :=
  match source.extension? with
  | some "exml" => note source .markup
  | some "json" => takeJson source target
  | some "fnt" => takeFont source target
  | _ => copyFile source target

/-- Takes in a directory, going down `depth` levels at most. Every level makes the target longer, so
that a depth of the path limit is not used up before the target is too long. -/
def takeTree : Nat → Path → Path → Taking Unit
  | 0, _, target => throw (.disk target .nameTooLong)
  | depth + 1, source, target => do
    (← names source).forM fun name => do
      let entry := source.join ⟨name⟩
      let place := target.join ⟨name⟩
      if (← get).disk.isDirectory entry then
        makeDirectories place
        takeTree depth entry place
      else takeFile entry place

end Taking

namespace Intake

/-- Takes in the tree below a source directory. -/
def ofTree (disk : Disk) (source target : Path) : Except Failure Unit × Intake :=
  (Taking.takeTree Disk.pathLimit source target).run { disk }

end Intake

end MarkupScene
