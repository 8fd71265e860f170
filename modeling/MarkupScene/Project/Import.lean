import MarkupScene.Asset.DiskLocator
import MarkupScene.Compile.Compile
import MarkupScene.Project.Intake

/-!
# Importing a project

A project keeps its files in a resource directory. They are taken into a folder of their own below
the assets, named after the project; a number is added while the name is taken. Then the markup
is compiled into the same folder: the skins of the themes first, every other document after
them, each file once.
-/
namespace MarkupScene

open Text

/-- The name of the resource directory of a project. -/
def resourceFolder : String := "resource"

structure ImportReport where
  target : Path
  copied : List Path
  converted : List Path
  animations : List Path
  compiled : Report
deriving DecidableEq, Repr

namespace ImportReport

/-- The names for a folder, in the order in which they are tried. -/
def candidate (name : String) : Nat → String
  | 0 => name
  | n + 1 => name ++ "_" ++ toString (n + 1)

/-- The first name that is not taken below the assets. Different names lead to different entries,
so one more name than there are entries is enough. -/
def freshFolder (disk : Disk) (assets : Path) (name : String) : String :=
  let candidates := (List.range (disk.entries.length + 1)).map (candidate name)
  (candidates.find? fun folder => !disk.exists? (assets.join ⟨folder⟩)).getD name

/-- The paths that are not in a list yet, put after it one by one. -/
def addMissing (files : List Path) (more : List Path) : List Path :=
  more.foldl (fun files p => if files.any (·.same p) then files else files ++ [p]) files

/-- The files to compile: those of skins before other documents. -/
def filesToCompile (skins : SkinTable) (documents : List Path) : List Path :=
  addMissing skins.paths (documents.map Path.normalize)

def skinsOf (themes : List Theme) (project : Path) : SkinTable :=
  themes.foldl (fun t theme => t.addTheme theme project) .empty

def assetsOf (manifests : List Manifest) : AssetTable :=
  manifests.foldl AssetTable.addManifest .empty

/-- The setting of a run over what was taken in. Of the options, the address and the direction of the
vertical axis count. -/
def settingOf (intake : Intake) (project source target : Path) (folder : String)
    (options : Options) : Setting World :=
  { options :=
      { options with
        sourceRoot := source
        outputRoot := target
        targetUrl := PrefabLocation.trimSlashes options.targetUrl ++ "/" ++ folder }
    skins := skinsOf intake.themes project
    assets := assetsOf intake.manifests
    sources := .onDisk
    locator := DiskLocator.locator target
    store := .onDisk }

/-- Takes in and compiles a resource directory. -/
def importTree (disk : Disk) (project source target : Path) (folder : String)
    (options : Options) : Except Failure ImportReport × Disk :=
  match Intake.ofTree disk source target with
  | (.error failure, intake) => (.error failure, intake.disk)
  | (.ok (), intake) =>
    let setting := settingOf intake project source target folder options
    let (result, world) :=
      setting.run (filesToCompile setting.skins intake.documents) { disk := intake.disk }
    let report := result.map fun compiled =>
      { target, copied := intake.copied, converted := intake.converted,
        animations := intake.animations, compiled }
    (report, world.disk)

/-- Imports a project into a fresh folder below the assets. -/
def ofProject (disk : Disk) (project assets : Path) (options : Options) :
    Except Failure ImportReport × Disk :=
  let source := project.join ⟨resourceFolder⟩
  if disk.isDirectory source then
    let folder := freshFolder disk assets (project.fileName?.getD "project")
    let target := assets.join ⟨folder⟩
    match disk.makeDirectories target with
    | (.error fault, disk) => (.error (.disk target fault), disk)
    | (.ok (), disk) => importTree disk project source target folder options
  else (.error (.noResources source), disk)

end ImportReport

end MarkupScene
