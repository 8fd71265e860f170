import MarkupScene.Compile.Report
import MarkupScene.Prefab.Location
import MarkupScene.Prefab.Store
import MarkupScene.Skin.Cache
import MarkupScene.Skin.Key
import MarkupScene.Skin.Table
import MarkupScene.Widget.Registry

/-!
# Sessions

A session is the state of one run: the outside, what is known about the source files, and the
report. What stays the same during a run is its setting. A step of a run changes the session and
either has a result or a failure; what it changed before a failure stays changed.
-/
namespace MarkupScene

/-- Where markup is read from. -/
structure Sources (ω : Type) where
  read (path : Path) : ω → Except DiskFault String

structure Setting (ω : Type) where
  options : Options := {}
  skins : SkinTable := .empty
  assets : AssetTable := .empty
  registry : Registry ω := .builtIn
  sources : Sources ω
  locator : Locator ω
  store : Store ω

structure Session (ω : Type) where
  world : ω
  cache : SkinCache := {}
  report : Report := {}

abbrev Run (ω : Type) := ExceptT Failure (StateM (Session ω))

/-- Sources are the files of the disk as it is when they are read. -/
def Sources.onDisk : Sources World where
  read path w := w.disk.readText path

/-- The root element of a source file. -/
def Sources.document {ω : Type} (s : Sources ω) (path : Path) (world : ω) :
    Except Failure Element :=
  match s.read path world with
  | .error fault => .error (.disk path fault)
  | .ok text => (Markup.readDocument text).mapError (.document path)

namespace Session
variable {ω : Type}

/-- A file that cannot be read is skipped and never tried again. -/
def skip (s : Session ω) (path : Path) (reason : String) : Session ω :=
  { s with
    cache := s.cache.put path .failed
    report :=
      { s.report with
        diagnostics := s.report.diagnostics ++ [⟨.parseFailure, path, reason⟩]
        skipped := s.report.skipped ++ [⟨path, reason⟩] } }

/-- A stored prefab is reported and kept for those who use it as a skin. -/
def keep (s : Session ω) (path : Path) (handle : PrefabRef) (root : Node) : Session ω :=
  { s with
    cache := s.cache.put path (.compiled ⟨handle, root⟩)
    report := { s.report with stored := s.report.stored ++ [handle] } }

end Session

namespace Run
variable {ω : Type}

/-- Lets an importer act; its diagnostics go into the report. -/
def importing {α : Type} (action : Importing ω α) : Run ω α := do
  let s ← get
  let (a, after) := action ⟨s.world, s.report.diagnostics⟩
  set { s with
    world := after.world
    report := { s.report with diagnostics := after.diagnostics } }
  return a

/-- Stores a prefab; a failure of the store is a failure of the step. -/
def persist (store : Store ω) (p : Prefab) : Run ω PrefabRef := do
  let s ← get
  let (result, world) := store.persist p s.world
  set { s with world }
  match result with
  | .ok handle => return handle
  | .error failure => throw failure

end Run

end MarkupScene
