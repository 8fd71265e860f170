import MarkupScene.Asset.Sheet
import MarkupScene.Disk.Failure
import MarkupScene.Prefab.Basic

/-!
# Prefab stores

A store takes prefabs and answers with the reference by which they are found again. A failure of
the store stops the run. What a run finds and leaves behind is its outside: the disk, the sheets that
were read so far, the borders that were asked for, how often a prefab was to be stored, and the
prefabs that were.
-/
namespace MarkupScene

structure World where
  disk : Disk := {}
  sheets : List (String × Option SpriteSheet) := []
  borders : List (AssetRef × Rect) := []
  attempts : Nat := 0
  prefabs : List Prefab := []

structure Store (ω : Type) where
  persist (p : Prefab) : StateM ω (Except Failure PrefabRef)

namespace Store

/-- Keeps nothing but the address. -/
def memory {ω : Type} : Store ω where
  persist p := pure (.ok ⟨p.url⟩)

/-- The directories above an output path, made when they are missing. -/
def makeParent (disk : Disk) (path : Path) : Except Failure Unit × Disk :=
  match path.parent? with
  | some parent =>
    if parent.text.isEmpty then (.ok (), disk)
    else
      let (result, disk) := disk.makeDirectories parent
      (result.mapError (.disk parent), disk)
  | none => (.ok (), disk)

/-- Writes each prefab into a file at its output path. -/
def onDisk : Store World where
  persist p := do
    let w ← get
    let (made, disk) := makeParent w.disk p.outputPath
    set { w with disk }
    match made with
    | .error failure => return .error failure
    | .ok () =>
      match disk.writeText p.outputPath p.fileText with
      | .error fault => return .error (.disk p.outputPath fault)
      | .ok disk =>
        set { w with disk }
        return .ok ⟨p.url⟩

/-- A prefab is answered by its address when its text could be written. -/
theorem persist_onDisk (p : Prefab) (w : World) :
    onDisk.persist p w =
      match makeParent w.disk p.outputPath with
      | (.error failure, disk) => (.error failure, { w with disk })
      | (.ok (), disk) =>
        match disk.writeText p.outputPath p.fileText with
        | .error fault => (.error (.disk p.outputPath fault), { w with disk })
        | .ok after => (.ok ⟨p.url⟩, { w with disk := after }) := by
  have hopened : onDisk.persist p w =
      (match (makeParent w.disk p.outputPath).1 with
      | .error failure => pure (.error failure)
      | .ok () =>
        match (makeParent w.disk p.outputPath).2.writeText p.outputPath p.fileText with
        | .error fault => pure (.error (.disk p.outputPath fault))
        | .ok disk => do
          set { w with disk }
          pure (.ok ⟨p.url⟩) : StateM World (Except Failure PrefabRef))
        { w with disk := (makeParent w.disk p.outputPath).2 } := rfl
  rw [hopened]
  rcases makeParent w.disk p.outputPath with ⟨failure | ⟨⟩, disk⟩
  · rfl
  · dsimp only
    cases disk.writeText p.outputPath p.fileText with
    | error fault => rfl
    | ok after => rfl

/-- A store that is out of order at its n-th call, counted from one, and otherwise keeps a list
of what was stored. -/
def recorded (failAt : Option Nat) (inner : Store World) : Store World where
  persist p := do
    modify fun w => { w with attempts := w.attempts + 1 }
    if failAt = some (← get).attempts then return .error (.store "store offline")
    match ← inner.persist p with
    | .ok ref =>
      modify fun w => { w with prefabs := w.prefabs ++ [p] }
      return .ok ref
    | .error failure => return .error failure

end Store

end MarkupScene
