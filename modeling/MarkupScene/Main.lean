import MarkupScene.CommandLine

/-!
# Program

The outer layer of the command line: it reads the files that a command can reach into a disk, runs
the command on it, and carries out what the run changed. A command reaches the trees below the
two directories that it names and the file with options.
-/
namespace MarkupScene.Program

/-- The location of an absolute path. -/
def locationOf (path : String) : Location :=
  ((Text.pieces '/' path.toList).filter (· ≠ [])).map .ofList

def pathOf (l : Location) : String := "/" ++ "/".intercalate l

/-- Adds a directory and those above it. -/
def addDirectories (disk : Disk) (l : Location) : Disk :=
  (List.range l.length).foldl (fun disk n => disk.put (l.take (n + 1)) .directory) disk

/-- Adds the entry at a location and everything below it. -/
partial def addTree (disk : Disk) (l : Location) : IO Disk := do
  let place ← IO.FS.realPath (pathOf l)
  if ← place.isDir then
    (← place.readDir).foldlM (fun disk entry => addTree disk (l ++ [entry.fileName]))
      (addDirectories disk l)
  else return disk.put l (.file (← IO.FS.readBinFile place))

/-- The location that a path leads to. -/
def find? (path : Path) : IO (Option Location) := do
  match ← (IO.FS.realPath (if path.text.isEmpty then "." else path.text)).toBaseIO with
  | .ok place => return some (locationOf place.toString)
  | .error _ => return none

/-- Adds the nearest directory that is there, of a path and at most `steps` above it. -/
def addNearest (disk : Disk) (path : Path) (steps : Nat) : IO Disk := do
  match ← find? path with
  | some l => return addDirectories disk l
  | none =>
    match steps, path.parent? with
    | steps + 1, some parent => addNearest disk parent steps
    | _, _ => return disk

/-- Adds what lies at a path. When nothing does, the directory is added that would hold it. -/
def addPath (disk : Disk) (path : Path) : IO Disk := do
  match ← find? path with
  | some l => addTree (addDirectories disk l.dropLast) l
  | none => addNearest disk path path.components.length

/-- The disk that a command line starts from. -/
def readDisk (args : List String) : IO Disk := do
  let working := locationOf (← IO.currentDir).toString
  let start : Disk := { addDirectories {} working with working }
  match Command.parse args with
  | .error _ => return start
  | .ok c => (c.project :: c.assets :: c.options?.toList).foldlM addPath start

def applyChange (change : Location × Entry) : IO Unit :=
  match change with
  | (l, .directory) => IO.FS.createDirAll (pathOf l)
  | (l, .file content) => IO.FS.writeBinFile (pathOf l) content

def run (args : List String) : IO UInt32 := do
  let before ← readDisk args
  let outcome := Command.run args before
  (Disk.changes before outcome.disk).forM applyChange
  (← IO.getStdout).putStr outcome.output
  (← IO.getStderr).putStr outcome.errors
  return outcome.code.toUInt32

end MarkupScene.Program

def main (args : List String) : IO UInt32 := MarkupScene.Program.run args
