import MarkupScene.Path.Basic
import MarkupScene.Text.Dictionary

/-!
# File trees

A disk holds files and directories by location, the names on the way down from the root. A path is
walked piece by piece from the root or from the working directory: every piece but the last has
to lead to a directory, and a step up goes to the directory above. The walk ends at an entry or
at a free name in an existing directory.
-/
namespace MarkupScene

open Text

abbrev Location := List String

inductive Entry where
  | directory
  | file (content : ByteArray)

/-- Files are equal when their bytes are. -/
instance : DecidableEq Entry
  | .directory, .directory => .isTrue rfl
  | .directory, .file _ | .file _, .directory => .isFalse nofun
  | .file ⟨a⟩, .file ⟨b⟩ => decidable_of_iff (a = b) (by simp)

/-- Why the system refuses an operation. -/
inductive DiskFault where
  | notFound
  | alreadyExists
  | notADirectory
  | isADirectory
  | nameTooLong
  | nulInName
  | notText
deriving DecidableEq, Repr

def DiskFault.message : DiskFault → String
  | notFound => "No such file or directory (os error 2)"
  | alreadyExists => "File exists (os error 17)"
  | notADirectory => "Not a directory (os error 20)"
  | isADirectory => "Is a directory (os error 21)"
  | nameTooLong => "File name too long (os error 36)"
  | nulInName => "file name contained an unexpected NUL byte"
  | notText => "stream did not contain valid UTF-8"

structure Disk where
  entries : List (Location × Entry) := []
  working : Location := []

namespace Disk

/-- The first size in bytes that is too long for a path. -/
def pathLimit : Nat := 4096

/-- The greatest size in bytes of a name. -/
def nameLimit : Nat := 255

/-- The entry at a location. The root is always there. -/
def entry? (d : Disk) (l : Location) : Option Entry :=
  if l = [] then some .directory else d.entries.lookup l

/-- Entries with the entry at a location replaced or added. -/
def putEntry (l : Location) (e : Entry) : List (Location × Entry) → List (Location × Entry)
  | [] => [(l, e)]
  | (k, v) :: rest => if k = l then (l, e) :: rest else (k, v) :: putEntry l e rest

def put (d : Disk) (l : Location) (e : Entry) : Disk :=
  { d with entries := putEntry l e d.entries }

/-- Where a walk ends. -/
inductive Place where
  | found (location : Location) (entry : Entry)
  | free (location : Location)
deriving DecidableEq

/-- The walk from a directory along the remaining pieces of a path. -/
def walkFrom (d : Disk) (here : Location) : List (List Char) → Except DiskFault Place
  | [] => .ok (.found here .directory)
  | piece :: rest =>
    if piece = [] ∨ piece = ['.'] then walkFrom d here rest
    else if piece = ['.', '.'] then walkFrom d here.dropLast rest
    else if nameLimit < byteSize piece then .error .nameTooLong
    else
      let there := here ++ [.ofList piece]
      match d.entry? there with
      | some .directory => walkFrom d there rest
      | some (.file content) =>
        if rest = [] then .ok (.found there (.file content)) else .error .notADirectory
      | none => if rest.all (·.isEmpty) then .ok (.free there) else .error .notFound

def walk (d : Disk) (p : Path) : Except DiskFault Place :=
  let cs := p.text.toList
  if '\x00' ∈ cs then .error .nulInName
  else if pathLimit ≤ p.text.utf8ByteSize then .error .nameTooLong
  else if cs = [] then .error .notFound
  else d.walkFrom (if p.isAbsolute then [] else d.working) (pieces '/' cs)

def exists? (d : Disk) (p : Path) : Bool :=
  match d.walk p with
  | .ok (.found ..) => true
  | _ => false

def isFile (d : Disk) (p : Path) : Bool :=
  match d.walk p with
  | .ok (.found _ (.file _)) => true
  | _ => false

def isDirectory (d : Disk) (p : Path) : Bool :=
  match d.walk p with
  | .ok (.found _ .directory) => true
  | _ => false

def readBytes (d : Disk) (p : Path) : Except DiskFault ByteArray :=
  match d.walk p with
  | .ok (.found _ (.file content)) => .ok content
  | .ok (.found _ .directory) => .error .isADirectory
  | .ok (.free _) => .error .notFound
  | .error fault => .error fault

def readText (d : Disk) (p : Path) : Except DiskFault String :=
  match d.readBytes p with
  | .ok content =>
    match String.fromUTF8? content with
    | some text => .ok text
    | none => .error .notText
  | .error fault => .error fault

/-- Writes a file, in place of one that is there. -/
def writeBytes (d : Disk) (p : Path) (content : ByteArray) : Except DiskFault Disk :=
  match d.walk p with
  | .ok (.found l (.file _)) => .ok (d.put l (.file content))
  | .ok (.found _ .directory) => .error .isADirectory
  | .ok (.free l) =>
    if p.text.toList.getLast? = some '/' then .error .isADirectory
    else .ok (d.put l (.file content))
  | .error fault => .error fault

def writeText (d : Disk) (p : Path) (text : String) : Except DiskFault Disk :=
  d.writeBytes p text.toUTF8

/-- Makes one directory. -/
def makeDirectory (d : Disk) (p : Path) : Except DiskFault Disk :=
  match d.walk p with
  | .ok (.free l) => .ok (d.put l .directory)
  | .ok (.found ..) => .error .alreadyExists
  | .error fault => .error fault

/-- Makes one directory, or leaves one that is there. -/
def ensureDirectory (d : Disk) (p : Path) : Except DiskFault Unit × Disk :=
  match d.makeDirectory p with
  | .ok d => (.ok (), d)
  | .error fault => (if d.isDirectory p then .ok () else .error fault, d)

/-- Makes a directory below at most `depth` others that may be missing. -/
def makeBelow (d : Disk) (p : Path) : Nat → Except DiskFault Unit × Disk
  | 0 => d.ensureDirectory p
  | depth + 1 =>
    if p.text.isEmpty then (.ok (), d)
    else
      match d.makeDirectory p with
      | .ok d => (.ok (), d)
      | .error .notFound =>
        match p.parent? with
        | some parent =>
          match d.makeBelow parent depth with
          | (.ok (), d) => d.ensureDirectory p
          | (.error fault, d) => (.error fault, d)
        | none => (.error .notFound, d)
      | .error fault => (if d.isDirectory p then .ok () else .error fault, d)

/-- Makes a directory with all its parents. When that fails, some of the parents may have been
made. -/
def makeDirectories (d : Disk) (p : Path) : Except DiskFault Unit × Disk :=
  d.makeBelow p (p.components.length + 1)

/-- The names in a directory, in ascending order. -/
def namesIn (d : Disk) (l : Location) : List String :=
  let named := d.entries.filterMap fun (k, _) =>
    match k.getLast? with
    | some name => if k.dropLast = l then some (name, ()) else none
    | none => none
  (Dictionary.ofList named).entries.map Prod.fst

def readDirectory (d : Disk) (p : Path) : Except DiskFault (List String) :=
  match d.walk p with
  | .ok (.found l .directory) => .ok (d.namesIn l)
  | .ok (.found _ (.file _)) => .error .notADirectory
  | .ok (.free _) => .error .notFound
  | .error fault => .error fault

def copy (d : Disk) (source target : Path) : Except DiskFault Disk :=
  match d.readBytes source with
  | .ok content => d.writeBytes target content
  | .error fault => .error fault

/-- The entries that are new or different after a run. -/
def changes (before after : Disk) : List (Location × Entry) :=
  after.entries.filter fun (l, e) => before.entry? l ≠ some e

end Disk

end MarkupScene
