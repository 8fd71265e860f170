import MarkupScene.Disk.Basic
import MarkupScene.Json.Reader
import MarkupScene.Markup.Document

/-!
# Failures of an import

What can stop an import or a part of it, with the file that it happened at.
-/
namespace MarkupScene

inductive Failure where
  | disk (path : Path) (fault : DiskFault)
  | document (path : Path) (fault : Markup.DocumentFault)
  | json (path : Path)
  | noResources (path : Path)
  | store (reason : String)
deriving DecidableEq

namespace Failure

def message : Failure → String
  | disk path fault => "IO error at " ++ path.text ++ ": " ++ fault.message
  | document path fault => "Failed to parse " ++ path.text ++ ": " ++ fault.message
  | json path => "Invalid JSON in " ++ path.text
  | noResources path => "Resource directory " ++ path.text ++ " does not exist"
  | store reason => "Artifact store failure: " ++ reason

end Failure

namespace Disk

/-- Reads and decodes a JSON file. -/
def readJson {α : Type} (d : Disk) (decode? : Json.Value → Option α) (p : Path) :
    Except Failure α :=
  match d.readText p with
  | .error fault => .error (.disk p fault)
  | .ok text =>
    match (Json.read? text).bind decode? with
    | some a => .ok a
    | none => .error (.json p)

end Disk

end MarkupScene
