import MarkupScene.Json.Value
import MarkupScene.Numeric.Arithmetic

/-!
# Configuration documents

A JSON document in a project is told by its members: a manifest has lists of groups and of
assets, a theme has skins and a list of documents, and an animation has a clip and pictures. The
first of these that fits decides; any other document is plain data.
-/
namespace MarkupScene

open Json Numeric

inductive ConfigKind where
  | manifest
  | theme
  | animation
deriving DecidableEq, Repr

namespace ConfigKind

def isList : Value → Bool
  | .array _ => true
  | _ => false

/-- Whether a value says more than nothing: null, false, zero and the empty text do not. -/
def isTelling : Value → Bool
  | .null | .broken => false
  | .bool b => b
  | .integer i => i ≠ 0
  | .real x => !x.same 0
  | .text s => !s.isEmpty
  | .array _ | .object _ => true

def ofValue? : Value → Option ConfigKind
  | .object members =>
    let list (key : String) : Bool := (members.lookup key).any isList
    let telling (key : String) : Bool := (members.lookup key).any isTelling
    if list "groups" && list "resources" then some manifest
    else if telling "skins" && list "exmls" then some theme
    else if telling "mc" && telling "res" then some animation
    else none
  | _ => none

end ConfigKind

end MarkupScene
