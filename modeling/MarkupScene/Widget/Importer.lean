import MarkupScene.Asset.Locator
import MarkupScene.Compile.Report
import MarkupScene.Markup.Reading
import MarkupScene.Scene.Search

/-!
# Importers

An importer gives a finished node the meaning of its widget. It reads the element, asks the
locator for assets and leaves diagnostics; it fails at nothing. An asset that is not found is
reported once, and so is a behavior that the node refuses.
-/
namespace MarkupScene

/-- The part of a run that importers see and change. -/
structure Surroundings (ω : Type) where
  world : ω
  diagnostics : List Diagnostic := []

/-- What an importer works with. -/
structure ImportScope (ω : Type) where
  assets : AssetTable
  locator : Locator ω
  source : Path
  /-- Whether the node is the root of a skin file rather than a use of one. -/
  isTemplate : Bool

abbrev Importing (ω : Type) := StateM (Surroundings ω)

abbrev Importer (ω : Type) := ImportScope ω → Element → Node → Importing ω Node

namespace ImportScope
variable {ω : Type}

/-- Lets the locator act on the outside. -/
def ask {α : Type} (action : StateM ω α) : Importing ω α := fun s =>
  let (a, world) := action s.world
  (a, { s with world })

def report (scope : ImportScope ω) (kind : DiagnosticKind) (message : String) :
    Importing ω Unit :=
  modify fun s => { s with diagnostics := s.diagnostics ++ [⟨kind, scope.source, message⟩] }

/-- The asset of a symbolic name; no name asks for no asset. -/
def resolve (scope : ImportScope ω) (name : String) : Importing ω (Option AssetRef) := do
  if name.isEmpty then return none
  let found ← match scope.assets.query? name with
    | some query => ask (scope.locator.resolve query.path query.frame)
    | none => pure none
  if found.isNone then
    scope.report .unresolvedResource ("resource '" ++ name ++ "' not found")
  return found

/-- The node with a behavior attached, or as it was when it refuses. -/
def attach (scope : ImportScope ω) (n : Node) (b : Behavior) : Importing ω Node :=
  match n.attach b with
  | .ok n => pure n
  | .error conflict => do
    scope.report .behaviorConflict
      ("node '" ++ n.name ++ "' cannot add " ++ conflict.rejected.name ++ " (has " ++
        conflict.existing.name ++ ")")
    return n

end ImportScope

end MarkupScene
