import MarkupScene.Path.Basic
import MarkupScene.Scene.Behavior

/-!
# Reports

A run reports the prefabs that it stored, in the order in which they were finished, the files that
it skipped with the reason, and everything else that went wrong without stopping it.
-/
namespace MarkupScene

/-- What went wrong: a file could not be read, a node had another renderer already, or an asset was
not found. -/
inductive DiagnosticKind where
  | parseFailure
  | behaviorConflict
  | unresolvedResource
deriving DecidableEq, Repr

def DiagnosticKind.name : DiagnosticKind → String
  | parseFailure => "parse-failure"
  | behaviorConflict => "behavior-conflict"
  | unresolvedResource => "unresolved-resource"

structure Diagnostic where
  kind : DiagnosticKind
  file : Path
  message : String
deriving DecidableEq, Repr

def Diagnostic.text (d : Diagnostic) : String :=
  "[" ++ d.kind.name ++ "] " ++ d.file.text ++ ": " ++ d.message

structure SkippedFile where
  path : Path
  reason : String
deriving DecidableEq, Repr

structure Report where
  stored : List PrefabRef := []
  skipped : List SkippedFile := []
  diagnostics : List Diagnostic := []
deriving DecidableEq, Repr

namespace Report

/-- A run succeeds when it skips nothing. -/
def isSuccess (r : Report) : Bool := r.skipped.isEmpty

def count (r : Report) (kind : DiagnosticKind) : Nat :=
  (r.diagnostics.filter fun d => d.kind = kind).length

end Report

end MarkupScene
