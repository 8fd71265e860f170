import MarkupScene.Path.Basic
import MarkupScene.Scene.Node

/-!
# Skin caches

What a run knows about its source files. A file that compiled is kept with its prefab, ready to be
copied, and a file that could not be read is kept as failed, so that neither is tried again.
Files are told apart by the components of their paths.
-/
namespace MarkupScene

/-- A compiled file: the prefab under which it was stored and its scene. -/
structure CachedSkin where
  handle : PrefabRef
  root : Node
deriving DecidableEq

inductive SourceState where
  | failed
  | compiled (skin : CachedSkin)
deriving DecidableEq

structure SkinCache where
  entries : List (List Path.Component × SourceState) := []

namespace SkinCache

def get? (c : SkinCache) (path : Path) : Option SourceState := c.entries.lookup path.components

/-- A later entry of a file hides an earlier one. -/
def put (c : SkinCache) (path : Path) (state : SourceState) : SkinCache :=
  ⟨(path.components, state) :: c.entries⟩

theorem get?_put (c : SkinCache) (path other : Path) (state : SourceState) :
    (c.put path state).get? other =
      if other.components = path.components then some state else c.get? other := by
  unfold get? put
  rw [List.lookup_cons]
  by_cases h : other.components = path.components
  · simp [h]
  · rw [beq_eq_false_iff_ne.2 h]; simp [h]

/-- The compiled skin of a file. -/
def skin? (c : SkinCache) (path : Path) : Option CachedSkin :=
  match c.get? path with
  | some (.compiled skin) => some skin
  | _ => none

end SkinCache

end MarkupScene
