import MarkupScene.Json.Decode
import MarkupScene.Path.Normal

/-!
# Skin tables

A theme maps keys to the files that hold their skins, relative to a project. A table holds the
merged themes of a run: the last entry of a key counts, and every path is normal, so that paths
that differ in spelling alone are one file.
-/
namespace MarkupScene

open Json Text

structure Theme where
  skins : Dictionary String := .empty
  documents : List String := []

def Theme.decode? (v : Value) : Option Theme := do
  let [skins, documents] ← slots? ["skins", "exmls"] v | none
  return {
    skins := ← skins.withDefault .empty (Value.dictionary? Value.text?)
    documents := ← documents.withDefault [] (Value.list? Value.text?) }

structure SkinTable where
  entries : Dictionary Path
  normal : ∀ e ∈ entries.entries, e.2.normalize = e.2

namespace SkinTable

def empty : SkinTable where
  entries := .empty
  normal _ he := absurd he List.not_mem_nil

instance : Inhabited SkinTable := ⟨empty⟩

def insert (t : SkinTable) (key : String) (path : Path) : SkinTable where
  entries := t.entries.insert key path.normalize
  normal e he := by
    rcases Dictionary.mem_insertEntry he with rfl | he
    · exact Path.normalize_normalize path
    · exact t.normal e he

/-- Takes in a theme whose paths are relative to a project. -/
def addTheme (t : SkinTable) (theme : Theme) (project : Path) : SkinTable :=
  theme.skins.entries.foldl (fun t e => t.insert e.1 (project.join ⟨e.2⟩)) t

def get? (t : SkinTable) (key : String) : Option Path := t.entries.get? key

/-- The least key of a file. -/
def keyOf? (t : SkinTable) (path : Path) : Option String :=
  (t.entries.entries.find? fun e => e.2 = path.normalize).map (·.1)

/-- The paths of a list, each where it stands first. -/
def firstOnly : List Path → List Path
  | [] => []
  | p :: rest => p :: (firstOnly rest).filter (· ≠ p)

/-- The files of all skins, each once, in the order of their least keys. -/
def paths (t : SkinTable) : List Path := firstOnly (t.entries.entries.map (·.2))

def size (t : SkinTable) : Nat := t.entries.size

theorem mem_firstOnly {p : Path} {ps : List Path} : p ∈ firstOnly ps ↔ p ∈ ps := by
  induction ps with
  | nil => simp [firstOnly]
  | cons q rest ih =>
    by_cases h : p = q <;> simp [firstOnly, h, ih]

theorem mem_entries_of_get? {t : SkinTable} {key : String} {p : Path} (h : t.get? key = some p) :
    (key, p) ∈ t.entries.entries := by
  obtain ⟨before, after, e, _⟩ := List.lookup_eq_some_iff.1 h
  simp [e]

theorem mem_paths_of_get? {t : SkinTable} {key : String} {p : Path} (h : t.get? key = some p) :
    p ∈ t.paths :=
  mem_firstOnly.2 (List.mem_map.2 ⟨_, mem_entries_of_get? h, rfl⟩)

theorem normalize_of_mem_paths {t : SkinTable} {p : Path} (h : p ∈ t.paths) :
    p.normalize = p := by
  obtain ⟨e, he, rfl⟩ := List.mem_map.1 (mem_firstOnly.1 h)
  exact t.normal e he

end SkinTable

end MarkupScene
