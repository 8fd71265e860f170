import MarkupScene.Proofs.ByteOrder
import MarkupScene.Proofs.Dictionaries
import MarkupScene.Skin.Table
import Mathlib.Data.List.Nodup

/-!
# Lookups in skin tables

A table is filled by single entries and by themes, in any order. It can be asked for the path of a
key, for the key of a path and for all paths. The main statement says what was written last for a
key, and that the three ways of asking agree: the key of a path is the least one that has it, and
the paths stand in the order of these keys.
-/
namespace MarkupScene

open Text

namespace SkinTable

/-- What can be put into a table: a path under a key, or a theme of a project. -/
inductive Edit where
  | insert (key : String) (path : Path)
  | theme (added : Theme) (project : Path)

namespace Edit

def apply (t : SkinTable) : Edit → SkinTable
  | .insert key path => t.insert key path
  | .theme added project => t.addTheme added project

/-- The entries that are written, in order, with the paths as they are spelled. -/
def entries : Edit → List (String × Path)
  | .insert key path => [(key, path)]
  | .theme added project => added.skins.entries.map fun entry => (entry.1, project.join ⟨entry.2⟩)

end Edit

/-- A new table after some edits. -/
def edited (edits : List Edit) : SkinTable := edits.foldl Edit.apply empty

/-- The least key of a path, by bytes. -/
def IsLeastKey (t : SkinTable) (path : Path) (key : String) : Prop :=
  t.get? key = some path ∧ ∀ k, t.get? k = some path → ¬bytes k < bytes key

theorem entries_foldl_insert (written : List (String × Path)) (t : SkinTable) :
    (written.foldl (fun t entry => t.insert entry.1 entry.2) t).entries =
      (written.map fun entry => (entry.1, entry.2.normalize)).foldl
        (fun d entry => d.insert entry.1 entry.2) t.entries := by
  induction written generalizing t with
  | nil => rfl
  | cons entry rest ih => exact ih _

theorem apply_eq_foldl (t : SkinTable) (edit : Edit) :
    edit.apply t = edit.entries.foldl (fun t entry => t.insert entry.1 entry.2) t := by
  cases edit with
  | insert key path => rfl
  | theme added project =>
    rw [Edit.entries, List.foldl_map]
    rfl

theorem entries_edited (edits : List Edit) :
    (edited edits).entries =
      .ofList ((edits.flatMap Edit.entries).map fun entry => (entry.1, entry.2.normalize)) := by
  have hflat : ∀ t : SkinTable, edits.foldl Edit.apply t =
      (edits.flatMap Edit.entries).foldl (fun t entry => t.insert entry.1 entry.2) t := by
    induction edits with
    | nil => exact fun t => rfl
    | cons edit rest ih =>
      intro t
      rw [List.foldl_cons, ih, apply_eq_foldl, List.flatMap_cons, List.foldl_append]
  rw [edited, hflat, entries_foldl_insert]
  rfl

theorem get?_edited_eq_some_iff {edits : List Edit} {key : String} {path : Path} :
    (edited edits).get? key = some path ↔
      ∃ spelled, Dictionary.LastWritten (edits.flatMap Edit.entries) key spelled ∧
        spelled.normalize = path := by
  rw [get?, entries_edited, Dictionary.get?_ofList_eq_some_iff]
  exact Dictionary.lastWritten_map Path.normalize

section
variable {t : SkinTable} {path : Path} {key : String}

theorem find?_eq_some_iff :
    t.entries.entries.find? (fun e => e.2 = path) = some (key, path) ↔ t.IsLeastKey path key := by
  rw [Dictionary.find?_entries_eq_some_iff fun p => decide (p = path), IsLeastKey]
  simp only [decide_eq_true_eq, and_true, ← lt_iff_bytes_lt]
  refine and_congr_right fun _ => ⟨fun h k hk => h k path hk rfl, ?_⟩
  rintro h k _ hk rfl
  exact h k hk

theorem keyOf?_eq_some_iff : t.keyOf? path = some key ↔ t.IsLeastKey path.normalize key := by
  rw [← find?_eq_some_iff, keyOf?, Option.map_eq_some_iff]
  constructor
  · rintro ⟨⟨k, p⟩, hfind, rfl⟩
    obtain rfl : p = path.normalize := by simpa using List.find?_some hfind
    exact hfind
  · intro hfind
    exact ⟨_, hfind, rfl⟩

theorem keyOf?_eq_none_iff :
    t.keyOf? path = none ↔ ∀ key, t.get? key ≠ some path.normalize := by
  rw [keyOf?, Option.map_eq_none_iff, List.find?_eq_none]
  simp only [decide_eq_true_eq, Prod.forall]
  constructor
  · intro h key hget
    exact h key _ (mem_entries_of_get? hget) rfl
  · rintro h key _ hmem rfl
    exact h key (Dictionary.mem_entries_iff.1 hmem)

theorem mem_paths_iff : path ∈ t.paths ↔ ∃ key, t.get? key = some path := by
  constructor
  · intro h
    obtain ⟨⟨key, p⟩, hmem, rfl⟩ := List.mem_map.1 (mem_firstOnly.1 h)
    exact ⟨key, Dictionary.mem_entries_iff.1 hmem⟩
  · rintro ⟨key, h⟩
    exact mem_paths_of_get? h

end

theorem nodup_firstOnly (ps : List Path) : (firstOnly ps).Nodup := by
  induction ps with
  | nil => exact .nil
  | cons p rest ih =>
    have hp : p ∉ (firstOnly rest).filter (· ≠ p) := by simp
    exact List.nodup_cons.2 ⟨hp, ih.filter _⟩

theorem nodup_paths (t : SkinTable) : t.paths.Nodup := nodup_firstOnly _

/-- Paths that are kept once stand in the order of the first entries that have them. -/
theorem pairwise_firstOnly {entries : List (String × Path)}
    (h : entries.Pairwise fun a b => a.1 < b.1) :
    (firstOnly (entries.map Prod.snd)).Pairwise fun p q =>
      ∃ k l, entries.find? (fun e => e.2 = p) = some (k, p) ∧
        entries.find? (fun e => e.2 = q) = some (l, q) ∧ k < l := by
  induction entries with
  | nil => exact .nil
  | cons entry rest ih =>
    obtain ⟨key, path⟩ := entry
    obtain ⟨hfirst, hrest⟩ := List.pairwise_cons.1 h
    have hskip : ∀ {q}, q ≠ path → ((key, path) :: rest).find? (fun e => e.2 = q) =
        rest.find? fun e => e.2 = q := by
      intro q hq
      exact List.find?_cons_of_neg (by simpa using hq.symm)
    refine List.pairwise_cons.2 ⟨fun q hq => ?_, ?_⟩
    · obtain ⟨hmem, hne⟩ := List.mem_filter.1 hq
      have hne : q ≠ path := of_decide_eq_true hne
      obtain ⟨found, hfound, hpath⟩ := List.mem_map.1 (mem_firstOnly.1 hmem)
      have hsome : (rest.find? fun e => e.2 = q).isSome :=
        List.find?_isSome.2 ⟨found, hfound, by simpa⟩
      obtain ⟨⟨l, p⟩, hfind⟩ := Option.isSome_iff_exists.1 hsome
      obtain rfl : p = q := by simpa using List.find?_some hfind
      refine ⟨key, l, by simp, (hskip hne).trans hfind, ?_⟩
      exact hfirst _ (List.mem_of_find?_eq_some hfind)
    · refine ((ih hrest).filter _).imp_of_mem fun {p q} hp hq => ?_
      have hp : p ≠ path := of_decide_eq_true (List.mem_filter.1 hp).2
      have hq : q ≠ path := of_decide_eq_true (List.mem_filter.1 hq).2
      rw [hskip hp, hskip hq]
      exact id

theorem pairwise_paths (t : SkinTable) :
    t.paths.Pairwise fun p q =>
      ∃ k l, t.IsLeastKey p k ∧ t.IsLeastKey q l ∧ bytes k < bytes l := by
  refine (pairwise_firstOnly t.entries.ascending).imp fun {p q} h => ?_
  obtain ⟨k, l, hk, hl, hlt⟩ := h
  exact ⟨k, l, find?_eq_some_iff.1 hk, find?_eq_some_iff.1 hl, lt_iff_bytes_lt.1 hlt⟩

/-- After any edits a key has the normal path that was written last for it, the key of a path is the
least one that has its normal form, if there is any, and the paths are those of the keys, each once
and in the order of their least keys, by which each is found again. -/
theorem lookups_agree (edits : List Edit) :
    let t := edited edits
    (∀ key path, t.get? key = some path ↔
      ∃ spelled, Dictionary.LastWritten (edits.flatMap Edit.entries) key spelled ∧
        spelled.normalize = path) ∧
    (∀ path key, t.keyOf? path = some key ↔ t.IsLeastKey path.normalize key) ∧
    (∀ path, t.keyOf? path = none ↔ ∀ key, t.get? key ≠ some path.normalize) ∧
    t.paths.Nodup ∧
    (∀ path, path ∈ t.paths ↔ ∃ key, t.get? key = some path) ∧
    (t.paths.Pairwise fun p q =>
      ∃ k l, t.IsLeastKey p k ∧ t.IsLeastKey q l ∧ bytes k < bytes l) ∧
    ∀ path ∈ t.paths, ∃ key, t.keyOf? path = some key ∧ t.get? key = some path := by
  intro t
  refine ⟨fun key path => get?_edited_eq_some_iff, fun path key => keyOf?_eq_some_iff,
    fun path => keyOf?_eq_none_iff, t.nodup_paths, fun path => mem_paths_iff, t.pairwise_paths,
    fun path hpath => ?_⟩
  have hnormal := normalize_of_mem_paths hpath
  obtain ⟨key, hkey⟩ := mem_paths_iff.1 hpath
  cases hfound : t.keyOf? path with
  | none => exact absurd (hnormal.symm ▸ hkey) (keyOf?_eq_none_iff.1 hfound key)
  | some least => exact ⟨least, rfl, hnormal ▸ (keyOf?_eq_some_iff.1 hfound).1⟩

end SkinTable

end MarkupScene
