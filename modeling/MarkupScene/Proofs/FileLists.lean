import MarkupScene.Project.Import
import MarkupScene.Proofs.Accounts
import MarkupScene.Proofs.SkinLookups
import MarkupScene.Proofs.Termination
import Mathlib.Data.List.Nodup

/-!
# Files to compile

The list that an import hands to the compiler. Skins come first, and a document is put after them
unless it is in the list already. Paths in the list are normal, so that two with the same components
are one path. The main statements are that no file is in the list twice and which files are.
-/
namespace MarkupScene

namespace ImportReport

/-- A list of different normal paths. -/
structure Distinct (files : List Path) : Prop where
  normal : ∀ p ∈ files, p.normalize = p
  nodup : files.Nodup

theorem any_same {files : List Path} (h : ∀ p ∈ files, p.normalize = p) {p : Path}
    (hp : p.normalize = p) : files.any (·.same p) = true ↔ p ∈ files := by
  rw [List.any_eq_true]
  constructor
  · rintro ⟨q, hq, hsame⟩
    rwa [Path.eq_of_components (h q hq) hp (of_decide_eq_true hsame)] at hq
  · intro hmem
    exact ⟨p, hmem, decide_eq_true rfl⟩

/-- Missing paths are put after the others. -/
theorem addMissing_spec {files : List Path} (hfiles : Distinct files) {more : List Path}
    (hmore : ∀ p ∈ more, p.normalize = p) :
    Distinct (addMissing files more) ∧ files <+: addMissing files more ∧
      ∀ p, p ∈ addMissing files more ↔ p ∈ files ∨ p ∈ more := by
  -- The paths taken in so far are different and normal, which decides whether the next one is in.
  induction more generalizing files with
  | nil => exact ⟨hfiles, List.prefix_refl files, fun p => by simp [addMissing]⟩
  | cons q rest ih =>
    have hq := hmore q List.mem_cons_self
    have hrest : ∀ p ∈ rest, p.normalize = p := fun p hp => hmore p (List.mem_cons_of_mem _ hp)
    have hany := any_same hfiles.normal hq
    rw [addMissing, List.foldl_cons, ← addMissing]
    by_cases hmem : q ∈ files
    · rw [if_pos (hany.2 hmem)]
      obtain ⟨hdistinct, hprefix, hall⟩ := ih hfiles hrest
      refine ⟨hdistinct, hprefix, fun p => ?_⟩
      rw [hall, List.mem_cons]
      constructor
      · rintro (hp | hp)
        · exact .inl hp
        · exact .inr (.inr hp)
      · rintro (hp | rfl | hp)
        · exact .inl hp
        · exact .inl hmem
        · exact .inr hp
    · rw [if_neg fun h => hmem (hany.1 h)]
      have hadded : Distinct (files ++ [q]) := by
        refine ⟨List.forall_mem_append.2 ⟨hfiles.normal, List.forall_mem_singleton.2 hq⟩, ?_⟩
        refine List.nodup_append.2 ⟨hfiles.nodup, List.nodup_singleton q, fun a ha b hb => ?_⟩
        rw [List.mem_singleton.1 hb]
        exact fun h => hmem (h ▸ ha)
      obtain ⟨hdistinct, hprefix, hall⟩ := ih hadded hrest
      refine ⟨hdistinct, (List.prefix_append files [q]).trans hprefix, fun p => ?_⟩
      rw [hall, List.mem_append, List.mem_singleton, List.mem_cons, or_assoc]

theorem skinsOf_eq_edited (themes : List Theme) (project : Path) :
    skinsOf themes project = .edited (themes.map (SkinTable.Edit.theme · project)) := by
  rw [skinsOf, SkinTable.edited, List.foldl_map]
  rfl

theorem get?_skinsOf_eq_some_iff {themes : List Theme} {project : Path} {key : String}
    {path : Path} :
    (skinsOf themes project).get? key = some path ↔ ∃ spelled,
      Text.Dictionary.LastWritten (themes.flatMap (·.skins.entries)) key spelled ∧
        (project.join ⟨spelled⟩).normalize = path := by
  rw [skinsOf_eq_edited, SkinTable.get?_edited_eq_some_iff, List.flatMap_map]
  simp only [SkinTable.Edit.entries]
  rw [← List.map_flatMap]
  simp only [Text.Dictionary.lastWritten_map fun spelled => project.join ⟨spelled⟩]
  constructor
  · rintro ⟨-, ⟨spelled, hlast, rfl⟩, hpath⟩
    exact ⟨spelled, hlast, hpath⟩
  · rintro ⟨spelled, hlast, hpath⟩
    exact ⟨_, ⟨spelled, hlast, rfl⟩, hpath⟩

theorem mem_paths_skinsOf {themes : List Theme} {project path : Path} :
    path ∈ (skinsOf themes project).paths ↔ ∃ key spelled,
      Text.Dictionary.LastWritten (themes.flatMap (·.skins.entries)) key spelled ∧
        (project.join ⟨spelled⟩).normalize = path := by
  rw [SkinTable.mem_paths_iff]
  exact exists_congr fun key => get?_skinsOf_eq_some_iff

theorem distinct_paths (skins : SkinTable) : Distinct skins.paths where
  normal _ hp := SkinTable.normalize_of_mem_paths hp
  nodup := skins.nodup_paths

theorem filesToCompile_spec (skins : SkinTable) (documents : List Path) :
    Distinct (filesToCompile skins documents) ∧ skins.paths <+: filesToCompile skins documents ∧
      ∀ p, p ∈ filesToCompile skins documents ↔
        p ∈ skins.paths ∨ ∃ q ∈ documents, q.normalize = p := by
  have hmore : ∀ p ∈ documents.map Path.normalize, p.normalize = p := by
    intro p hp
    obtain ⟨q, -, rfl⟩ := List.mem_map.1 hp
    exact Path.normalize_normalize q
  obtain ⟨hdistinct, hprefix, hall⟩ := addMissing_spec (distinct_paths skins) hmore
  refine ⟨hdistinct, hprefix, fun p => ?_⟩
  rw [← List.mem_map]
  exact hall p

end ImportReport

end MarkupScene
