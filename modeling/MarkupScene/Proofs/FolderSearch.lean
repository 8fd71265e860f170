import MarkupScene.Proofs.Containment
import MarkupScene.Proofs.Descents
import MarkupScene.Proofs.OutputPlaces

/-!
# The search for a folder

A project gets the first folder below the assets whose name is not taken: its own name, or its name
with a number. The search counts in a word of four bytes, which is enough for fewer entries than the
word can count. The main statement is that the search ends, where it ends, that prefabs have addresses
under the name of the folder that they are written to, and when the folder is new.
-/
namespace MarkupScene.ImportReport

open MarkupScene.Path Disk

variable {disk : Disk} {assets : Path} {name folder found found' : String} {i : Int32} {j k : Nat}

/-- The search from a folder on, with the number of the next candidate. A number that cannot be
counted any further stops it. -/
inductive Searches (disk : Disk) (assets : Path) (name : String) : String → Int32 → String → Prop where
  | free {folder : String} {i : Int32} (h : disk.exists? (assets.join ⟨folder⟩) = false) :
      Searches disk assets name folder i folder
  | taken {folder found : String} {i : Int32} (h : disk.exists? (assets.join ⟨folder⟩) = true)
      (room : i < Int32.maxValue)
      (next : Searches disk assets name (name ++ "_" ++ toString i) (i + 1) found) :
      Searches disk assets name folder i found

theorem Searches.unique (h : Searches disk assets name folder i found)
    (h' : Searches disk assets name folder i found') : found = found' := by
  induction h with
  | free hfree =>
    cases h' with
    | free => rfl
    | taken htaken =>
      rw [hfree] at htaken
      cases htaken
  | taken htaken _ _ ih =>
    cases h' with
    | free hfree =>
      rw [hfree] at htaken
      cases htaken
    | taken _ _ next => exact ih next

theorem toString_ofNat (hj : j < 2 ^ 31) : toString (Int32.ofNat j) = toString j := by
  change toString (Int32.ofNat j).toInt = _
  rw [Int32.toInt_ofNat_of_lt hj]
  rfl

theorem searches_from (hk : k < 2 ^ 31 - 1)
    (hfree : disk.exists? (assets.join ⟨candidate name k⟩) = false)
    (htaken : ∀ j < k, disk.exists? (assets.join ⟨candidate name j⟩) = true) (hj : j ≤ k) :
    Searches disk assets name (candidate name j) (Int32.ofNat (j + 1)) (candidate name k) := by
  induction hj using Nat.decreasingInduction with
  | self => exact .free hfree
  | of_succ j hj ih =>
    have hnumber : j + 1 < 2 ^ 31 := by omega
    refine .taken (htaken j hj) ?_ ?_
    · rw [Int32.lt_iff_toInt_lt, Int32.toInt_ofNat_of_lt hnumber, Int32.toInt_maxValue]
      omega
    · rw [toString_ofNat hnumber, show Int32.ofNat (j + 1) + 1 = Int32.ofNat (j + 1 + 1) from
        (Int32.ofNat_add (j + 1) 1).symm]
      exact ih

theorem searches_iff (hdisk : disk.IsTree) (hroom : disk.entries.length < 2 ^ 31 - 1)
    (hname : ProperName name) :
    Searches disk assets name name 1 found ↔ found = freshFolder disk assets name := by
  obtain ⟨k, hk, hfolder, hfree, htaken⟩ := freshFolder_least disk hdisk assets hname
  have hsearch : Searches disk assets name name 1 (candidate name k) :=
    searches_from (hk.trans_lt hroom) hfree htaken (Nat.zero_le k)
  rw [hfolder]
  constructor
  · exact fun h => h.unique hsearch
  · rintro rfl
    exact hsearch

variable {project : Path} {options : Options} {c : Compilation}

theorem exists_address (hc : compilation? disk project assets options = some c)
    {a : Prefab × PrefabRef} (ha : a ∈ c.journal.accepted) :
    ∃ names, names ≠ [] ∧
      (∀ here, a.1.outputPath.locate here = (targetOf disk project assets).locate here ++ names) ∧
      a.1.url = "/".intercalate (PrefabLocation.trimSlashes options.targetUrl ::
        folderOf disk project assets :: names) := by
  obtain ⟨hnames, -, hplace, hurl⟩ := place_of_accepted hc ha
  have htarget : PrefabLocation.trimSlashes c.setting.options.targetUrl =
      PrefabLocation.trimSlashes options.targetUrl ++ "/" ++ folderOf disk project assets := by
    rw [setting_of_compilation? hc]
    exact PrefabLocation.trimSlashes_append _ (properName_folderOf disk project assets)
  refine ⟨_, hnames, hplace, hurl.trans ?_⟩
  rw [htarget, ← PrefabLocation.foldl_segment, ← PrefabLocation.foldl_segment]
  rfl

/-- The folder of a project is the first candidate that is not taken, where the search ends when it can
count the entries, and it is the last name of the target. Everything is written below the target, and
prefabs have addresses under the folder's name. The target was not there before, when the assets were
or when no step up is on the way to them. -/
theorem folder_search (hdisk : disk.IsTree) (project assets : Path) :
    let name := project.fileName?.getD "project"
    let folder := folderOf disk project assets
    let target := targetOf disk project assets
    (disk.entries.length < 2 ^ 31 - 1 →
      ∀ found, Searches disk assets name name 1 found ↔ found = folder) ∧
    (∃ k ≤ disk.entries.length, folder = candidate name k ∧ disk.exists? target = false ∧
      ∀ j < k, disk.exists? (assets.join ⟨candidate name j⟩) = true) ∧
    target.fileName? = some folder ∧
    (∀ options c, compilation? disk project assets options = some c →
      c.setting.options.outputRoot = target ∧
      (∀ out ∈ c.intake.copied ++ c.intake.converted, ∃ names, out = target.below names) ∧
      ∀ a ∈ c.journal.accepted, ∃ names, names ≠ [] ∧
        (∀ here, a.1.outputPath.locate here = target.locate here ++ names) ∧
        a.1.url = "/".intercalate
          (PrefabLocation.trimSlashes options.targetUrl :: folder :: names)) ∧
    (disk.isDirectory assets = true ∨ .up ∉ assets.components →
      (disk.makeDirectories target).1 = .ok () →
        disk.entry? (target.locate disk.working) = none) := by
  have hname := properName_projectName project
  refine ⟨fun hroom found => searches_iff hdisk hroom hname, ?_, ?_, fun options c hc => ?_,
    fun hassets hmade => target_free hdisk hassets hmade⟩
  · obtain ⟨k, hk, hfolder, hfree, htaken⟩ := freshFolder_least disk hdisk assets hname
    exact ⟨k, hk, hfolder, by rwa [targetOf, folderOf, hfolder], htaken⟩
  · exact fileName?_join_name assets (properName_folderOf disk project assets)
  · refine ⟨(roots_of_compilation? hc).2, fun out hout => ?_, fun a ha => exists_address hc ha⟩
    obtain ⟨names, -, hplace⟩ := exists_below_of_mem hdisk hc hout
    exact ⟨names, hplace⟩

/-- A second import of a scene goes to a new folder, and its address tells so. -/
theorem sceneImported_again :
    sceneImported.IsTree ∧ sceneImported.entries.length < 2 ^ 31 - 1 ∧
      Searches sceneImported ⟨"assets"⟩ "game" "game" 1 "game_1" ∧
      (∃ c, compilation? sceneImported ⟨"game"⟩ ⟨"assets"⟩ {} = some c ∧
        c.journal.accepted.map (·.1.url) = ["db://assets/game_1/ui/Main.prefab"]) ∧
      sceneImported.isDirectory ⟨"assets"⟩ = true ∧
      sceneImported.entry? ["assets", "game_1"] = none := by
  have htree : sceneImported.IsTree :=
    .of_entries ⟨by decide +kernel, by decide +kernel⟩ (by decide +kernel) (by decide)
  have hroom : sceneImported.entries.length < 2 ^ 31 - 1 := by decide
  have hassets : sceneImported.isDirectory ⟨"assets"⟩ = true := by decide +kernel
  obtain ⟨hsearch, -, -, -, hnew⟩ := folder_search htree ⟨"game"⟩ ⟨"assets"⟩
  have hfolder : folderOf sceneImported ⟨"game"⟩ ⟨"assets"⟩ = "game_1" := by decide +kernel
  have hstored : (compilation? sceneImported ⟨"game"⟩ ⟨"assets"⟩ {}).map
      (fun c => c.journal.accepted.map (·.1.url)) = some ["db://assets/game_1/ui/Main.prefab"] := by
    decide +kernel
  obtain ⟨c, hc, hurls⟩ := Option.map_eq_some_iff.1 hstored
  exact ⟨htree, hroom, (hsearch hroom "game_1").2 hfolder.symm, ⟨c, hc, hurls⟩, hassets,
    hnew (.inl hassets) (by decide +kernel)⟩

/-- On a way to the assets over a directory that is missing the search takes the name of a folder that
is there. -/
theorem sceneImported_reused :
    let target := targetOf sceneImported ⟨"game"⟩ ⟨"missing/../assets"⟩
    folderOf sceneImported ⟨"game"⟩ ⟨"missing/../assets"⟩ = "game" ∧
      (sceneImported.makeDirectories target).1 = .ok () ∧
      target.locate sceneImported.working = ["assets", "game"] ∧
      sceneImported.entry? ["assets", "game"] = some .directory := by
  decide +kernel

end MarkupScene.ImportReport
