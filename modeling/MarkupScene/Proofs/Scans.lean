import MarkupScene.Proofs.ImportedPlaces
import MarkupScene.Proofs.Visits

/-!
# Scans of projects

The scan of an import makes the target and tours the resource directory. Making the target changes
no entry, and it makes directories only on the way to it when the assets are there or are reached
without a step up; nothing is below the target then. The main statement gives the tour of
every import that gets to its compilation.
-/
namespace MarkupScene.ImportReport

open MarkupScene.Path Disk

def resourcesOf (project : Path) : Path := project.join ⟨resourceFolder⟩

theorem resourcesOf_ne_empty (project : Path) : (resourcesOf project).text ≠ "" :=
  join_name_ne_empty project (by decide)

section
variable {disk made : Disk} {project assets : Path}

theorem made_kept (hdisk : disk.IsTree)
    (hmade : disk.makeDirectories (targetOf disk project assets) = (.ok (), made))
    {l : Location} {e : Entry} (hl : disk.entry? l = some e) : made.entry? l = some e := by
  have hgrows := hdisk.makeDirectories_grows (targetOf disk project assets)
  have hwrites := disk.makeDirectories_writes (targetOf disk project assets)
  rw [hmade] at hgrows hwrites
  cases e with
  | directory => exact hgrows.directory hl
  | file content => exact (hwrites.outside id content).2 hl

theorem made_above (hdisk : disk.IsTree)
    (hassets : disk.isDirectory assets = true ∨ .up ∉ assets.components)
    (hmade : disk.makeDirectories (targetOf disk project assets) = (.ok (), made)) :
    Grows (· <+: (targetOf disk project assets).locate disk.working) disk made := by
  have hfolder := properName_folderOf disk project assets
  rw [targetOf] at hmade ⊢
  rcases hassets with hassets | hup
  · have hgrows := hdisk.makeDirectories_join_grows hassets hfolder
    rw [hmade] at hgrows
    refine hgrows.mono ?_
    rintro l rfl
    exact List.prefix_refl _
  · have hup' : .up ∉ (assets.join ⟨folderOf disk project assets⟩).components := by
      rw [components_join_name assets hfolder]
      simpa using hup
    have hgrows := hdisk.makeDirectories_above hup'
    rwa [hmade] at hgrows

theorem made_clear (hdisk : disk.IsTree)
    (hassets : disk.isDirectory assets = true ∨ .up ∉ assets.components)
    (hmade : disk.makeDirectories (targetOf disk project assets) = (.ok (), made))
    {ns : List String} (hns : ns ≠ []) :
    made.entry? ((targetOf disk project assets).locate made.working ++ ns) = none := by
  have habove := made_above hdisk hassets hmade
  have hfree := target_free hdisk hassets
    (show (disk.makeDirectories (targetOf disk project assets)).1 = .ok () by rw [hmade])
  rw [habove.working, habove.outside]
  · exact hdisk.entry?_below hfree (List.prefix_append _ ns)
  · intro hprefix
    have hlength := hprefix.length_le
    rw [List.length_append] at hlength
    exact hns (List.length_eq_zero_iff.1 (by omega))

theorem made_isDirectory
    (hmade : disk.makeDirectories (targetOf disk project assets) = (.ok (), made)) :
    made.isDirectory (targetOf disk project assets) = true := by
  have hne := join_name_ne_empty assets (properName_folderOf disk project assets)
  have hthere := isDirectory_of_made hne (d := disk) (by rw [← targetOf, hmade])
  rwa [← targetOf, hmade] at hthere

end

/-- The tour of an import, from the target as it was made. -/
structure Scan (disk : Disk) (project assets : Path) (c : Compilation) (made : Disk)
    (seen : List (List String)) : Prop where
  resources : disk.isDirectory (resourcesOf project) = true
  target : disk.makeDirectories (targetOf disk project assets) = (.ok (), made)
  tree : made.IsTree
  tour : ∃ found, made.readDirectory (resourcesOf project) = .ok found ∧
    Tour.Steps (resourcesOf project) (targetOf disk project assets) (Intake.tourOf made found)
      ⟨[], seen, c.intake⟩
  sound : Tour.Sound (resourcesOf project) (targetOf disk project assets) made ⟨[], seen, c.intake⟩
  recorded : Tour.Recorded (resourcesOf project) (targetOf disk project assets)
    ⟨[], seen, c.intake⟩

/-- An import that gets to its compilation has toured its resources. -/
theorem exists_scan {disk : Disk} (hdisk : disk.IsTree) {project assets : Path}
    {options : Options} {c : Compilation}
    (hc : compilation? disk project assets options = some c) :
    ∃ made seen, Scan disk project assets c made seen := by
  obtain ⟨made, hmade, htaken, -⟩ := of_compilation? hc
  have hresources : disk.isDirectory (resourcesOf project) = true := by
    unfold compilation? at hc
    dsimp only at hc
    split at hc
    · assumption
    · cases hc
  have htree : made.IsTree := by
    have hgrows := hdisk.makeDirectories_grows (targetOf disk project assets)
    rw [hmade] at hgrows
    exact hgrows.tree hdisk
  rw [← resourcesOf] at htaken
  cases hread : made.readDirectory (resourcesOf project) with
  | error fault =>
    rw [Intake.ofTree_unread _ hread] at htaken
    cases htaken
  | ok found =>
    obtain ⟨t, hsteps, hstop⟩ := Intake.takeTree_tour htree.toProper
      (targetOf disk project assets) hread (Nat.le_refl pathLimit)
    rw [show (Taking.takeTree pathLimit _ _).run { disk := made } = _ from htaken] at hstop
    cases hstop with
    | @done seen i =>
      exact ⟨made, seen, hresources, hmade, htree, ⟨found, hread, hsteps⟩,
        (Tour.sound_tourOf htree (made_isDirectory hmade) hread).steps hsteps,
        (Tour.recorded_tourOf made found).steps hsteps⟩

/-- What is below the resources is visited by the scan. -/
theorem Scan.visited {disk made : Disk} {project assets : Path} {c : Compilation}
    {seen : List (List String)} (h : Scan disk project assets c made seen) {names : List String}
    (hne : names ≠ []) (hnames : ∀ n ∈ names, ProperName n)
    (hexists : made.exists? ((resourcesOf project).below names) = true) : names ∈ seen := by
  have hsource := resourcesOf_ne_empty project
  refine h.sound.complete rfl h.tree hsource hne hnames ?_ ?_
  · obtain ⟨front, n, rfl⟩ : ∃ front n, names = front ++ [n] := by
      obtain h | ⟨front, n, h⟩ := List.eq_nil_or_concat names
      · exact absurd h hne
      · exact ⟨front, n, by rw [h, List.concat_eq_append]⟩
    obtain ⟨l, e, hwalk⟩ := exists_walk hexists
    rw [below_concat] at hwalk
    rw [List.dropLast_concat]
    exact isDirectory_of_join (below_ne_empty hsource fun m hm => hnames m (by simp [hm]))
      (hnames n (by simp)) hwalk
  · obtain ⟨e, he⟩ := h.tree.exists_entry hexists
    rw [locate_below _ _ hnames] at he
    rw [he]
    exact Option.some_ne_none e

end MarkupScene.ImportReport
