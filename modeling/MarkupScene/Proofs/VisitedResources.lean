import MarkupScene.Proofs.FileLists
import MarkupScene.Proofs.Scans

/-!
# Visited resources

What a scan visits. Its walk has a bound on the depth that is never used up. When the target does
not lie in the resources, the main statement says that the walk visits what was there before, each
entry once, and nothing that the import has made. When the target does lie there, the walk goes down
into its own copies until a path is too long.
-/
namespace MarkupScene

open MarkupScene.Path Disk

namespace Tour

/-- What a tour of some resources has visited: entries of the disk as it was, in directories of the
disk as it was, each of them once, and in the end all of them. The resources stay as they are. -/
structure Covers (source : Path) (disk : Disk) (t : Tour) : Prop where
  once : t.seen.Nodup
  old : ∀ ns ∈ t.seen, disk.isDirectory (source.below ns.dropLast) = true ∧
    disk.entry? (source.locate disk.working ++ ns) ≠ none
  all : t.todo = [] → ∀ ns, ns ≠ [] → disk.isDirectory (source.below ns.dropLast) = true →
    disk.entry? (source.locate disk.working ++ ns) ≠ none → ns ∈ t.seen
  same : ∀ ns, t.intake.disk.entry? (source.locate disk.working ++ ns) =
    disk.entry? (source.locate disk.working ++ ns)

end Tour

namespace ImportReport

section
variable {disk made : Disk} {project assets : Path}

theorem target_apart (hdisk : disk.IsTree)
    (hassets : disk.isDirectory assets = true ∨ .up ∉ assets.components)
    (hresources : disk.isDirectory (resourcesOf project) = true)
    (hmade : disk.makeDirectories (targetOf disk project assets) = (.ok (), made))
    (hapart : ¬(resourcesOf project).locate disk.working <+:
      (targetOf disk project assets).locate disk.working) (ns : List String) :
    ¬(targetOf disk project assets).locate disk.working <+:
      (resourcesOf project).locate disk.working ++ ns := by
  intro hbelow
  rcases List.prefix_or_prefix_of_prefix hbelow (List.prefix_append _ ns) with habove | habove
  · have hfree := target_free hdisk hassets
      (show (disk.makeDirectories (targetOf disk project assets)).1 = .ok () by rw [hmade])
    have hnone := hdisk.entry?_below hfree habove
    rw [hdisk.entry?_of_isDirectory hresources] at hnone
    cases hnone
  · exact hapart habove

theorem made_same (hdisk : disk.IsTree)
    (hassets : disk.isDirectory assets = true ∨ .up ∉ assets.components)
    (hmade : disk.makeDirectories (targetOf disk project assets) = (.ok (), made))
    (hapart : ¬(resourcesOf project).locate disk.working <+:
      (targetOf disk project assets).locate disk.working) (ns : List String) :
    made.entry? ((resourcesOf project).locate disk.working ++ ns) =
      disk.entry? ((resourcesOf project).locate disk.working ++ ns) := by
  refine (made_above hdisk hassets hmade).outside fun habove => hapart ?_
  exact (List.prefix_append _ ns).trans habove

theorem covers_of_steps (hdisk : disk.IsTree)
    (hassets : disk.isDirectory assets = true ∨ .up ∉ assets.components)
    (hresources : disk.isDirectory (resourcesOf project) = true)
    (hmade : disk.makeDirectories (targetOf disk project assets) = (.ok (), made))
    (hapart : ¬(resourcesOf project).locate disk.working <+:
      (targetOf disk project assets).locate disk.working) {found : List String}
    (hread : made.readDirectory (resourcesOf project) = .ok found) {t : Tour}
    (hsteps : Tour.Steps (resourcesOf project) (targetOf disk project assets)
      (Intake.tourOf made found) t) : t.Covers (resourcesOf project) disk := by
  have hgrows := hdisk.makeDirectories_grows (targetOf disk project assets)
  rw [hmade] at hgrows
  have htree : made.IsTree := hgrows.tree hdisk
  have hworking : made.working = disk.working := hgrows.working
  have hsound := (Tour.sound_tourOf htree (made_isDirectory hmade) hread).steps hsteps
  have hsame : ∀ ns, t.intake.disk.entry? ((resourcesOf project).locate disk.working ++ ns) =
      disk.entry? ((resourcesOf project).locate disk.working ++ ns) := by
    intro ns
    rw [hsound.grows.outside, made_same hdisk hassets hmade hapart]
    rintro ⟨ms, -, hplace⟩
    refine target_apart hdisk hassets hresources hmade hapart ns ?_
    rw [hplace, hworking]
    exact List.prefix_append _ ms
  refine ⟨hsound.once, ?_, ?_, hsame⟩
  · intro ns hns
    have hnames := (hsound.names ns (List.mem_append_right _ hns)).2
    obtain ⟨hdirectory, hentry⟩ := hsound.listed ns (List.mem_append_right _ hns)
    rw [hworking, hsame] at hentry
    refine ⟨hdisk.isDirectory_below hsound.tree hresources ?_ ?_ (hsame _) hdirectory, hentry⟩
    · exact fun n hn => hnames n (List.dropLast_subset _ hn)
    · exact hsound.grows.working.trans hworking
  · intro hend ns hne hdirectory hentry
    have hnames : ∀ n ∈ ns, ProperName n := fun n hn =>
      hdisk.toProper.names_of_entry hentry n (List.mem_append_right _ hn)
    refine hsound.complete hend htree (resourcesOf_ne_empty project) hne hnames
      (hgrows.isDirectory hdirectory) ?_
    rw [hworking]
    exact hgrows.entry?_ne_none hentry

theorem Scan.compiled {c : Compilation} {seen : List (List String)}
    (h : Scan disk project assets c made seen) {p : Path} (hp : p ∈ c.files) :
    p ∈ c.setting.skins.paths ∨ ∃ ns ∈ seen, p = ((resourcesOf project).below ns).normalize := by
  obtain ⟨-, -, hall⟩ := filesToCompile_spec c.setting.skins c.intake.documents
  refine ((hall p).1 hp).imp_right fun ⟨q, hq, hnormal⟩ => ?_
  obtain ⟨f, hf, hrole⟩ := List.mem_filterMap.1 hq
  obtain ⟨ns, hns, hpath⟩ := List.mem_map.1
    (h.recorded.paths.subset (List.mem_map_of_mem (f := (·.path)) hf))
  refine ⟨ns, hns, ?_⟩
  have hsame : f.path = q := by
    split at hrole
    · exact Option.some.inj hrole
    · cases hrole
  rw [← hnormal, ← hsame]
  exact congrArg Path.normalize hpath.symm

end

/-- The scan of an import ends: no bound on its depth is used up. When the target does not lie in
the resources, it visits what was there before, each entry once, and what is compiled was visited or
is named by a theme. -/
theorem scan_visits_resources {disk made : Disk} (hdisk : disk.IsTree) {project assets : Path}
    (hresources : disk.isDirectory (resourcesOf project) = true)
    (hmade : disk.makeDirectories (targetOf disk project assets) = (.ok (), made)) :
    (∀ depth, pathLimit ≤ depth →
      (Taking.takeTree depth (resourcesOf project) (targetOf disk project assets)).run
        { disk := made } =
          Intake.ofTree made (resourcesOf project) (targetOf disk project assets)) ∧
    (disk.isDirectory assets = true ∨ .up ∉ assets.components →
      ¬(resourcesOf project).locate disk.working <+:
        (targetOf disk project assets).locate disk.working →
      ∃ found t, made.readDirectory (resourcesOf project) = .ok found ∧
        Tour.Steps (resourcesOf project) (targetOf disk project assets)
          (Intake.tourOf made found) t ∧
        Tour.Stops (resourcesOf project) (targetOf disk project assets) t
          (Intake.ofTree made (resourcesOf project) (targetOf disk project assets)) ∧
        t.Covers (resourcesOf project) disk ∧
        ∀ options c, compilation? disk project assets options = some c →
          t.todo = [] ∧ t.intake = c.intake ∧ ∀ p ∈ c.files, p ∈ c.setting.skins.paths ∨
            ∃ ns ∈ t.seen, p = ((resourcesOf project).below ns).normalize) := by
  have hgrows := hdisk.makeDirectories_grows (targetOf disk project assets)
  rw [hmade] at hgrows
  have htree : made.IsTree := hgrows.tree hdisk
  refine ⟨fun depth hdepth => Intake.takeTree_depth htree.toProper _ _ hdepth, ?_⟩
  intro hassets hapart
  obtain ⟨found, hread⟩ := exists_readDirectory (hgrows.isDirectory hresources)
  obtain ⟨t, hsteps, hstop⟩ := Intake.takeTree_tour htree.toProper
    (targetOf disk project assets) hread (Nat.le_refl pathLimit)
  refine ⟨found, t, hread, hsteps, hstop,
    covers_of_steps hdisk hassets hresources hmade hapart hread hsteps, fun options c hc => ?_⟩
  -- The tour of the compilation starts alike, so that it is this one.
  obtain ⟨made', seen, hscan⟩ := exists_scan hdisk hc
  obtain rfl : made' = made := by
    have htarget := hscan.target
    rw [hmade] at htarget
    exact (Prod.mk.inj htarget).2.symm
  obtain ⟨found', hread', hsteps'⟩ := hscan.tour
  rw [hread] at hread'
  obtain rfl := Except.ok.inj hread'
  obtain ⟨rfl, -⟩ := hsteps.unique hstop hsteps' .done
  exact ⟨rfl, rfl, fun p hp => hscan.compiled hp⟩

theorem oneScene_visited :
    ∃ made, oneScene.IsTree ∧ oneScene.isDirectory ⟨"assets"⟩ = true ∧
      oneScene.isDirectory (resourcesOf ⟨"game"⟩) = true ∧
      oneScene.makeDirectories (targetOf oneScene ⟨"game"⟩ ⟨"assets"⟩) = (.ok (), made) ∧
      ¬(resourcesOf ⟨"game"⟩).locate oneScene.working <+:
        (targetOf oneScene ⟨"game"⟩ ⟨"assets"⟩).locate oneScene.working ∧
      ∃ t : Tour, t.todo = [] ∧ t.Covers (resourcesOf ⟨"game"⟩) oneScene ∧
        ["ui", "Main.exml"] ∈ t.seen := by
  have htree : oneScene.IsTree :=
    .of_entries ⟨by decide +kernel, by decide +kernel⟩ (by decide +kernel) (by decide)
  have hassets : oneScene.isDirectory ⟨"assets"⟩ = true := by decide +kernel
  have hresources : oneScene.isDirectory (resourcesOf ⟨"game"⟩) = true := by decide +kernel
  have hmade : oneScene.makeDirectories (targetOf oneScene ⟨"game"⟩ ⟨"assets"⟩) =
      (.ok (), (oneScene.makeDirectories (targetOf oneScene ⟨"game"⟩ ⟨"assets"⟩)).2) :=
    Prod.ext (by decide +kernel) rfl
  have hapart : ¬(resourcesOf ⟨"game"⟩).locate oneScene.working <+:
      (targetOf oneScene ⟨"game"⟩ ⟨"assets"⟩).locate oneScene.working := by decide +kernel
  obtain ⟨c, -, -, hc, -⟩ :=
    oneScene_stored ⟨"game"⟩ "assets/game/ui/Main.prefab" (by decide +kernel)
  obtain ⟨found, t, -, -, -, hcovers, hcompiled⟩ :=
    (scan_visits_resources htree hresources hmade).2 (.inl hassets) hapart
  obtain ⟨hend, -, -⟩ := hcompiled {} c hc
  refine ⟨_, htree, hassets, hresources, hmade, hapart, t, hend, hcovers, ?_⟩
  exact hcovers.all hend _ (by decide) (by decide +kernel) (by decide +kernel)

/-- A project whose assets are its resources. -/
def nestedAssets : Disk where
  entries := [(["game"], .directory), (["game", "resource"], .directory),
    (["game", "resource", "hint.txt"], .file "hint".toUTF8)]

/-- The target lies in the resources then, and the scan visits it. -/
theorem nestedAssets_visited :
    ∃ made found t,
      nestedAssets.makeDirectories (targetOf nestedAssets ⟨"game"⟩ ⟨"game/resource"⟩) =
        (.ok (), made) ∧
      made.readDirectory (resourcesOf ⟨"game"⟩) = .ok found ∧
      Tour.Steps (resourcesOf ⟨"game"⟩) (targetOf nestedAssets ⟨"game"⟩ ⟨"game/resource"⟩)
        (Intake.tourOf made found) t ∧
      ["game"] ∈ t.seen ∧ nestedAssets.entry?
        ((resourcesOf ⟨"game"⟩).locate nestedAssets.working ++ ["game"]) = none := by
  have htarget : targetOf nestedAssets ⟨"game"⟩ ⟨"game/resource"⟩ = ⟨"game/resource/game"⟩ := by
    decide +kernel
  have hfacts : let first := nestedAssets.makeDirectories ⟨"game/resource/game"⟩
      let second := first.2.makeDirectories (Path.below ⟨"game/resource/game"⟩ ["game"])
      first.1 = .ok () ∧ first.2.readDirectory (resourcesOf ⟨"game"⟩) = .ok ["game", "hint.txt"] ∧
        first.2.isDirectory ((resourcesOf ⟨"game"⟩).below ["game"]) = true ∧ second.1 = .ok () ∧
          second.2.readDirectory ((resourcesOf ⟨"game"⟩).below ["game"]) = .ok ["game"] := by
    decide +kernel
  rw [htarget]
  generalize nestedAssets.makeDirectories ⟨"game/resource/game"⟩ = first at hfacts ⊢
  obtain ⟨_, made⟩ := first
  obtain ⟨rfl, hfound, hdirectory, hsecond, hread⟩ := hfacts
  have hstep : Tour.Step (resourcesOf ⟨"game"⟩) ⟨"game/resource/game"⟩
      (Intake.tourOf made ["game", "hint.txt"]) _ :=
    .directory (i := { disk := made }) hdirectory (Prod.ext hsecond rfl) hread
  exact ⟨made, _, _, rfl, hfound, .single hstep, List.mem_cons_self, by decide +kernel⟩

end ImportReport

end MarkupScene
