import MarkupScene.Proofs.HandledFiles
import MarkupScene.Proofs.PrefabPlaces
import MarkupScene.Proofs.Scans

/-!
# Places of outputs

Where an import puts what it makes. A copy and a converted font have the names of their file, so
that no two of them meet. A prefab has the directory of its source, or none, and only the stem of
its file name, and the store does not look whether its place is taken. The main statement says when
outputs meet: two prefabs when these names are the same, and then they have one address, and a
prefab and a copy when a resource has the name of the prefab.
-/
namespace MarkupScene

open MarkupScene.Path Disk

namespace PrefabLocation

theorem url_names {o : Options} {front : List Component} {n : String}
    (hroot : o.sourceRoot.components = front ++ [.name n]) {source : Path}
    (hsource : source.normalize = source) :
    (ofSource o source).url = "/".intercalate (trimSlashes o.targetUrl :: names o source) := by
  obtain ⟨above, hall, hdirectory, hnames⟩ := exists_names hroot hsource
  rw [hnames, (ofSource_of_directory hall hdirectory).2]

theorem intercalate_inj {url : String} {names others : List String} (hne : names ≠ [])
    (hnames : ∀ n ∈ names, ProperName n) (hne' : others ≠ [])
    (hothers : ∀ n ∈ others, ProperName n)
    (h : "/".intercalate (url :: names) = "/".intercalate (url :: others)) : names = others := by
  obtain ⟨n, rest, rfl⟩ := List.exists_cons_of_ne_nil hne
  obtain ⟨m, rest', rfl⟩ := List.exists_cons_of_ne_nil hne'
  rw [String.intercalate_cons_cons, String.intercalate_cons_cons, String.append_right_inj] at h
  have hcomponents := components_ofNames hnames
  rw [show Path.ofNames (n :: rest) = Path.ofNames (m :: rest') from congrArg Path.mk h,
    components_ofNames hothers] at hcomponents
  exact List.map_injective_iff.2 (fun _ _ hsame => Component.name.inj hsame) hcomponents.symm

end PrefabLocation

namespace Intake

/-- The files that were written when resources were taken in. -/
def outputs (i : Intake) : List Path := i.files.filterMap (·.role.output?)

theorem outputs_perm (i : Intake) : (i.copied ++ i.converted).Perm i.outputs := by
  unfold copied converted outputs
  induction i.files with
  | nil => exact .nil
  | cons f rest ih =>
    rcases f with ⟨path, role⟩
    cases role with
    | copied out => exact ih.cons out
    | converted out => exact List.perm_middle.trans (ih.cons out)
    | _ => exact ih

end Intake

theorem Tour.Recorded.nodup_outputs {source target : Path} {t : Tour}
    (h : Recorded source target t) (honce : t.seen.Nodup)
    (hnames : ∀ ns ∈ t.seen, ∀ n ∈ ns, ProperName n) (here : Location) :
    (t.intake.outputs.map (·.locate here)).Nodup := by
  have hseen : (t.seen.map source.below).Nodup := by
    refine honce.map_on fun ns hns ms hms hsame => ?_
    exact below_injective source (hnames ns hns) (hnames ms hms) hsame
  have hpaths : t.intake.files.Pairwise fun f g => f.path ≠ g.path :=
    List.pairwise_map.1 (h.paths.nodup hseen)
  rw [List.Nodup, List.pairwise_map, Intake.outputs, List.pairwise_filterMap]
  refine hpaths.imp_of_mem fun {f g} hf hg hpath out hout out' hout' hsame => ?_
  obtain ⟨ns, hns, hfpath, rfl⟩ := h.outputs f hf out hout
  obtain ⟨ms, hms, hgpath, rfl⟩ := h.outputs g hg out' hout'
  rw [locate_below _ _ (hnames ns hns), locate_below _ _ (hnames ms hms)] at hsame
  exact hpath (by rw [hfpath, hgpath, List.append_cancel_left hsame])

namespace ImportReport

namespace Compilation

/-- The files that an import writes into its target: copies, converted fonts and prefabs. -/
def outputs (c : Compilation) : List Path :=
  c.intake.copied ++ c.intake.converted ++ c.journal.accepted.map (·.1.outputPath)

/-- The names of the places of prefabs below the target. -/
def places (c : Compilation) : List (List String) :=
  c.journal.accepted.map fun a => PrefabLocation.names c.setting.options a.1.source

end Compilation

section
variable {disk : Disk} {project assets : Path} {options : Options} {c : Compilation}

theorem roots_of_compilation? (hc : compilation? disk project assets options = some c) :
    c.setting.options.sourceRoot.components = project.components ++ [.name resourceFolder] ∧
      c.setting.options.outputRoot = targetOf disk project assets := by
  rw [setting_of_compilation? hc]
  exact ⟨components_join_name project (by decide), rfl⟩

theorem place_of_accepted (hc : compilation? disk project assets options = some c)
    {a : Prefab × PrefabRef} (ha : a ∈ c.journal.accepted) :
    let names := PrefabLocation.names c.setting.options a.1.source
    names ≠ [] ∧ (∀ n ∈ names, ProperName n) ∧
      (∀ here, a.1.outputPath.locate here = (targetOf disk project assets).locate here ++ names) ∧
        a.1.url =
          "/".intercalate (PrefabLocation.trimSlashes c.setting.options.targetUrl :: names) := by
  obtain ⟨p, handle⟩ := a
  have haccounted : c.setting.Accounted (c.setting.watchRun c.world c.files) :=
    Setting.watchRun_induction (c.setting.accounted c.world) c.files
  obtain ⟨path, root, rfl, hnormal, -⟩ := haccounted.stored (Journal.mem_accepted.1 ha)
  obtain ⟨hroot, houtput⟩ := roots_of_compilation? hc
  obtain ⟨hnames, hplace⟩ := PrefabLocation.ofSource_names hroot hnormal
  refine ⟨by simp [PrefabLocation.names], hnames, fun here => ?_,
    PrefabLocation.url_names hroot hnormal⟩
  have hlocate := congrArg (·.locate here) hplace
  rwa [locate_join_ofNames _ here hnames, houtput] at hlocate

theorem exists_below_of_mem (hdisk : disk.IsTree)
    (hc : compilation? disk project assets options = some c) {out : Path}
    (hout : out ∈ c.intake.copied ++ c.intake.converted) :
    ∃ names, (∀ n ∈ names, ProperName n) ∧ out = (targetOf disk project assets).below names := by
  obtain ⟨made, seen, h⟩ := exists_scan hdisk hc
  obtain ⟨f, hf, hrole⟩ := List.mem_filterMap.1 (c.intake.outputs_perm.mem_iff.1 hout)
  obtain ⟨ns, hns, -, hplace⟩ := h.recorded.outputs f hf out hrole
  exact ⟨ns, (h.sound.names ns (List.mem_append_right _ hns)).2, hplace⟩

/-- The prefab of a resource file keeps its directory when the project is spelled normally. -/
theorem names_resourceFile (hc : compilation? disk project assets options = some c)
    {names : List String} {stem : String} (hnames : ∀ n ∈ names, ProperName n)
    (hstem : stem ≠ "") (hslash : '/' ∉ stem.toList) :
    PrefabLocation.names c.setting.options (resourceFile project names stem) =
      keptNames project names ++ [stem ++ ".prefab"] := by
  obtain ⟨hroot, houtput⟩ := roots_of_compilation? hc
  have hnormal : (resourceFile project names stem).normalize = resourceFile project names stem :=
    Path.normalize_normalize _
  obtain ⟨hproper, hplace⟩ := PrefabLocation.ofSource_names hroot hnormal
  obtain ⟨hkept, -⟩ := ofSource_resourceFile hc hnames hstem hslash
  have hall : ∀ n ∈ keptNames project names ++ [stem ++ ".prefab"], ProperName n := by
    refine List.forall_mem_append.2 ⟨?_, List.forall_mem_singleton.2 ?_⟩
    · unfold keptNames
      split
      · exact hnames
      · nofun
    · exact properName_append hslash (by decide) (by decide)
  have hlocate := congrArg (·.locate []) (hplace.symm.trans hkept)
  rw [houtput, locate_join_ofNames _ _ hproper, locate_join_ofNames _ _ hall] at hlocate
  exact List.append_cancel_left hlocate

theorem proper_of_mem_places (hc : compilation? disk project assets options = some c)
    {ns : List String} (hns : ns ∈ c.places) : ns ≠ [] ∧ ∀ n ∈ ns, ProperName n := by
  obtain ⟨a, ha, rfl⟩ := List.mem_map.1 hns
  obtain ⟨hne, hproper, -, -⟩ := place_of_accepted hc ha
  exact ⟨hne, hproper⟩

theorem locate_prefabs (hc : compilation? disk project assets options = some c) (here : Location) :
    (c.journal.accepted.map (·.1.outputPath)).map (·.locate here) =
      c.places.map ((targetOf disk project assets).locate here ++ ·) := by
  rw [Compilation.places, List.map_map, List.map_map]
  refine List.map_congr_left fun a ha => ?_
  obtain ⟨-, -, hplace, -⟩ := place_of_accepted hc ha
  exact hplace here

theorem nodup_urls_iff (hc : compilation? disk project assets options = some c) :
    (c.journal.accepted.map (·.1.url)).Nodup ↔ c.places.Nodup := by
  have hurls : c.journal.accepted.map (·.1.url) = c.places.map fun ns =>
      "/".intercalate (PrefabLocation.trimSlashes c.setting.options.targetUrl :: ns) := by
    rw [Compilation.places, List.map_map]
    refine List.map_congr_left fun a ha => ?_
    obtain ⟨-, -, -, hurl⟩ := place_of_accepted hc ha
    exact hurl
  rw [hurls]
  refine ⟨List.Nodup.of_map _, List.Nodup.map_on fun ns hns ms hms hsame => ?_⟩
  obtain ⟨hne, hproper⟩ := proper_of_mem_places hc hns
  obtain ⟨hne', hproper'⟩ := proper_of_mem_places hc hms
  exact PrefabLocation.intercalate_inj hne hproper hne' hproper' hsame

theorem nodup_taken (hdisk : disk.IsTree)
    (hc : compilation? disk project assets options = some c) (here : Location) :
    ((c.intake.copied ++ c.intake.converted).map (·.locate here)).Nodup := by
  obtain ⟨made, seen, h⟩ := exists_scan hdisk hc
  refine (c.intake.outputs_perm.map _).nodup_iff.2 ?_
  exact h.recorded.nodup_outputs h.sound.once
    (fun ns hns => (h.sound.names ns (List.mem_append_right _ hns)).2) here

theorem apart_iff (hdisk : disk.IsTree) (hc : compilation? disk project assets options = some c)
    (here : Location) :
    (∀ l ∈ (c.intake.copied ++ c.intake.converted).map (·.locate here),
      ∀ k ∈ c.places.map ((targetOf disk project assets).locate here ++ ·), l ≠ k) ↔
    ∀ ns ∈ c.places,
      (targetOf disk project assets).below ns ∉ c.intake.copied ++ c.intake.converted := by
  constructor
  · intro hapart ns hns hout
    refine hapart _ (List.mem_map_of_mem hout) _ (List.mem_map_of_mem hns) ?_
    exact locate_below _ _ (proper_of_mem_places hc hns).2
  · rintro hapart l hl k hk rfl
    obtain ⟨out, hout, hlocate⟩ := List.mem_map.1 hl
    obtain ⟨ns, hns, hsame⟩ := List.mem_map.1 hk
    obtain ⟨ms, hms, rfl⟩ := exists_below_of_mem hdisk hc hout
    rw [locate_below _ _ hms, ← hsame] at hlocate
    rw [List.append_cancel_left hlocate] at hout
    exact hapart ns hns hout

theorem nodup_sources (c : Compilation) : (c.journal.accepted.map (·.1.source)).Nodup := by
  have honce : Setting.HandledOnce (c.setting.watchRun c.world c.files) :=
    Setting.watchRun_induction (c.setting.handledOnce c.world) c.files
  exact (List.nodup_append.1 honce.nodup).1

theorem nodup_places (hc : compilation? disk project assets options = some c)
    (hspelled : project.normalize.components = project.components)
    (hresources : ∀ a ∈ c.journal.accepted, ∃ names stem, (∀ n ∈ names, ProperName n) ∧
      stem ≠ "" ∧ '/' ∉ stem.toList ∧ a.1.source = resourceFile project names stem) :
    c.places.Nodup := by
  rw [Compilation.places, List.Nodup, List.pairwise_map]
  refine (List.pairwise_map.1 (nodup_sources c)).imp_of_mem fun {a b} ha hb hother hsame =>
    hother ?_
  obtain ⟨names, stem, hnames, hstem, hslash, hsource⟩ := hresources a ha
  obtain ⟨names', stem', hnames', hstem', hslash', hsource'⟩ := hresources b hb
  rw [hsource, hsource', names_resourceFile hc hnames hstem hslash,
    names_resourceFile hc hnames' hstem' hslash', keptNames, keptNames, if_pos hspelled,
    if_pos hspelled] at hsame
  obtain ⟨rfl, hlast⟩ := List.append_inj' hsame rfl
  rw [hsource, hsource', (String.append_left_inj _).1 (List.singleton_inj.1 hlast)]

end

/-- The files that an import writes are in different places exactly when the prefabs have different
names below the target and no resource has one of these names, and the addresses of the prefabs are
different exactly when their names are. So they are when all that is compiled are resources of a
project that is spelled normally. -/
theorem import_separates_outputs {disk : Disk} (hdisk : disk.IsTree) {project assets : Path}
    {options : Options} {c : Compilation}
    (hc : compilation? disk project assets options = some c) :
    ((c.outputs.map (·.locate disk.working)).Nodup ↔ c.places.Nodup ∧
      ∀ ns ∈ c.places,
        (targetOf disk project assets).below ns ∉ c.intake.copied ++ c.intake.converted) ∧
    ((c.journal.accepted.map (·.1.url)).Nodup ↔ c.places.Nodup) ∧
    (c.journal.accepted.map (·.1.source)).Nodup ∧
    (project.normalize.components = project.components →
      (∀ a ∈ c.journal.accepted, ∃ names stem, (∀ n ∈ names, ProperName n) ∧ stem ≠ "" ∧
        '/' ∉ stem.toList ∧ a.1.source = resourceFile project names stem) → c.places.Nodup) := by
  refine ⟨?_, nodup_urls_iff hc, nodup_sources c, nodup_places hc⟩
  have happend : Function.Injective
      ((targetOf disk project assets).locate disk.working ++ · : List String → List String) :=
    fun _ _ => List.append_cancel_left
  rw [Compilation.outputs, List.map_append, locate_prefabs hc, List.nodup_append,
    apart_iff hdisk hc, List.nodup_map_iff happend]
  exact and_iff_right (nodup_taken hdisk hc disk.working)

/-- The scene of a project is the only output of its import. -/
theorem oneScene_outputs :
    oneScene.IsTree ∧ ∃ c, compilation? oneScene ⟨"game"⟩ ⟨"assets"⟩ {} = some c ∧
      c.places = [["ui", "Main.prefab"]] ∧ (c.outputs.map (·.locate oneScene.working)).Nodup := by
  have htree : oneScene.IsTree :=
    .of_entries ⟨by decide +kernel, by decide +kernel⟩ (by decide +kernel) (by decide)
  have houtputs : (compilation? oneScene ⟨"game"⟩ ⟨"assets"⟩ {}).map (fun c =>
      (c.intake.copied ++ c.intake.converted, c.places)) = some ([], [["ui", "Main.prefab"]]) := by
    decide +kernel
  obtain ⟨c, hc, hsame⟩ := Option.map_eq_some_iff.1 houtputs
  obtain ⟨htaken, hplaces⟩ := Prod.mk.inj hsame
  refine ⟨htree, c, hc, hplaces, (import_separates_outputs htree hc).1.2 ⟨?_, fun ns _ => ?_⟩⟩
  · rw [hplaces]
    decide
  · rw [htaken]
    exact List.not_mem_nil

/-- A project with a scene, a skin of the same stem elsewhere, and a resource with the name of their
prefab. -/
def sameStem : Disk where
  entries := [(["game"], .directory), (["game", "resource"], .directory),
    (["game", "resource", "A.exml"], .file "<e:Group/>".toUTF8),
    (["game", "resource", "A.prefab"], .file "A".toUTF8),
    (["game", "resource", "default.thm.json"],
      .file "\x7b\"skins\":\x7b\"eui.A\":\"skins/A.exml\"\x7d,\"exmls\":[]\x7d".toUTF8),
    (["game", "skins"], .directory), (["game", "skins", "A.exml"], .file "<e:Group/>".toUTF8),
    (["assets"], .directory)]

/-- Its import succeeds with one place for all three outputs, and one address for two sources. -/
theorem sameStem_overwritten :
    ∃ report c, (ofProject sameStem ⟨"game"⟩ ⟨"assets"⟩ {}).1 = .ok report ∧
      compilation? sameStem ⟨"game"⟩ ⟨"assets"⟩ {} = some c ∧
        (⟨"assets/game/A.prefab"⟩ : Path) ∈ c.intake.copied ∧
          ∃ p q, p ∈ c.journal.accepted ∧ q ∈ c.journal.accepted ∧ p.1.source ≠ q.1.source ∧
            p.1.outputPath = ⟨"assets/game/A.prefab"⟩ ∧
              q.1.outputPath = ⟨"assets/game/A.prefab"⟩ ∧ p.1.url = q.1.url := by
  have hok : (ofProject sameStem ⟨"game"⟩ ⟨"assets"⟩ {}).1.toOption.isSome = true := by
    decide +kernel
  have houtputs : (compilation? sameStem ⟨"game"⟩ ⟨"assets"⟩ {}).map (fun c => (c.intake.copied,
      c.journal.accepted.map fun a => (a.1.source.text, a.1.outputPath, a.1.url))) =
    some ([⟨"assets/game/A.prefab"⟩],
      [("game/skins/A.exml", ⟨"assets/game/A.prefab"⟩, "db://assets/game/A.prefab"),
        ("game/resource/A.exml", ⟨"assets/game/A.prefab"⟩, "db://assets/game/A.prefab")]) := by
    decide +kernel
  obtain ⟨report, hreport⟩ := Option.isSome_iff_exists.1 hok
  obtain ⟨c, hc, hsame⟩ := Option.map_eq_some_iff.1 houtputs
  obtain ⟨hcopied, hstored⟩ := Prod.mk.inj hsame
  obtain ⟨p, rest, haccepted, hp, hrest⟩ := List.map_eq_cons_iff.1 hstored
  obtain ⟨q, rfl, hq⟩ := List.map_eq_singleton_iff.1 hrest
  simp only [Prod.mk.injEq] at hp hq
  obtain ⟨hpsource, hpplace, hpurl⟩ := hp
  obtain ⟨hqsource, hqplace, hqurl⟩ := hq
  refine ⟨report, c, eq_ok_of_toOption hreport, hc, by simp [hcopied], p, q, by simp [haccepted],
    by simp [haccepted], fun hsource => ?_, hpplace, hqplace, hpurl.trans hqurl.symm⟩
  rw [hsource, hqsource] at hpsource
  exact absurd hpsource (by decide)

end ImportReport

end MarkupScene
