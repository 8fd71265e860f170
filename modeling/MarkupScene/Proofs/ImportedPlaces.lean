import MarkupScene.Project.Import
import MarkupScene.Proofs.Accounts
import MarkupScene.Proofs.Paths
import MarkupScene.Proofs.Runs

/-!
# Imported places

Where the prefabs of an imported project go. Files are taken by their normal paths, but the resource
directory is not: prefabs keep the directories of their files below it only when the project is
spelled normally, without a dot at the start and without steps up that cancel a name. The main
statement is that they do then, and that all of them go to the top of the target otherwise.
-/
namespace MarkupScene

open Text

namespace Path

theorem splitName_append {stem extension : String} (hstem : stem ≠ "")
    (hextension : '.' ∉ extension.toList) :
    splitName (stem ++ "." ++ extension) = (stem, some extension) := by
  have hchars : (stem ++ "." ++ extension).toList = stem.toList ++ '.' :: extension.toList := by
    simp
  have hne : stem.toList ≠ [] := by simpa using hstem
  rw [splitName, hchars, splitLast_append hextension]
  obtain ⟨c, cs, hcs⟩ := List.exists_cons_of_ne_nil hne
  rw [hcs]
  dsimp only
  rw [← hcs, String.ofList_toList, String.ofList_toList]

end Path

namespace PrefabLocation

theorem foldl_segments (url : String) (cs : List Path.Component) :
    cs.foldl (fun url c => url ++ "/" ++ segment c) url =
      "/".intercalate (url :: cs.map segment) := by
  induction cs generalizing url with
  | nil => rfl
  | cons c rest ih => exact ih (url ++ "/" ++ segment c)

theorem map_segment_names (names : List String) :
    (names.map Path.Component.name).map segment = names := by
  rw [List.map_map]
  exact List.map_id names

theorem foldl_segment (url : String) (names : List String) :
    (names.map Path.Component.name).foldl (fun url c => url ++ "/" ++ segment c) url =
      "/".intercalate (url :: names) := by
  rw [foldl_segments, map_segment_names]

theorem trimSlashes_append (front : String) {name : String} (h : Path.ProperName name) :
    trimSlashes (front ++ name) = front ++ name := by
  have hreverse : ∃ c cs, name.toList.reverse = c :: cs ∧ c ≠ '/' := by
    obtain ⟨c, cs, hcs⟩ := List.exists_cons_of_ne_nil (List.reverse_ne_nil_iff.2 h.1)
    refine ⟨c, cs, hcs, ?_⟩
    rintro rfl
    exact h.2.2.2 (List.mem_reverse.1 (hcs ▸ List.mem_cons_self))
  obtain ⟨c, cs, hcs, hc⟩ := hreverse
  have hkeep : (front ++ name).toList.reverse.dropWhile (· = '/') =
      (front ++ name).toList.reverse := by
    rw [String.toList_append, List.reverse_append, hcs, List.cons_append,
      List.dropWhile_cons_of_neg (by simpa using hc)]
  rw [trimSlashes, hkeep, List.reverse_reverse, String.ofList_toList]

theorem ofSource_of_directory {o : Options} {source : Path} {above : List String}
    (hproper : ∀ n ∈ above ++ [fileName source], Path.ProperName n)
    (hdirectory : directory o source = .ofNames above) :
    (ofSource o source).path = o.outputRoot.join (.ofNames (above ++ [fileName source])) ∧
      (ofSource o source).url =
        "/".intercalate (trimSlashes o.targetUrl :: (above ++ [fileName source])) := by
  constructor
  · rw [← Path.join_ofNames_join o.outputRoot hproper, ← hdirectory]
    rfl
  · have hcomponents : (directory o source).components = above.map .name := by
      rw [hdirectory, Path.components_ofNames fun m hm => hproper m (List.mem_append_left _ hm)]
    rw [← foldl_segment, List.map_append, List.foldl_append, ← hcomponents]
    rfl

theorem ofSource_below (o : Options) (base : Path) {roots names : List String} {stem : String}
    (hroot : o.sourceRoot = base.join (.ofNames roots)) (hroots : roots ≠ [])
    (hproper : ∀ n ∈ roots ++ names, Path.ProperName n) (hstem : stem ≠ "")
    (hslash : '/' ∉ stem.toList) :
    let kept := if base.normalize.components = base.components then names else []
    let location :=
      ofSource o (base.join (.ofNames (roots ++ names ++ [stem ++ ".exml"]))).normalize
    location.path = o.outputRoot.join (.ofNames (kept ++ [stem ++ ".prefab"])) ∧
      location.url =
        "/".intercalate (trimSlashes o.targetUrl :: (kept ++ [stem ++ ".prefab"])) := by
  intro kept location
  have hfile : Path.ProperName (stem ++ ".exml") :=
    Path.properName_append hslash (by decide) (by decide)
  have hall : ∀ n ∈ roots ++ names ++ [stem ++ ".exml"], Path.ProperName n :=
    List.forall_mem_append.2 ⟨hproper, List.forall_mem_singleton.2 hfile⟩
  obtain ⟨hname, dir, hparent, hrelative⟩ := Path.relativeTo?_below base hroots hall
  have hsplit : Path.splitName (stem ++ ".exml") = (stem, some "exml") := by
    have h := Path.splitName_append hstem (show '.' ∉ "exml".toList by decide)
    rwa [String.append_assoc] at h
  have hfileName : fileName (base.join (.ofNames (roots ++ names ++ [stem ++ ".exml"]))).normalize =
      stem ++ ".prefab" := by
    rw [fileName, Path.stem?, hname, Option.map_some, hsplit, Option.getD_some,
      String.append_assoc]
    rfl
  have hdirectory : directory o
      (base.join (.ofNames (roots ++ names ++ [stem ++ ".exml"]))).normalize = .ofNames kept := by
    rw [directory, hparent, Option.bind_some, hroot, hrelative]
    simp only [kept]
    split
    · rfl
    · rfl
  have hkept : ∀ n ∈ kept, Path.ProperName n := by
    intro n hn
    simp only [kept] at hn
    split at hn
    · exact hproper n (List.mem_append_right _ hn)
    · cases hn
  have hprefab : Path.ProperName (stem ++ ".prefab") :=
    Path.properName_append hslash (by decide) (by decide)
  have hplace := ofSource_of_directory (o := o)
    (List.forall_mem_append.2 ⟨hkept, by rwa [hfileName, List.forall_mem_singleton]⟩) hdirectory
  rwa [hfileName] at hplace

end PrefabLocation

namespace ImportReport

theorem toList_candidate_succ (name : String) (i : Nat) :
    (candidate name (i + 1)).toList = name.toList ++ '_' :: Nat.toDigits 10 (i + 1) := by
  rw [candidate, String.toList_append, String.toList_append, List.append_assoc]
  simp [toString, Nat.repr]

theorem properName_candidate {name : String} (h : Path.ProperName name) (i : Nat) :
    Path.ProperName (candidate name i) := by
  cases i with
  | zero => exact h
  | succ i =>
    have hdigits : '/' ∉ Nat.toDigits 10 (i + 1) := by
      intro hslash
      have hdigit := Nat.isDigit_of_mem_toDigits (by decide) (by decide) hslash
      revert hdigit
      decide
    have hline : ∀ cs : List Char, '_' ∉ cs → (candidate name (i + 1)).toList ≠ cs := by
      intro cs hcs hsame
      refine hcs (hsame ▸ ?_)
      rw [toList_candidate_succ]
      exact List.mem_append_right _ List.mem_cons_self
    refine ⟨hline _ (by simp), hline _ (by simp), hline _ (by simp), ?_⟩
    rw [toList_candidate_succ]
    intro hslash
    rcases List.mem_append.1 hslash with hslash | hslash
    · exact h.2.2.2 hslash
    · rcases List.mem_cons.1 hslash with hslash | hslash
      · exact absurd hslash (by decide)
      · exact hdigits hslash

theorem properName_freshFolder {name : String} (h : Path.ProperName name) (disk : Disk)
    (assets : Path) : Path.ProperName (freshFolder disk assets name) := by
  unfold freshFolder
  dsimp only
  cases hfind : ((List.range (disk.entries.length + 1)).map (candidate name)).find? fun folder =>
      !disk.exists? (assets.join ⟨folder⟩) with
  | none => exact h
  | some folder =>
    obtain ⟨i, -, rfl⟩ := List.mem_map.1 (List.mem_of_find?_eq_some hfind)
    exact properName_candidate h i

def folderOf (disk : Disk) (project assets : Path) : String :=
  freshFolder disk assets (project.fileName?.getD "project")

theorem properName_projectName (project : Path) :
    Path.ProperName (project.fileName?.getD "project") := by
  cases hname : project.fileName? with
  | none => decide
  | some name => exact Path.properName_of_fileName? hname

theorem properName_folderOf (disk : Disk) (project assets : Path) :
    Path.ProperName (folderOf disk project assets) :=
  properName_freshFolder (properName_projectName project) disk assets

def targetOf (disk : Disk) (project assets : Path) : Path :=
  assets.join ⟨folderOf disk project assets⟩

/-- What an import compiles, and what it has taken in before. -/
structure Compilation where
  intake : Intake
  setting : Setting World

namespace Compilation

def files (c : Compilation) : List Path := filesToCompile c.setting.skins c.intake.documents

/-- The outside of the compilation as the intake leaves it. -/
def world (c : Compilation) : World := { disk := c.intake.disk }

def journal (c : Compilation) : Journal World := c.setting.runJournal c.world c.files

end Compilation

/-- The compilation of an import, when it gets that far. -/
def compilation? (disk : Disk) (project assets : Path) (options : Options) : Option Compilation :=
  let source := project.join ⟨resourceFolder⟩
  let target := targetOf disk project assets
  if disk.isDirectory source then
    match disk.makeDirectories target with
    | (.error _, _) => none
    | (.ok (), made) =>
      match Intake.ofTree made source target with
      | (.error _, _) => none
      | (.ok (), intake) =>
        some ⟨intake, settingOf intake project source target (folderOf disk project assets) options⟩
  else none

/-- An import ends with its compilation, or fails before it. -/
theorem ofProject_eq (disk : Disk) (project assets : Path) (options : Options) :
    match compilation? disk project assets options with
    | some c =>
      let (result, world) := c.setting.run c.files c.world
      ofProject disk project assets options =
        (result.map fun compiled =>
            { target := targetOf disk project assets, copied := c.intake.copied,
              converted := c.intake.converted, animations := c.intake.animations, compiled },
          world.disk)
    | none => ∃ failure, (ofProject disk project assets options).1 = .error failure := by
  unfold compilation? ofProject importTree
  dsimp only
  rw [show assets.join ⟨freshFolder disk assets (project.fileName?.getD "project")⟩ =
    targetOf disk project assets from rfl]
  cases disk.isDirectory (project.join ⟨resourceFolder⟩) with
  | false => exact ⟨_, rfl⟩
  | true =>
    rcases disk.makeDirectories (targetOf disk project assets) with ⟨fault | ⟨⟩, made⟩
    · exact ⟨_, rfl⟩
    · dsimp only
      rcases Intake.ofTree made (project.join ⟨resourceFolder⟩) (targetOf disk project assets) with
        ⟨failure | ⟨⟩, intake⟩
      · exact ⟨_, rfl⟩
      · rfl

theorem eq_ok_of_toOption {disk : Disk} {project assets : Path} {options : Options}
    {report : ImportReport}
    (h : (ofProject disk project assets options).1.toOption = some report) :
    (ofProject disk project assets options).1 = .ok report := by
  generalize (ofProject disk project assets options).1 = result at h ⊢
  cases result with
  | error failure => cases h
  | ok other => rw [Option.some.inj h]

theorem exists_compilation {disk : Disk} {project assets : Path} {options : Options}
    {report : ImportReport} (h : (ofProject disk project assets options).1 = .ok report) :
    ∃ c, compilation? disk project assets options = some c ∧
      (c.setting.run c.files c.world).1 = .ok report.compiled := by
  have heq := ofProject_eq disk project assets options
  cases hc : compilation? disk project assets options with
  | none =>
    rw [hc] at heq
    obtain ⟨failure, hfailure⟩ := heq
    rw [hfailure] at h
    cases h
  | some c =>
    rw [hc] at heq
    dsimp only at heq
    rw [heq] at h
    refine ⟨c, rfl, ?_⟩
    cases hrun : (c.setting.run c.files c.world).1 with
    | error failure =>
      rw [hrun] at h
      cases h
    | ok compiled =>
      rw [hrun] at h
      obtain rfl := Except.ok.inj h
      rfl

theorem of_compilation? {disk : Disk} {project assets : Path} {options : Options}
    {c : Compilation} (hc : compilation? disk project assets options = some c) :
    ∃ made, disk.makeDirectories (targetOf disk project assets) = (.ok (), made) ∧
      Intake.ofTree made (project.join ⟨resourceFolder⟩) (targetOf disk project assets) =
        (.ok (), c.intake) ∧
      c.setting = settingOf c.intake project (project.join ⟨resourceFolder⟩)
        (targetOf disk project assets) (folderOf disk project assets) options := by
  unfold compilation? at hc
  dsimp only at hc
  split at hc
  · split at hc
    · cases hc
    · next made hmade =>
      split at hc
      · cases hc
      · next intake htaken =>
        obtain rfl := Option.some.inj hc
        exact ⟨made, hmade, htaken, rfl⟩
  · cases hc

theorem setting_of_compilation? {disk : Disk} {project assets : Path} {options : Options}
    {c : Compilation} (hc : compilation? disk project assets options = some c) :
    c.setting = settingOf c.intake project (project.join ⟨resourceFolder⟩)
      (targetOf disk project assets) (folderOf disk project assets) options := by
  obtain ⟨_, -, -, hsetting⟩ := of_compilation? hc
  exact hsetting

/-- A file below the resource directory, by the names on the way down to it. -/
def resourceFile (project : Path) (names : List String) (stem : String) : Path :=
  (project.join (.ofNames ([resourceFolder] ++ names ++ [stem ++ ".exml"]))).normalize

/-- The names that the prefab of a resource file keeps below the target. -/
def keptNames (project : Path) (names : List String) : List String :=
  if project.normalize.components = project.components then names else []

theorem ofSource_resourceFile {disk : Disk} {project assets : Path} {options : Options}
    {c : Compilation} (hc : compilation? disk project assets options = some c)
    {names : List String} {stem : String} (hnames : ∀ n ∈ names, Path.ProperName n)
    (hstem : stem ≠ "") (hslash : '/' ∉ stem.toList) :
    let location := PrefabLocation.ofSource c.setting.options (resourceFile project names stem)
    location.path = (targetOf disk project assets).join
        (.ofNames (keptNames project names ++ [stem ++ ".prefab"])) ∧
      location.url = "/".intercalate (PrefabLocation.trimSlashes options.targetUrl ::
        folderOf disk project assets :: (keptNames project names ++ [stem ++ ".prefab"])) := by
  have hsetting := setting_of_compilation? hc
  have hproper : ∀ n ∈ [resourceFolder] ++ names, Path.ProperName n := by
    intro n hn
    rcases List.mem_cons.1 hn with rfl | hn
    · decide
    · exact hnames n hn
  have hroot : c.setting.options.sourceRoot = project.join (.ofNames [resourceFolder]) := by
    rw [hsetting]
    rfl
  have houtput : c.setting.options.outputRoot = targetOf disk project assets := by
    rw [hsetting]
    rfl
  have hurl : PrefabLocation.trimSlashes c.setting.options.targetUrl =
      PrefabLocation.trimSlashes options.targetUrl ++ "/" ++ folderOf disk project assets := by
    rw [hsetting]
    exact PrefabLocation.trimSlashes_append _ (properName_folderOf disk project assets)
  have hplace := PrefabLocation.ofSource_below c.setting.options project hroot (by simp) hproper
    hstem hslash
  rw [houtput, hurl] at hplace
  refine ⟨hplace.1, hplace.2.trans ?_⟩
  rw [← PrefabLocation.foldl_segment, ← PrefabLocation.foldl_segment]
  rfl

theorem handle_of_stored {setting : Setting World} (hstore : setting.store = .onDisk)
    {world : World} {paths : List Path} {p : Prefab} {handle : PrefabRef}
    (hp : .stored p (.ok handle) ∈ setting.runJournal world paths) : handle = ⟨p.url⟩ := by
  have hanswers : ∃ w, (setting.store.persist p w).1 = .ok handle :=
    Setting.watchRun_induction (motive := fun s => .stored p (.ok handle) ∈ s.journal →
      ∃ w, (setting.store.persist p w).1 = .ok handle) (fun _ => Setting.exists_persist) paths hp
  obtain ⟨w, hanswer⟩ := hanswers
  rw [hstore, Store.persist_onDisk] at hanswer
  split at hanswer
  · cases hanswer
  · split at hanswer
    · cases hanswer
    · exact (Except.ok.inj hanswer).symm

/-- Where the prefab of a resource file goes: to the place of the file below the target, by the same
names in its address, when the project is spelled normally, and to the top of both otherwise. -/
theorem import_places_prefabs {disk : Disk} {project assets : Path} {options : Options}
    {c : Compilation} (hc : compilation? disk project assets options = some c) {p : Prefab}
    {handle : PrefabRef} (hp : .stored p (.ok handle) ∈ c.journal) {names : List String}
    {stem : String} (hnames : ∀ n ∈ names, Path.ProperName n) (hstem : stem ≠ "")
    (hslash : '/' ∉ stem.toList) (hsource : p.source = resourceFile project names stem) :
    p.outputPath = (targetOf disk project assets).join
        (.ofNames (keptNames project names ++ [stem ++ ".prefab"])) ∧
      p.url = "/".intercalate (PrefabLocation.trimSlashes options.targetUrl ::
        folderOf disk project assets :: (keptNames project names ++ [stem ++ ".prefab"])) ∧
      handle = ⟨p.url⟩ := by
  have haccounted : c.setting.Accounted (c.setting.watchRun c.world c.files) :=
    Setting.watchRun_induction (c.setting.accounted c.world) c.files
  obtain ⟨path, root, hprefab, -, -⟩ := haccounted.stored hp
  have hpath : path = resourceFile project names stem := by
    rw [← hsource, hprefab]
    rfl
  obtain ⟨houtput, hurl⟩ := ofSource_resourceFile hc hnames hstem hslash
  rw [← hpath] at houtput hurl
  have hstore : c.setting.store = .onDisk := by rw [setting_of_compilation? hc]; rfl
  refine ⟨?_, ?_, handle_of_stored hstore hp⟩
  · rw [hprefab]
    exact houtput
  · rw [hprefab]
    exact hurl

/-- A project with one scene in a directory of its own, beside the assets. -/
def oneScene : Disk where
  entries := [(["game"], .directory), (["game", "resource"], .directory),
    (["game", "resource", "ui"], .directory),
    (["game", "resource", "ui", "Main.exml"], .file "<e:Group/>".toUTF8), (["assets"], .directory)]

theorem oneScene_stored (project : Path) (place : String)
    (h : ((compilation? oneScene project ⟨"assets"⟩ {}).map fun c =>
      c.journal.accepted.map fun (p, _) => (p.source.text, p.outputPath.text)) =
        some [("game/resource/ui/Main.exml", place)]) :
    ∃ c p handle, compilation? oneScene project ⟨"assets"⟩ {} = some c ∧
      .stored p (.ok handle) ∈ c.journal ∧ p.source = ⟨"game/resource/ui/Main.exml"⟩ ∧
        p.outputPath = ⟨place⟩ := by
  obtain ⟨c, hc, hstored⟩ := Option.map_eq_some_iff.1 h
  obtain ⟨⟨p, handle⟩, haccepted, hp⟩ := List.map_eq_singleton_iff.1 hstored
  obtain ⟨hsource, hplace⟩ := Prod.mk.inj hp
  have haccepts : (p, handle) ∈ c.journal.accepted := by
    rw [haccepted]
    exact List.mem_cons_self
  exact ⟨c, p, handle, hc, Journal.mem_accepted.1 haccepts, congrArg Path.mk hsource,
    congrArg Path.mk hplace⟩

/-- The prefab of the scene keeps the directory when the project is spelled normally. -/
theorem oneScene_placed :
    ∃ c p handle, compilation? oneScene ⟨"game"⟩ ⟨"assets"⟩ {} = some c ∧
      .stored p (.ok handle) ∈ c.journal ∧ (∀ n ∈ ["ui"], Path.ProperName n) ∧ "Main" ≠ "" ∧
        '/' ∉ "Main".toList ∧ p.source = resourceFile ⟨"game"⟩ ["ui"] "Main" ∧
          p.outputPath = ⟨"assets/game/ui/Main.prefab"⟩ ∧
            p.url = "db://assets/game/ui/Main.prefab" ∧ handle = ⟨p.url⟩ := by
  obtain ⟨c, p, handle, hc, hp, hsource, -⟩ :=
    oneScene_stored ⟨"game"⟩ "assets/game/ui/Main.prefab" (by decide +kernel)
  have hnames : ∀ n ∈ ["ui"], Path.ProperName n := by decide
  have hresource : p.source = resourceFile ⟨"game"⟩ ["ui"] "Main" := by
    rw [hsource]
    decide +kernel
  obtain ⟨hplace, hurl, hhandle⟩ :=
    import_places_prefabs hc hp hnames (by decide) (by decide) hresource
  refine ⟨c, p, handle, hc, hp, hnames, by decide, by decide, hresource, ?_, ?_, hhandle⟩
  · rw [hplace]
    decide +kernel
  · rw [hurl]
    decide +kernel

/-- With a dot at the start of the project the directory is lost. -/
theorem oneScene_flattened :
    ∃ c p handle, compilation? oneScene ⟨"./game"⟩ ⟨"assets"⟩ {} = some c ∧
      .stored p (.ok handle) ∈ c.journal ∧
        p.source = resourceFile ⟨"./game"⟩ ["ui"] "Main" ∧
          p.outputPath ≠ (targetOf oneScene ⟨"./game"⟩ ⟨"assets"⟩).join
            (.ofNames ["ui", "Main.prefab"]) := by
  obtain ⟨c, p, handle, hc, hp, hsource, hplace⟩ :=
    oneScene_stored ⟨"./game"⟩ "assets/game/Main.prefab" (by decide +kernel)
  refine ⟨c, p, handle, hc, hp, ?_, ?_⟩
  · rw [hsource]
    decide +kernel
  · rw [hplace]
    decide +kernel

end ImportReport

end MarkupScene
