import MarkupScene.Proofs.FoundThemes
import MarkupScene.Proofs.HandledFiles

/-!
# Compiled files

Every file with markup is accounted for. When an import succeeds, the files that it compiled are the
skins of the themes and the files with markup in the resources, each of them once. The main
statement adds that each was either stored or skipped, that nothing else was visited, and that the
prefabs of skins come before all others.
-/
namespace MarkupScene.ImportReport

open MarkupScene.Path Disk

/-- A report accounts for the files of a compilation. -/
structure Compilation.AccountsFor (c : Compilation) (report : Report) : Prop where
  /-- Each file is stored or skipped, and only once. -/
  handled : (c.journal.accepted.map (·.1.source) ++ report.skipped.map (·.path)).Perm c.files
  counted : report.stored.length + report.skipped.length = c.files.length
  visited {below : List Path} {path : Path} {before : Session World} :
    .began below path before ∈ c.journal → path ∈ c.files
  artifacts : report.stored = c.journal.accepted.map (·.2)
  skinsFirst : ∃ front back, c.journal.accepted = front ++ back ∧
    (∀ a ∈ front, a.1.source ∈ c.setting.skins.paths) ∧
      ∀ a ∈ back, a.1.source ∉ c.setting.skins.paths

theorem Compilation.accountsFor (c : Compilation) {report : Report}
    (h : (c.setting.run c.files c.world).1 = .ok report) : c.AccountsFor report := by
  obtain ⟨hdistinct, hprefix, -⟩ := filesToCompile_spec c.setting.skins c.intake.documents
  obtain ⟨hok, rfl⟩ := Setting.report_of_run h
  have hagreed : Setting.Agreed (c.setting.watchRun c.world c.files) :=
    Setting.watchRun_induction (c.setting.agreed c.world) c.files
  have hperm : (Setting.handled (c.setting.watchRun c.world c.files)).Perm c.files :=
    Setting.handled_perm hdistinct hprefix.subset hok
  constructor
  case handled => exact hperm
  case counted =>
    rw [← hperm.length_eq, Setting.handled, List.length_append, List.length_map, List.length_map,
      hagreed.stored, List.length_map]
  case visited =>
    intro below path before hbegan
    rw [journal, Setting.runJournal, Setting.watchRun_of_ok hok] at hbegan
    exact Setting.mem_of_began hdistinct.normal hprefix.subset hbegan
  case artifacts => exact hagreed.stored
  case skinsFirst => exact Setting.skins_stored_first hprefix hok

/-- An import that succeeds accounts for every file with markup: what it compiles are the skins of
the themes and the documents in the resources, each of them once. -/
theorem import_accounts_for_files {disk : Disk} (hdisk : disk.IsTree) {project assets : Path}
    {options : Options} {report : ImportReport}
    (h : (ofProject disk project assets options).1 = .ok report) :
    ∃ c, compilation? disk project assets options = some c ∧ Distinct c.files ∧
      (∀ p, p ∈ c.files ↔
        p ∈ c.setting.skins.paths ∨ ∃ q ∈ c.intake.documents, q.normalize = p) ∧
      SkinsBelow disk project c.setting.skins.paths ∧
      DocumentsBelow disk (resourcesOf project) c.intake.documents ∧
      c.AccountsFor report.compiled := by
  obtain ⟨c, hc, hrun⟩ := exists_compilation h
  obtain ⟨hdistinct, -, hall⟩ := filesToCompile_spec c.setting.skins c.intake.documents
  exact ⟨c, hc, hdistinct, hall, skins_found hdisk hc, documents_found hdisk hc,
    c.accountsFor hrun⟩

/-- A project with a scene, and with a theme that has a skin outside of the resources. -/
def themedScene : Disk where
  entries := [(["game"], .directory), (["game", "resource"], .directory),
    (["game", "resource", "Main.exml"], .file "<e:Group/>".toUTF8),
    (["game", "resource", "default.thm.json"],
      .file "\x7b\"skins\":\x7b\"eui.A\":\"skins/A.exml\"\x7d,\"exmls\":[]\x7d".toUTF8),
    (["game", "skins"], .directory), (["game", "skins", "A.exml"], .file "<e:Group/>".toUTF8),
    (["assets"], .directory)]

theorem themedScene_accounted :
    themedScene.IsTree ∧ ∃ report c,
      (ofProject themedScene ⟨"game"⟩ ⟨"assets"⟩ {}).1 = .ok report ∧
        compilation? themedScene ⟨"game"⟩ ⟨"assets"⟩ {} = some c ∧
          c.AccountsFor report.compiled ∧
            report.compiled.stored =
              [⟨"db://assets/game/A.prefab"⟩, ⟨"db://assets/game/Main.prefab"⟩] ∧
              SkinsBelow themedScene ⟨"game"⟩ [⟨"game/skins/A.exml"⟩] ∧
                ∃ p ∈ c.files, p = resourceFile ⟨"game"⟩ [] "Main" := by
  have htree : themedScene.IsTree :=
    .of_entries ⟨by decide +kernel, by decide +kernel⟩ (by decide +kernel) (by decide)
  have hstored : (ofProject themedScene ⟨"game"⟩ ⟨"assets"⟩ {}).1.toOption.map (·.compiled.stored) =
      some [⟨"db://assets/game/A.prefab"⟩, ⟨"db://assets/game/Main.prefab"⟩] := by
    decide +kernel
  have hskins : (compilation? themedScene ⟨"game"⟩ ⟨"assets"⟩ {}).map (·.setting.skins.paths) =
      some [⟨"game/skins/A.exml"⟩] := by
    decide +kernel
  obtain ⟨report, hreport, hartifacts⟩ := Option.map_eq_some_iff.1 hstored
  have hok := eq_ok_of_toOption hreport
  obtain ⟨c, hc, hdistinct, hall, hbelow, hdocuments, haccounts⟩ :=
    import_accounts_for_files htree hok
  have hpaths : c.setting.skins.paths = [⟨"game/skins/A.exml"⟩] := by
    rw [hc] at hskins
    exact Option.some.inj hskins
  rw [hpaths] at hbelow
  refine ⟨htree, report, c, hok, hc, haccounts, hartifacts, hbelow, _,
    (hall _).2 (.inr ⟨_, ?_, rfl⟩), rfl⟩
  have hfile : themedScene.isFile ((resourcesOf ⟨"game"⟩).below ["Main.exml"]) = true := by
    decide +kernel
  exact hdocuments.all (by decide) hfile (by decide +kernel)

end MarkupScene.ImportReport
