import Mathlib.Algebra.GroupWithZero.Nat
import MarkupScene.Proofs.Accounts
import MarkupScene.Proofs.Importers

/-!
# Compiling once

However often a file is compiled, under whatever spelling of its path and through whatever skins, it
is stored at most once and skipped at most once. Once a visit of it has had an answer, what is known
about the file stays as it is, and every later visit has the same answer without a look at the
outside. Stores that fail on the way change nothing about that.
-/
namespace MarkupScene

variable {ω α β : Type}

/-- The number of times that a file was skipped, under whatever spelling. -/
def Report.skips (r : Report) (path : Path) : Nat :=
  r.skipped.countP fun f => f.path.normalize = path

namespace Journal

/-- The number of prefabs of a file that the store accepted, under whatever spelling. -/
def stores (j : Journal ω) (path : Path) : Nat :=
  j.countP fun
    | .stored p (.ok _) => p.source.normalize = path
    | _ => false

/-- The number of parse failures of a file that importers reported. -/
def importedFailures (j : Journal ω) (path : Path) : Nat :=
  (j.map fun
    | .imported before after => parseFailures after path - parseFailures before path
    | _ => 0).sum

theorem importedFailures_imported (before after : List Diagnostic) (path : Path) :
    importedFailures ([.imported before after] : Journal ω) path =
      parseFailures after path - parseFailures before path :=
  Nat.add_zero _

theorem importedFailures_append (j k : Journal ω) (path : Path) :
    importedFailures (j ++ k) path = j.importedFailures path + importedFailures k path := by
  simp only [importedFailures, List.map_append, List.sum_append]

end Journal

namespace Setting
variable {setting : Setting ω} {stack : List Path} {s t : Session (Watched ω)} {path : Path}

/-- A count that grows by at most one, and only when a file becomes known. -/
def Tallies (setting : Setting ω) (path : Path) (count : Session (Watched ω) → Nat) : Prop :=
  ∀ s t, setting.Step [] s t → count t ≤ count s ∨
    s.cache.get? path = none ∧ t.cache.get? path ≠ none ∧ count t ≤ count s + 1

theorem Tallies.le_one {count : Session (Watched ω) → Nat} (h : setting.Tallies path count)
    (world : ω) (paths : List Path) (hnew : count { world := { world } } = 0) :
    count (setting.watchEach paths { world := { world } }) ≤ 1 := by
  suffices hcount : ∀ {s t}, (count s ≤ 1 ∧ (s.cache.get? path = none → count s = 0)) →
      setting.Step [] s t → count t ≤ 1 ∧ (t.cache.get? path = none → count t = 0) from
    (setting.watchEach_induction ⟨by omega, fun _ => hnew⟩ hcount paths).1
  rintro s t ⟨hle, hunknown⟩ hstep
  rcases h s t hstep with hcount | ⟨hs, ht, hcount⟩
  · refine ⟨Nat.le_trans hcount hle, fun ht => ?_⟩
    have hs : s.cache.get? path = none := by
      cases hs : s.cache.get? path with
      | none => rfl
      | some state =>
        rw [hstep.get?_of_known hs] at ht
        cases ht
    have hzero := hunknown hs
    omega
  · have hzero := hunknown hs
    exact ⟨by omega, fun hnone => absurd hnone ht⟩

theorem stores_tallies (setting : Setting ω) (path : Path) :
    setting.Tallies path fun s => s.journal.stores path := by
  intro s t hstep
  cases hstep with
  | @stored below file root handle world s ready persist =>
    by_cases h : file = path
    · subst h
      refine .inr ⟨ready.unknown, ?_, ?_⟩
      · rw [Session.cache_keep, SkinCache.get?_put_self]
        exact Option.some_ne_none _
      · simp [Journal.stores, List.countP_append, prefabOf, ready.normal]
    · exact .inl (by simp [Journal.stores, List.countP_append, prefabOf, ready.normal, h])
  | skipped => exact .inl (by simp [Journal.stores])
  | _ => exact .inl (by simp [Journal.stores, List.countP_append])

theorem skips_tallies (setting : Setting ω) (path : Path) :
    setting.Tallies path fun s => s.report.skips path := by
  intro s t hstep
  cases hstep with
  | @skipped below file failure s inside off normal began unknown unread =>
    by_cases h : file = path
    · subst h
      refine .inr ⟨unknown, ?_, ?_⟩
      · rw [Session.cache_skip, SkinCache.get?_put_self]
        exact Option.some_ne_none _
      · simp [Report.skips, Session.skip, List.countP_append, normal]
    · exact .inl (by simp [Report.skips, Session.skip, List.countP_append, normal, h])
  | _ => exact .inl (Nat.le_refl _)

theorem parseFailures_tallies (setting : Setting ω) (path : Path) :
    setting.Tallies path fun s =>
      parseFailures s.report.diagnostics path - s.journal.importedFailures path := by
  intro s t hstep
  dsimp only
  -- Only a skip reports a failure by itself; what an importer reports is taken off.
  cases hstep with
  | @skipped below file failure s inside off normal began unknown unread =>
    have hreport : (s.skip file failure.message).report.diagnostics =
        s.report.diagnostics ++ [⟨.parseFailure, file, failure.message⟩] := rfl
    rw [hreport, parseFailures_append, Session.journal_skip]
    by_cases h : file = path
    · subst h
      refine .inr ⟨unknown, ?_, ?_⟩
      · rw [Session.cache_skip, SkinCache.get?_put_self]
        exact Option.some_ne_none _
      · have hone : parseFailures [⟨.parseFailure, file, failure.message⟩] file = 1 := by
          simp [parseFailures, normal]
        omega
    · have hzero : parseFailures [⟨.parseFailure, file, failure.message⟩] path = 0 := by
        simp [parseFailures, normal, h]
      exact .inl (by omega)
  | @imported w i scope e n made after s importer acts =>
    refine .inl ?_
    rw [Session.journal_surround, Journal.importedFailures_append,
      Journal.importedFailures_imported,
      show (s.surround after).report.diagnostics = after.diagnostics from rfl]
    omega
  | _ =>
    refine .inl (Nat.le_of_eq ?_)
    simp only [Session.journal_note, Session.journal_keep, Session.journal_answered,
      Journal.importedFailures_append]
    rfl

/-- What an earlier event promises about a later one: after a visit with an answer, what is known
about its file stays as it is, and later visits of it have the same answer and change nothing. -/
def Lasts (x y : Event ω) : Prop :=
  ∀ v r, x = .visited v → v.result = .ok r →
    match y with
    | .began _ _ before => before.cache.get? v.path = v.after.cache.get? v.path
    | .visited w => w.after.cache.get? v.path = v.after.cache.get? v.path ∧
      (w.path = v.path → w.result = .ok r ∧ w.after = w.before)
    | _ => True

/-- The answers of all visits so far last. -/
structure Lasting (s : Session (Watched ω)) : Prop where
  current {v r} : .visited v ∈ s.journal → v.result = .ok r →
    v.after.cache.answer? v.path = some r ∧
      s.cache.get? v.path = v.after.cache.get? v.path
  journal : s.journal.Pairwise Lasts

theorem Step.get?_of_answer (hstep : setting.Step stack s t) {r : Option PrefabRef}
    (h : s.cache.answer? path = some r) : t.cache.get? path = s.cache.get? path := by
  obtain ⟨state, hstate, -⟩ := Option.map_eq_some_iff.1 h
  rw [hstate, hstep.get?_of_known hstate]

theorem answer?_congr {c c' : SkinCache} (h : c.get? path = c'.get? path) :
    c.answer? path = c'.answer? path := by
  rw [SkinCache.answer?, SkinCache.answer?, h]

theorem Lasting.ends (hs : Lasting s) {w : Visit ω} (ends : setting.Ends stack w s) {v : Visit ω}
    {r : Option PrefabRef} (hv : .visited v ∈ s.journal) (hr : v.result = .ok r) :
    w.after.cache.get? v.path = v.after.cache.get? v.path ∧
      (w.path = v.path → w.result = .ok r ∧ w.after = w.before) := by
  obtain ⟨hanswer, hcurrent⟩ := hs.current hv hr
  refine ⟨by rw [ends.after]; exact hcurrent, fun hpath => ?_⟩
  obtain ⟨before, during, hjournal, hvisits⟩ := ends.whole
  -- The earlier visit ended before this one began, since none of its file is noted in between.
  have hbefore : .visited v ∈ before := by
    rw [hjournal] at hv
    rcases List.mem_append.1 hv with hv | hv
    · exact hv
    · rcases List.mem_cons.1 hv with hv | hv
      · cases hv
      · exact absurd hpath.symm (hvisits v hv)
  have hlasts := hs.journal
  rw [hjournal, List.pairwise_append] at hlasts
  have hbegan := hlasts.2.2 _ hbefore _ List.mem_cons_self v r rfl hr
  have hknown := (answer?_congr hbegan).trans hanswer
  rw [← hpath] at hknown
  exact ends.known hknown

theorem Lasting.step (hs : Lasting s) (hstep : setting.Step stack s t) : Lasting t := by
  -- An answered visit leaves its file known, and known entries do not change.
  have hkept : ∀ {v r}, .visited v ∈ s.journal → v.result = .ok r →
      v.after.cache.answer? v.path = some r ∧
        t.cache.get? v.path = v.after.cache.get? v.path := by
    intro v r hv hr
    obtain ⟨hanswer, hcurrent⟩ := hs.current hv hr
    have hknown := (answer?_congr hcurrent).trans hanswer
    exact ⟨hanswer, (hstep.get?_of_answer hknown).trans hcurrent⟩
  refine ⟨fun hv hr => ?_, ?_⟩
  · rcases hstep.visited_cases hv with hv | ⟨rfl, ends⟩
    · exact hkept hv hr
    · rw [Session.cache_note, ends.after]
      exact ⟨ends.answers hr, rfl⟩
  · cases hstep with
    | began =>
      rw [Session.journal_note, List.pairwise_append]
      refine ⟨hs.journal, List.pairwise_singleton _ _, fun x hx y hy => ?_⟩
      obtain rfl := List.mem_singleton.1 hy
      rintro v r rfl hr
      exact (hs.current hx hr).2
    | visited ends =>
      rw [Session.journal_note, List.pairwise_append]
      refine ⟨hs.journal, List.pairwise_singleton _ _, fun x hx y hy => ?_⟩
      obtain rfl := List.mem_singleton.1 hy
      rintro v r rfl hr
      exact hs.ends ends hx hr
    | skipped => exact hs.journal
    | _ =>
      refine List.pairwise_append.2 ⟨hs.journal, List.pairwise_singleton _ _, fun x _ y hy => ?_⟩
      obtain rfl := List.mem_singleton.1 hy
      exact fun _ _ _ _ => trivial

theorem lasting (setting : Setting ω) (world : ω) (paths : List Path) :
    Lasting (setting.watchEach paths { world := { world } }) :=
  setting.watchEach_induction ⟨(fun h => nomatch h), List.Pairwise.nil⟩ .step paths

theorem compileFile_of_answer (setting : Setting ω) (stack : List Path) {s : Session ω}
    {r : Option PrefabRef} (h : s.cache.answer? path = some r) :
    (setting.compileFile stack path).run s = (.ok r, s) := by
  rw [compileFile, run_compileWith, h]

theorem importedFailures_eq_zero {world : ω} {paths : List Path}
    (h : ∀ w i, setting.registry.importer? w = some i → i.Quiet) (path : Path) :
    (setting.journal world paths).importedFailures path = 0 := by
  refine setting.watchEach_induction
    (motive := fun s => s.journal.importedFailures path = 0) rfl ?_ paths
  intro s t ih hstep
  cases hstep with
  | @imported w i scope e n made after _ importer acts =>
    have hquiet := h w i importer scope e n ⟨s.forget.world, s.report.diagnostics⟩ path
    rw [acts] at hquiet
    rw [Session.journal_surround, Journal.importedFailures_append, ih,
      Journal.importedFailures_imported]
    dsimp only at hquiet
    omega
  | skipped => exact ih
  | _ =>
    simp only [Session.journal_note, Session.journal_keep, Session.journal_answered,
      Journal.importedFailures_append, ih]
    rfl

/-- What a run that compiles files once looks like from its journal. -/
structure CompilesOnce (setting : Setting ω) (world : ω) (paths : List Path) : Prop where
  /-- The store accepts a file at most once. -/
  stored (path : Path) : (setting.journal world paths).stores path.normalize ≤ 1
  skipped (path : Path) : (setting.compileEach paths { world }).report.skips path.normalize ≤ 1
  /-- A file fails at most once, apart from what importers report. -/
  reported (path : Path) :
    parseFailures (setting.compileEach paths { world }).report.diagnostics path.normalize ≤
      1 + (setting.journal world paths).importedFailures path.normalize
  reported_of_quiet (path : Path) :
    (∀ w i, setting.registry.importer? w = some i → i.Quiet) →
      parseFailures (setting.compileEach paths { world }).report.diagnostics path.normalize ≤ 1
  reported_of_builtIn (path : Path) : setting.registry.OnlyBuiltIn →
    parseFailures (setting.compileEach paths { world }).report.diagnostics path.normalize ≤ 1
  /-- Every call is in the journal, with its answer. -/
  called {earlier later path} : paths = earlier ++ path :: later →
    let before := setting.compileEach earlier { world }
    .visited ⟨[], path.normalize, before, ((setting.compile path).run before).1,
      ((setting.compile path).run before).2⟩ ∈ setting.journal world paths
  /-- Every visit in the journal, also one for a skin, is a run from its session. -/
  ran {v} : .visited v ∈ setting.journal world paths →
    (setting.compileFile v.stack v.path).run v.before = (v.result, v.after)
  /-- After a visit with an answer, calls for the file answer the same without the setting. -/
  answered {v r} : .visited v ∈ setting.journal world paths → v.result = .ok r →
    v.path.normalize = v.path ∧
      (setting.compileEach paths { world }).cache.get? v.path = v.after.cache.get? v.path ∧
      ∀ (other : Setting ω) (path : Path), path.normalize = v.path →
        (other.compile path).run (setting.compileEach paths { world }) =
          (.ok r, setting.compileEach paths { world })
  /-- So do later visits, and no visit of another file changes what is known about this one. -/
  revisited {before v after w r} :
    setting.journal world paths = before ++ .visited v :: after → v.result = .ok r →
      .visited w ∈ after →
        w.after.cache.get? v.path = v.after.cache.get? v.path ∧
          (w.path = v.path → w.result = .ok r ∧ w.after = w.before ∧
            ∀ other : Setting ω,
              (other.compileFile w.stack w.path).run w.before = (.ok r, w.before))

/-- Every sequence of compile calls compiles each file once, with calls in between that fail. -/
theorem compilesOnce (setting : Setting ω) (world : ω) (paths : List Path) :
    setting.CompilesOnce world paths := by
  have hforget : (setting.watchEach paths { world := { world } }).forget =
      setting.compileEach paths { world } := setting.forget_watchEach paths _
  have haccounted := setting.accounted world paths
  have hlasting := setting.lasting world paths
  have hreported : ∀ path : Path,
      parseFailures (setting.compileEach paths { world }).report.diagnostics path.normalize ≤
        1 + (setting.journal world paths).importedFailures path.normalize := by
    intro path
    have h := (setting.parseFailures_tallies path.normalize).le_one world paths rfl
    rw [← hforget]
    change parseFailures (setting.watchEach paths { world := { world } }).report.diagnostics _ -
      (setting.journal world paths).importedFailures _ ≤ 1 at h
    change parseFailures (setting.watchEach paths { world := { world } }).report.diagnostics _ ≤ _
    omega
  have hreported_of_quiet : ∀ path : Path,
      (∀ w i, setting.registry.importer? w = some i → i.Quiet) →
        parseFailures (setting.compileEach paths { world }).report.diagnostics path.normalize ≤
          1 := by
    intro path hquiet
    have h := hreported path
    rw [importedFailures_eq_zero hquiet] at h
    exact h
  constructor
  case stored => exact fun path => (setting.stores_tallies path.normalize).le_one world paths rfl
  case skipped =>
    intro path
    rw [← hforget]
    exact (setting.skips_tallies path.normalize).le_one world paths rfl
  case reported => exact hreported
  case reported_of_quiet => exact hreported_of_quiet
  case reported_of_builtIn =>
    exact fun path hbuiltIn => hreported_of_quiet path fun _ _ => hbuiltIn.quiet
  case called =>
    rintro earlier later path rfl
    exact setting.visited_of_call world earlier path later
  case ran => exact haccounted.ran
  case answered =>
    intro v r hv hr
    obtain ⟨hanswer, hcurrent⟩ := hlasting.current hv hr
    rw [← hforget]
    refine ⟨(haccounted.answered hv hr).1, hcurrent, fun other path hpath => ?_⟩
    rw [compile, hpath]
    exact compileFile_of_answer other [] ((answer?_congr hcurrent).trans hanswer)
  case revisited =>
    intro before v after w r hjournal hr hw
    have hv : .visited v ∈ setting.journal world paths := by
      rw [hjournal]
      exact List.mem_append_right _ List.mem_cons_self
    have hpairwise : (setting.journal world paths).Pairwise Lasts := hlasting.journal
    rw [hjournal, List.pairwise_append, List.pairwise_cons] at hpairwise
    obtain ⟨hcache, hsame⟩ := hpairwise.2.1.1 _ hw v r rfl hr
    refine ⟨hcache, fun hpath => ?_⟩
    obtain ⟨hresult, hafter⟩ := hsame hpath
    refine ⟨hresult, hafter, fun other => compileFile_of_answer other w.stack ?_⟩
    rw [← hafter, hpath]
    exact (answer?_congr hcache).trans (hlasting.current hv hr).1

/-- Every label reports a parse failure of its file. -/
def complaining : Setting Unit where
  registry := Registry.builtIn.register "Label" fun scope _ n s =>
    (n, { s with diagnostics := s.diagnostics ++ [⟨.parseFailure, scope.source, "label"⟩] })
  sources := { read := fun _ _ => .ok "<e:Group><e:Label/><e:Label/></e:Group>" }
  locator := .openLocator
  store := .memory

/-- Every file holds a group. -/
def groups : Setting Unit where
  sources := { read := fun _ _ => .ok "<e:Group/>" }
  locator := .openLocator
  store := .memory

/-- Importers may report a file more than once, and two files may be stored at one place. -/
theorem reports_and_places_repeat :
    parseFailures (complaining.compileEach [⟨"main.exml"⟩] { world := () }).report.diagnostics
        (⟨"main.exml"⟩ : Path).normalize = 2 ∧
      ∃ p p' handle handle',
        .stored p (.ok handle) ∈ groups.journal () [⟨"main.exml"⟩, ⟨"main.xml"⟩] ∧
          .stored p' (.ok handle') ∈ groups.journal () [⟨"main.exml"⟩, ⟨"main.xml"⟩] ∧
            p.source.normalize ≠ p'.source.normalize ∧
              p.outputPath.normalize = p'.outputPath.normalize := by
  refine ⟨by decide +kernel, ?_⟩
  obtain ⟨root, handle, hstored, -⟩ :=
    groups.exists_stored_of_known () [⟨"main.exml"⟩, ⟨"main.xml"⟩] ⟨"main.exml"⟩
      (by decide +kernel) (fun _ => true) (by decide +kernel)
  obtain ⟨root', handle', hstored', -⟩ :=
    groups.exists_stored_of_known () [⟨"main.exml"⟩, ⟨"main.xml"⟩] ⟨"main.xml"⟩
      (by decide +kernel) (fun _ => true) (by decide +kernel)
  exact ⟨_, _, handle, handle', hstored, hstored',
    show (⟨"main.exml"⟩ : Path).normalize ≠ (⟨"main.xml"⟩ : Path).normalize by decide +kernel,
    show (PrefabLocation.ofSource groups.options ⟨"main.exml"⟩).path.normalize =
      (PrefabLocation.ofSource groups.options ⟨"main.xml"⟩).path.normalize by decide +kernel⟩

end Setting

end MarkupScene
