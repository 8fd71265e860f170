import MarkupScene.Prefab.Store
import MarkupScene.Proofs.ChildStructure
import MarkupScene.Proofs.LocatorCalls
import MarkupScene.Proofs.TwinRuns

/-!
# Reworded files

Markup can say the same in other words. Two runs over files that are worded in other ways do the
same steps, as long as the wordings are built the same: they know and report the same all the way.
The main statement is that the two runs have the same result, bring the same prefabs to the store
and ask the locator the same. Nothing outside of the runs may tell them apart for that.
-/
namespace MarkupScene

variable {ω : Type}

/-- Sessions that know and report the same, while the outside is alike. -/
structure Session.Agrees (alike : ω → ω → Prop) (s s' : Session ω) : Prop where
  world : alike s.world s'.world
  cache : s.cache = s'.cache
  report : s.report = s'.report

namespace Session.Agrees
variable {alike : ω → ω → Prop} {s s' : Session ω}

theorem skip (h : Agrees alike s s') (path : Path) (reason : String) :
    Agrees alike (s.skip path reason) (s'.skip path reason) := by
  refine ⟨h.world, congrArg (SkinCache.put · path .failed) h.cache, ?_⟩
  change Report.mk _ _ _ = Report.mk _ _ _
  rw [h.report]

theorem keep (h : Agrees alike s s') (path : Path) (handle : PrefabRef) (root : Node) :
    Agrees alike (s.keep path handle root) (s'.keep path handle root) := by
  refine ⟨h.world, congrArg (SkinCache.put · path (.compiled ⟨handle, root⟩)) h.cache, ?_⟩
  change Report.mk _ _ _ = Report.mk _ _ _
  rw [h.report]

end Session.Agrees

/-- Steps with the same results from sessions that agree, which agree again after them. -/
def Run.agreeing (alike : ω → ω → Prop) : Coupling ω ω where
  related m m' := Run.Twin (Session.Agrees alike) Eq m m'
  pure _ := .pure rfl
  bind hm hf := hm.bind fun a _ hab => hab ▸ hf a

namespace Setting

def reading (setting : Setting ω) (sources : Sources ω) : Setting ω := { setting with sources }

/-- Wordings that are built the same, however skins are copied. -/
def BuildsSame (setting : Setting ω) (same : Option String → Element → Element → Prop) : Prop :=
  ∀ {override e e'}, same override e e' → ∀ copy source parent,
    setting.build (setting.startNode copy) source e' override parent =
      setting.build (setting.startNode copy) source e override parent

/-- Other sources, on an outside that is alike, have the same files in wordings that are the same,
and neither the importers nor the store tell the outsides apart. -/
structure Rewords (setting : Setting ω) (sources : Sources ω)
    (same : Option String → Element → Element → Prop) (alike : ω → ω → Prop)
    (paths : List Path) : Prop where
  document {path : Path} {w w' : ω} : setting.MayRead paths path → alike w w' →
    SameOutcome (same (setting.rootWidget? path)) (setting.sources.document path w)
      (sources.document path w')
  importer {widget : String} {i : Importer ω} : setting.registry.importer? widget = some i →
    ∀ source override e n, (i (setting.importScope source override) e n).Overlooks alike
  persist {path : Path} (root : Node) : setting.MayRead paths path →
    Agree alike (setting.store.persist (setting.prefabOf path root))
      (setting.store.persist (setting.prefabOf path root))

theorem copyKnown_agrees {alike : ω → ω → Prop} (path : Path) (name : String) :
    Run.Twin (Session.Agrees alike) Eq (copyKnown (ω := ω) path name) (copyKnown path name) := by
  intro s s' hs
  refine ⟨hs, .ok ?_⟩
  rw [hs.cache]

theorem exists_importer_watched {setting : Setting ω} {widget : String} {i : Importer (Watched ω)}
    (h : setting.watched.registry.importer? widget = some i) :
    ∃ j, setting.registry.importer? widget = some j ∧ j.watched setting.locator = i := by
  rw [show setting.watched.registry = setting.registry.watched setting.locator from rfl,
    Registry.importer?_watched] at h
  exact Option.map_eq_some_iff.1 h

namespace Rewords
variable {setting : Setting ω} {sources : Sources ω}
  {same : Option String → Element → Element → Prop} {alike : ω → ω → Prop} {paths : List Path}

theorem mono {same' : Option String → Element → Element → Prop}
    (h : setting.Rewords sources same alike paths)
    (hsub : ∀ override e e', same override e e' → same' override e e') :
    setting.Rewords sources same' alike paths where
  document {path w w'} hpath hw := by
    have hdocument := h.document hpath hw
    generalize setting.sources.document path w = read at hdocument ⊢
    generalize sources.document path w' = read' at hdocument ⊢
    cases hdocument with
    | ok hsame => exact .ok (hsub _ _ _ hsame)
    | error failure => exact .error failure
  importer := h.importer
  persist := h.persist

/-- Looks at a file have the same answer, or find wordings that are the same. -/
theorem look_agrees (h : setting.Rewords sources same alike paths) {path : Path}
    (hpath : setting.MayRead paths path) :
    Run.Twin (Session.Agrees alike) (Sum.LiftRel Eq (same (setting.rootWidget? path)))
      (setting.look path) ((setting.reading sources).look path) := by
  intro s s' hs
  unfold look
  rw [Run.run_bind, Run.run_bind, Run.run_get, Run.run_get]
  dsimp only
  rw [← hs.cache, show (setting.reading sources).sources = sources from rfl]
  cases s.cache.get? path with
  | some state =>
    cases state with
    | failed => exact ⟨hs, .ok (.inl rfl)⟩
    | compiled skin => exact ⟨hs, .ok (.inl rfl)⟩
  | none =>
    have hdocument := h.document hpath hs.world
    generalize setting.sources.document path s.world = read at hdocument ⊢
    generalize sources.document path s'.world = read' at hdocument ⊢
    cases hdocument with
    | ok hsame => exact ⟨hs, .ok (.inr hsame)⟩
    | error failure => exact ⟨hs.skip path failure.message, .ok (.inl rfl)⟩

theorem importNode_agrees (h : setting.Rewords sources same alike paths) (source : Path)
    (e : Element) (override widget : Option String) (n : Node) :
    Run.Twin (Session.Agrees alike) Eq (setting.importNode source e override widget n)
      ((setting.reading sources).importNode source e override widget n) := by
  intro s s' hs
  change Session.Agrees alike _ ((setting.importNode source e override widget n).run s').2 ∧
    SameOutcome Eq _ ((setting.importNode source e override widget n).run s').1
  rw [importNode_eq]
  cases hi : widget.bind setting.registry.importer? with
  | none => exact ⟨hs, .ok rfl⟩
  | some i =>
    obtain ⟨w, -, hw⟩ := Option.bind_eq_some_iff.1 hi
    obtain ⟨hmade, hworld, hdiagnostics⟩ := h.importer hw source override e n
      ⟨s.world, s.report.diagnostics⟩ ⟨s'.world, s'.report.diagnostics⟩ hs.world
      (congrArg Report.diagnostics hs.report)
    rw [Run.run_importing, Run.run_importing]
    refine ⟨⟨hworld, hs.cache, ?_⟩, .ok hmade⟩
    change Report.mk _ _ _ = Report.mk _ _ _
    rw [hdiagnostics, hs.report]

theorem finish_agrees (h : setting.Rewords sources same alike paths) {path : Path}
    (hpath : setting.MayRead paths path) (root : Node) :
    Run.Twin (Session.Agrees alike) Eq (setting.finish path root)
      ((setting.reading sources).finish path root) := by
  have hpersist : Run.Twin (Session.Agrees alike) Eq
      (Run.persist setting.store (setting.prefabOf path root))
      (Run.persist setting.store (setting.prefabOf path root)) := by
    intro s s' hs
    rw [Run.run_persist, Run.run_persist]
    obtain ⟨hanswer, hworld⟩ := h.persist root hpath _ _ hs.world
    exact ⟨⟨hworld, hs.cache, hs.report⟩, .of_eq hanswer⟩
  have hkeep : ∀ handle, Run.Twin (Session.Agrees alike) Eq
      (modify fun s => s.keep path handle root : Run ω PUnit)
      (modify fun s => s.keep path handle root) := by
    intro handle s s' hs
    exact ⟨hs.keep path handle root, .ok rfl⟩
  change Run.Twin (Session.Agrees alike) Eq (setting.finish path root) (setting.finish path root)
  unfold finish
  refine hpersist.bind fun handle _ hsame => ?_
  subst hsame
  exact (hkeep handle).bind fun _ _ _ => .pure rfl

/-- Files are compiled alike, by induction on the files that are being compiled. -/
theorem compileFile_agrees (h : setting.Rewords sources same alike paths)
    (hbuilds : setting.BuildsSame same) (stack : List Path) (path : Path)
    (hpath : setting.MayRead paths path) :
    Run.Twin (Session.Agrees alike) Eq (setting.compileFile stack path)
      ((setting.reading sources).compileFile stack path) := by
  induction stack, path using compileFile.induct setting with
  | case1 stack path ih =>
    rw [compileFile, compileFile, compileWith_eq, compileWith_eq]
    refine (look_agrees h hpath).bind fun look look' hlook => ?_
    cases hlook with
    | inl hanswer => exact .pure hanswer
    | @inr e e' hsame =>
      dsimp only
      rw [← hbuilds hsame _ path none]
      have hstart : ∀ e override, Run.Twin (Session.Agrees alike) Eq
          (setting.starting (path :: stack) e override)
          ((setting.reading sources).starting (path :: stack) e override) := by
        intro e override
        rw [starting, starting, startNode_eq, startNode_eq,
          show (setting.reading sources).lookup? e override = setting.lookup? e override from rfl]
        cases setting.lookup? e override with
        | none => exact .pure rfl
        | some file =>
          dsimp only
          unfold instantiate
          split
          · next hoff =>
            exact (ih file hoff (.inr file.2)).bind fun _ _ _ => copyKnown_agrees file.1 e.nodeName
          · exact .pure rfl
      have hmatches : Matches setting (setting.reading sources) := ⟨rfl, rfl, rfl⟩
      have hbuild := build_coupled (c := Run.agreeing alike) hmatches
        (importNode_agrees h) hstart path e' (setting.rootWidget? path) none
      refine hbuild.bind fun root root' hroot => ?_
      subst hroot
      exact (finish_agrees h hpath root).bind fun _ _ hhandle => .pure (congrArg some hhandle)

theorem compileAll_agrees (h : setting.Rewords sources same alike paths)
    (hbuilds : setting.BuildsSame same) {files : List Path} (hfiles : files ⊆ paths) :
    Run.Twin (Session.Agrees alike) Eq (setting.compileAll files)
      ((setting.reading sources).compileAll files) := by
  induction files with
  | nil => exact .pure rfl
  | cons path rest ih =>
    rw [compileAll, compileAll]
    have hpath : setting.MayRead paths path.normalize :=
      .inl (List.mem_map_of_mem (hfiles List.mem_cons_self))
    refine (compileFile_agrees h hbuilds [] path.normalize hpath).bind fun _ _ _ => ?_
    exact ih fun q hq => hfiles (List.mem_cons_of_mem _ hq)

theorem run_agrees (h : setting.Rewords sources same alike paths)
    (hbuilds : setting.BuildsSame same) {w w' : ω} (hw : alike w w') :
    (setting.run paths w).1 = ((setting.reading sources).run paths w').1 ∧
      alike (setting.run paths w).2 ((setting.reading sources).run paths w').2 := by
  have hnew : Session.Agrees alike ({ world := w } : Session ω) { world := w' } := ⟨hw, rfl, rfl⟩
  obtain ⟨hagrees, hsame⟩ := compileAll_agrees h hbuilds (List.Subset.refl paths) _ _ hnew
  unfold run
  generalize (setting.compileAll paths).run { world := w } = done at hagrees hsame ⊢
  generalize ((setting.reading sources).compileAll paths).run { world := w' } = done'
    at hagrees hsame ⊢
  obtain ⟨result, s⟩ := done
  obtain ⟨result', s'⟩ := done'
  refine ⟨?_, hagrees.world⟩
  cases hsame with
  | ok _ => exact congrArg Except.ok hagrees.report
  | error failure => rfl

theorem of_documents (h : ∀ path w, setting.MayRead paths path →
      SameOutcome (same (setting.rootWidget? path)) (setting.sources.document path w)
        (sources.document path w)) :
    setting.Rewords sources same Eq paths where
  document {path w w'} hpath hw := by
    subst hw
    exact h path w hpath
  importer _ _ _ _ _ := by
    rintro ⟨world, diagnostics⟩ ⟨_, _⟩ rfl rfl
    exact ⟨rfl, rfl, rfl⟩
  persist _ _ := by
    rintro w _ rfl
    exact ⟨rfl, rfl⟩

/-- On a watched outside the same prefabs have gone to the store as well. -/
theorem watched (h : setting.Rewords sources same alike paths) :
    setting.watched.Rewords sources.watched same
      (fun w w' => alike w.world w'.world ∧ w.journal.calls = w'.journal.calls) paths where
  document hpath hw := h.document hpath hw.1
  importer {widget i} hi source override e n := by
    obtain ⟨j, hj, rfl⟩ := exists_importer_watched hi
    rintro s s' ⟨hworld, hcalls⟩ hdiagnostics
    obtain ⟨hmade, hworlds, hreports⟩ := h.importer hj source override e n
      ⟨s.world.world, s.diagnostics⟩ ⟨s'.world.world, s'.diagnostics⟩ hworld hdiagnostics
    refine ⟨hmade, ⟨hworlds, ?_⟩, hreports⟩
    change Journal.calls (s.world.journal ++ [.imported _ _]) =
      Journal.calls (s'.world.journal ++ [.imported _ _])
    rw [Journal.calls_append, Journal.calls_append, hcalls]
    rfl
  persist {path} root hpath w w' hw := by
    obtain ⟨hanswer, hworlds⟩ := h.persist root hpath _ _ hw.1
    refine ⟨hanswer, hworlds, ?_⟩
    change Journal.calls (w.journal ++ [.stored _ _]) =
      Journal.calls (w'.journal ++ [.stored _ _])
    rw [Journal.calls_append, Journal.calls_append, hw.2]
    exact congrArg _ (congrArg (fun answer => [(_, answer)]) hanswer)

end Rewords

/-- What two runs over paths have in common that find their files in other wordings. -/
structure SameRuns (setting : Setting (Traced ω)) (sources : Sources (Traced ω))
    (paths : List Path) (w w' : Traced ω) : Prop where
  /-- The same report, or the same failure of the store. -/
  result : (setting.run paths w).1 = ((setting.reading sources).run paths w').1
  /-- The same prefabs with the same answers, one by one. -/
  stored : (setting.watched.run paths { world := w }).2.journal.calls =
    ((setting.reading sources).watched.run paths { world := w' }).2.journal.calls
  asked : (setting.run paths w).2.calls = ((setting.reading sources).run paths w').2.calls

theorem Rewords.sameRuns {setting : Setting (Traced ω)} {sources : Sources (Traced ω)}
    {same : Option String → Element → Element → Prop} {alike : Traced ω → Traced ω → Prop}
    {paths : List Path} {w w' : Traced ω} (h : setting.Rewords sources same alike paths)
    (hbuilds : setting.BuildsSame same) (hwatched : setting.watched.BuildsSame same)
    (hcalls : ∀ w w', alike w w' → w.calls = w'.calls) (hw : alike w w') :
    setting.SameRuns sources paths w w' ∧
      alike (setting.run paths w).2 ((setting.reading sources).run paths w').2 := by
  obtain ⟨hresult, hend⟩ := h.run_agrees hbuilds hw
  have hnew : alike (Watched.mk w []).world (Watched.mk w' []).world ∧
      (Watched.mk w []).journal.calls = (Watched.mk w' []).journal.calls := ⟨hw, rfl⟩
  obtain ⟨-, -, hstored⟩ := h.watched.run_agrees hwatched hnew
  exact ⟨⟨hresult, hstored, hcalls _ _ hend⟩, hend⟩

def oneFile (text : String) : Disk := { entries := [(["main.exml"], .file text.toUTF8)] }

/-- Outsides with two disks that are the same otherwise. -/
inductive OtherDisk (d d' : Disk) : Traced World → Traced World → Prop where
  | disks (w : World) (calls : List LocatorCall) :
      OtherDisk d d' ⟨{ w with disk := d }, calls⟩ ⟨{ w with disk := d' }, calls⟩

theorem document_onDisk {setting : Setting World} (h : setting.sources = .onDisk) (path : Path)
    (t : Traced World) : setting.traced.sources.document path t =
      Sources.onDisk.document path { disk := t.world.disk } := by
  change setting.sources.document path t.world = _
  rw [h]
  rfl

def tag (localName : String) (attributes : List (String × String)) (children : List Element) :
    Element :=
  { namePrefix := "e", localName, attributes, children }

/-- An image of an asset, in a store that keeps the prefabs. -/
def poster : Setting World where
  assets := AssetTable.empty.insert "a" "a.png"
  sources := .onDisk
  locator := .openLocator
  store := .recorded none .memory

theorem poster_rewords {same : Option String → Element → Element → Prop} {d d' : Disk}
    {e e' : Element} (hdocument : Sources.onDisk.document ⟨"main.exml"⟩ { disk := d } = .ok e)
    (hdocument' : Sources.onDisk.document ⟨"main.exml"⟩ { disk := d' } = .ok e')
    (hsame : same none e e') :
    poster.traced.Rewords poster.traced.sources same (OtherDisk d d') [⟨"main.exml"⟩] := by
  have hcall : ∀ {α : Type} (c : LocatorCall) (a : α),
      Agree (OtherDisk d d') (Traced.call c (pure a)) (Traced.call c (pure a)) := by
    rintro α c a _ _ ⟨w, calls⟩
    exact ⟨rfl, .disks w (calls ++ [c])⟩
  constructor
  case document =>
    rintro path _ _ hpath ⟨w, calls⟩
    obtain rfl : path = ⟨"main.exml"⟩ := by
      rcases hpath with hpath | hpath
      · exact (List.mem_singleton.1 hpath).trans (by decide +kernel)
      · cases hpath
    rw [document_onDisk rfl, document_onDisk rfl, hdocument, hdocument']
    exact .ok hsame
  case importer =>
    intro widget i hi source override e n
    exact Registry.builtIn_onlyBuiltIn.closed hi (Importing.overlooks_closed (fun _ _ => hcall _ _)
      (fun _ => hcall _ _) (fun _ _ => hcall _ _) fun _ => hcall _ _) e n
  case persist =>
    rintro path root - _ _ ⟨w, calls⟩
    exact ⟨rfl, .disks { w with attempts := w.attempts + 1, prefabs := w.prefabs ++ [_] } calls⟩

end Setting

end MarkupScene
