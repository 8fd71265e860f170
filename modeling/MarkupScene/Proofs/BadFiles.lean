import MarkupScene.Proofs.CompileOnce
import MarkupScene.Proofs.Agreement
import MarkupScene.Proofs.Runs

/-!
# Bad files

A file that cannot be read while a run lasts leaves traces in the report only. The run with the file
at some place of its list and the run without it go through the same steps, in sessions that differ
at most in whether the file was tried before: sooner or later it is skipped once, whether its own
turn comes first or some other file asks for it as a skin. The main statement is that both runs end
alike, with the same calls of the store on the way.
-/
namespace MarkupScene

variable {ω α β : Type}

/-- The diagnostics other than parse failures. -/
def remarksOf (ds : List Diagnostic) : List Diagnostic :=
  ds.filter fun d => d.kind ≠ .parseFailure

theorem remarksOf_append (ds es : List Diagnostic) :
    remarksOf (ds ++ es) = remarksOf ds ++ remarksOf es :=
  List.filter_append ..

/-- An action that adds to the diagnostics and does not look at them. -/
def Importing.Oblivious (m : Importing ω α) : Prop :=
  ∀ w, ∃ a after added, ∀ ds, m ⟨w, ds⟩ = (a, ⟨after, ds ++ added⟩)

namespace Importing

theorem ask_oblivious (action : StateM ω α) : (ImportScope.ask action).Oblivious := fun w =>
  ⟨(action w).1, (action w).2, [], fun ds => by rw [List.append_nil]; rfl⟩

theorem Oblivious.pure (a : α) : Oblivious (Pure.pure a : Importing ω α) := fun w =>
  ⟨a, w, [], fun ds => by rw [List.append_nil]; rfl⟩

theorem Oblivious.bind {m : Importing ω α} {f : α → Importing ω β} (hm : m.Oblivious)
    (hf : ∀ a, (f a).Oblivious) : (m >>= f).Oblivious := by
  intro w
  obtain ⟨a, middle, first, hfirst⟩ := hm w
  obtain ⟨b, after, second, hsecond⟩ := hf a middle
  refine ⟨b, after, first ++ second, fun ds => ?_⟩
  rw [bind_apply, hfirst, hsecond, List.append_assoc]

theorem oblivious_closed (scope : ImportScope ω) : Closed scope fun _ m => m.Oblivious where
  pure := .pure
  bind := .bind
  locate _ _ := ask_oblivious _
  textureSize _ := ask_oblivious _
  loadFont _ := ask_oblivious _
  setBorder _ _ := (ask_oblivious _).bind fun _ => .pure ()
  report _ _ w := ⟨(), w, _, fun _ => rfl⟩

end Importing

def Importer.Oblivious (i : Importer ω) : Prop := ∀ scope e n, (i scope e n).Oblivious

theorem Registry.OnlyBuiltIn.oblivious {r : Registry ω} (hr : r.OnlyBuiltIn) {w : String}
    {i : Importer ω} (h : r.importer? w = some i) : i.Oblivious :=
  fun scope e n => hr.closed h (Importing.oblivious_closed scope) e n

/-- Sessions that differ at most in whether a bad file was tried before. -/
structure AlikeBut (bad : Path) (s t : Session (Watched ω)) : Prop where
  world : t.forget.world = s.forget.world
  calls : t.journal.calls = s.journal.calls
  known (path : Path) : path.components ≠ bad.components → t.cache.get? path = s.cache.get? path
  uncompiled : s.cache.skin? bad = none ∧ t.cache.skin? bad = none
  stored : t.report.stored = s.report.stored
  remarks : remarksOf t.report.diagnostics = remarksOf s.report.diagnostics

namespace AlikeBut
variable {bad path : Path} {s t : Session (Watched ω)}

theorem refl (h : s.cache.skin? bad = none) : AlikeBut bad s s where
  world := rfl
  calls := rfl
  known _ _ := rfl
  uncompiled := ⟨h, h⟩
  stored := rfl
  remarks := rfl

theorem symm (h : AlikeBut bad s t) : AlikeBut bad t s where
  world := h.world.symm
  calls := h.calls.symm
  known path hpath := (h.known path hpath).symm
  uncompiled := h.uncompiled.symm
  stored := h.stored.symm
  remarks := h.remarks.symm

theorem note_right (h : AlikeBut bad s t) {x : Event ω} (hx : Journal.calls [x] = []) :
    AlikeBut bad s (t.note x) :=
  { h with
    calls := by rw [Session.journal_note, Journal.calls_append, hx, List.append_nil, h.calls] }

theorem note (h : AlikeBut bad s t) {x y : Event ω} (hx : Journal.calls [x] = [])
    (hy : Journal.calls [y] = []) : AlikeBut bad (s.note x) (t.note y) :=
  ((h.note_right hy).symm.note_right hx).symm

theorem surround (h : AlikeBut bad s t) (after : ω) (added : List Diagnostic) :
    AlikeBut bad (s.surround ⟨after, s.report.diagnostics ++ added⟩)
      (t.surround ⟨after, t.report.diagnostics ++ added⟩) :=
  { h with
    world := rfl
    calls := by
      rw [Session.journal_surround, Session.journal_surround, Journal.calls_append,
        Journal.calls_append, h.calls]
      rfl
    remarks := by
      change remarksOf (t.report.diagnostics ++ added) = remarksOf (s.report.diagnostics ++ added)
      rw [remarksOf_append, remarksOf_append, h.remarks] }

theorem skin?_put (c : SkinCache) {path other : Path} (state : SourceState)
    (h : path.components ≠ other.components) : (c.put path state).skin? other = c.skin? other := by
  unfold SkinCache.skin?
  rw [SkinCache.get?_put, if_neg fun heq => h heq.symm]

theorem skin?_eq (h : AlikeBut bad s t) (path : Path) :
    t.cache.skin? path = s.cache.skin? path := by
  by_cases hbad : path.components = bad.components
  · have hs : s.cache.skin? path = none := by
      rw [← h.uncompiled.1, SkinCache.skin?, SkinCache.skin?, s.cache.get?_congr hbad]
    have ht : t.cache.skin? path = none := by
      rw [← h.uncompiled.2, SkinCache.skin?, SkinCache.skin?, t.cache.get?_congr hbad]
    rw [hs, ht]
  · rw [SkinCache.skin?, SkinCache.skin?, h.known path hbad]

theorem known_put (h : AlikeBut bad s t) (state : SourceState) (other : Path)
    (hother : other.components ≠ bad.components) :
    (t.cache.put path state).get? other = (s.cache.put path state).get? other := by
  rw [SkinCache.get?_put, SkinCache.get?_put, h.known other hother]

theorem skip (h : AlikeBut bad s t) (hpath : path.components ≠ bad.components) (reason : String) :
    AlikeBut bad (s.skip path reason) (t.skip path reason) :=
  { h with
    known := h.known_put .failed
    uncompiled := by
      rw [Session.cache_skip, Session.cache_skip, skin?_put _ _ hpath, skin?_put _ _ hpath]
      exact h.uncompiled
    remarks := by
      change remarksOf (t.report.diagnostics ++ [_]) = remarksOf (s.report.diagnostics ++ [_])
      rw [remarksOf_append, remarksOf_append, h.remarks] }

theorem skip_right (h : AlikeBut bad s t) (reason : String) :
    AlikeBut bad s (t.skip bad reason) :=
  { h with
    known := fun other hother => by
      rw [Session.cache_skip, SkinCache.get?_put, if_neg hother, h.known other hother]
    uncompiled := by
      refine ⟨h.uncompiled.1, ?_⟩
      rw [Session.cache_skip, SkinCache.skin?, SkinCache.get?_put_self]
    remarks := by
      change remarksOf (t.report.diagnostics ++ [⟨.parseFailure, bad, reason⟩]) = _
      rw [remarksOf_append, h.remarks]
      exact List.append_nil _ }

theorem answered (h : AlikeBut bad s t) (p : Prefab) (result : Except Failure PrefabRef)
    (world : ω) :
    AlikeBut bad (s.answered p result world) (t.answered p result world) :=
  { h with
    world := rfl
    calls := by
      rw [Session.journal_answered, Session.journal_answered, Journal.calls_append,
        Journal.calls_append, h.calls] }

theorem keep (h : AlikeBut bad s t) (hpath : path.components ≠ bad.components) (handle : PrefabRef)
    (root : Node) : AlikeBut bad (s.keep path handle root) (t.keep path handle root) :=
  { h with
    known := h.known_put _
    uncompiled := by
      rw [Session.cache_keep, Session.cache_keep, skin?_put _ _ hpath, skin?_put _ _ hpath]
      exact h.uncompiled
    stored := by
      change t.report.stored ++ [handle] = s.report.stored ++ [handle]
      rw [h.stored] }

end AlikeBut

namespace Setting

/-- The file cannot be read when a visit of it begins. -/
def Unreadable (setting : Setting ω) (bad : Path) (j : Journal ω) : Prop :=
  ∀ below before, .began below bad before ∈ j →
    ∃ failure, setting.sources.document bad before.world = .error failure

/-- A step that goes alike in alike sessions while the bad file cannot be read. -/
structure Spares (setting : Setting ω) (bad : Path) (m m' : Run (Watched ω) α) : Prop where
  grows : m'.Grows
  alike {s t : Session (Watched ω)} : AlikeBut bad s t →
    setting.Unreadable bad (m'.run t).2.journal →
      (m'.run t).1 = (m.run s).1 ∧ AlikeBut bad (m.run s).2 (m'.run t).2

section
variable {setting : Setting ω} {bad path : Path}

theorem Unreadable.mono {j k : Journal ω} (h : j ⊆ k) (hk : setting.Unreadable bad k) :
    setting.Unreadable bad j :=
  fun below before hbegan => hk below before (h hbegan)

namespace Spares

theorem pure (a : α) :
    setting.Spares bad (Pure.pure a : Run (Watched ω) α) (Pure.pure a) where
  grows := .pure a
  alike h _ := ⟨rfl, h⟩

theorem bind {m m' : Run (Watched ω) α} {f f' : α → Run (Watched ω) β}
    (hm : setting.Spares bad m m') (hf : ∀ a, setting.Spares bad (f a) (f' a)) :
    setting.Spares bad (m >>= f) (m' >>= f') where
  grows := hm.grows.bind fun a => (hf a).grows
  alike {s t} h hbad := by
    have hfirst : setting.Unreadable bad (m'.run t).2.journal →
        (m'.run t).1 = (m.run s).1 ∧ AlikeBut bad (m.run s).2 (m'.run t).2 := hm.alike h
    rw [Run.run_bind] at hbad
    rw [Run.run_bind, Run.run_bind]
    generalize m'.run t = first at hbad hfirst ⊢
    generalize m.run s = plain at hfirst ⊢
    obtain ⟨result, w⟩ := plain
    rcases first with ⟨failure | a, u⟩
    · obtain ⟨hresult, halike⟩ := hfirst hbad
      obtain rfl : .error failure = result := hresult
      exact ⟨rfl, halike⟩
    · obtain ⟨hresult, halike⟩ := hfirst (hbad.mono ((hf a).grows _))
      obtain rfl : .ok a = result := hresult
      exact (hf a).alike halike hbad

theorem noting {m m' : Run (Watched ω) α} (hm : setting.Spares bad m m')
    {event : Session ω → Except Failure α → Session ω → Event ω}
    (hevent : ∀ before result after, Journal.calls [event before result after] = []) :
    setting.Spares bad (Run.noting event m) (Run.noting event m') where
  grows := hm.grows.noting event
  alike {s t} h hbad := by
    rw [Run.run_noting] at hbad
    obtain ⟨hresult, halike⟩ := hm.alike h (hbad.mono (List.subset_append_left _ _))
    rw [Run.run_noting, Run.run_noting]
    exact ⟨hresult, halike.note (hevent _ _ _) (hevent _ _ _)⟩

end Spares

def sparing (setting : Setting ω) (bad : Path) : Coupling (Watched ω) (Watched ω) where
  related := setting.Spares bad
  pure := .pure
  bind := .bind

theorem importNode_spares
    (hobl : ∀ w i, setting.registry.importer? w = some i → i.Oblivious) (source : Path)
    (e : Element) (override widget : Option String) (n : Node) :
    setting.Spares bad (setting.watched.importNode source e override widget n)
      (setting.watched.importNode source e override widget n) where
  grows := setting.importNode_grows source e override widget n
  alike {s t} h _ := by
    rw [importNode_eq, show setting.watched.registry = setting.registry.watched setting.locator
      from rfl, Registry.bind_importer?_watched]
    cases himporter : widget.bind setting.registry.importer? with
    | none => exact ⟨rfl, h⟩
    | some i =>
      obtain ⟨w, -, hi⟩ := Option.bind_eq_some_iff.1 himporter
      let scope := setting.importScope source override
      obtain ⟨made, after, added, hacts⟩ := hobl w i hi scope e n s.forget.world
      change Except.ok (i scope e n ⟨t.forget.world, t.report.diagnostics⟩).1 =
          .ok (i scope e n ⟨s.forget.world, s.report.diagnostics⟩).1 ∧
        AlikeBut bad (s.surround (i scope e n ⟨s.forget.world, s.report.diagnostics⟩).2)
          (t.surround (i scope e n ⟨t.forget.world, t.report.diagnostics⟩).2)
      rw [h.world, hacts, hacts]
      exact ⟨rfl, h.surround after added⟩

theorem look_spares (hpath : path.components ≠ bad.components) :
    setting.Spares bad (setting.watched.look path) (setting.watched.look path) where
  grows := setting.look_grows path
  alike {s t} h _ := by
    unfold look
    rw [Run.run_bind, Run.run_bind, Run.run_get, Run.run_get]
    dsimp only
    rw [h.known path hpath, show setting.watched.sources.document path t.world =
        setting.sources.document path t.forget.world from rfl, h.world,
      show setting.watched.sources.document path s.world =
        setting.sources.document path s.forget.world from rfl]
    cases s.cache.get? path with
    | some state =>
      cases state with
      | failed => exact ⟨rfl, h⟩
      | compiled skin => exact ⟨rfl, h⟩
    | none =>
      cases setting.sources.document path s.forget.world with
      | error failure => exact ⟨rfl, h.skip hpath failure.message⟩
      | ok e => exact ⟨rfl, h⟩

theorem copyKnown_spares (path : Path) (name : String) :
    setting.Spares bad (copyKnown path name) (copyKnown path name) where
  grows _ := List.Subset.refl _
  alike {s t} h _ := by
    refine ⟨?_, h⟩
    change Except.ok (copyOf (t.cache.skin? path) name) = .ok (copyOf (s.cache.skin? path) name)
    rw [h.skin?_eq]

theorem finish_spares (hpath : path.components ≠ bad.components) (root : Node) :
    setting.Spares bad (setting.watched.finish path root)
      (setting.watched.finish path root) where
  grows := setting.finish_grows path root
  alike {s t} h _ := by
    rw [run_finish_watched, run_finish_watched, h.world]
    rcases setting.store.persist (setting.prefabOf path root) s.forget.world with
      ⟨failure | handle, world⟩
    · exact ⟨rfl, h.answered _ _ _⟩
    · exact ⟨rfl, (h.answered _ _ _).keep hpath handle root⟩

theorem compileWith_bad (begin : Starting (Watched ω)) {t : Session (Watched ω)}
    {failure : Failure} (huncompiled : t.cache.skin? bad = none)
    (hunread : setting.sources.document bad t.forget.world = .error failure) :
    ∃ u, (setting.watched.compileWith begin bad).run t = (.ok none, u) ∧
      u.cache.get? bad = some .failed ∧ ∀ s, AlikeBut bad s t → AlikeBut bad s u := by
  rw [run_compileWith, SkinCache.answer?, show setting.watched.sources.document bad t.world =
    .error failure from hunread]
  cases hstate : t.cache.get? bad with
  | some state =>
    cases state with
    | failed => exact ⟨t, rfl, hstate, fun _ h => h⟩
    | compiled skin =>
      rw [SkinCache.skin?, hstate] at huncompiled
      cases huncompiled
  | none =>
    exact ⟨_, rfl, SkinCache.get?_put_self _ _ _, fun _ h => h.skip_right failure.message⟩

theorem watchFile_bad {stack : List Path} {t : Session (Watched ω)} {failure : Failure}
    (huncompiled : t.cache.skin? bad = none)
    (hunread : setting.sources.document bad t.forget.world = .error failure) :
    ∃ u, (setting.watchFile stack bad).run t = (.ok none, u) ∧
      u.cache.get? bad = some .failed ∧ ∀ s, AlikeBut bad s t → AlikeBut bad s u := by
  obtain ⟨u, hrun, hfailed, halike⟩ := compileWith_bad
    (setting.watchStart (bad :: stack) fun file _ => setting.watchFile (bad :: stack) file.1)
    (t := t.note (.began stack bad t.forget)) huncompiled hunread
  rw [watchFile, Run.run_noting, Run.run_bind, Run.run_modify]
  dsimp only
  rw [hrun]
  exact ⟨_, rfl, hfailed, fun s h => (halike s (h.note_right rfl)).note_right rfl⟩

/-- A file is visited alike in alike sessions. -/
theorem watchFile_spares
    (hobl : ∀ w i, setting.registry.importer? w = some i → i.Oblivious)
    (hbad : bad.normalize = bad) (stack : List Path) (path : Path) (hpath : path.normalize = path) :
    setting.Spares bad (setting.watchFile stack path) (setting.watchFile stack path) := by
  induction stack, path using compileFile.induct setting with
  | case1 stack path ih =>
    by_cases hsame : path.components = bad.components
    · obtain rfl := Path.eq_of_components hpath hbad hsame
      refine ⟨setting.watchFile_grows stack path, fun {s t} h hunreadable => ?_⟩
      obtain ⟨failure, ht⟩ := hunreadable _ _ (setting.began_mem_watchFile stack path t)
      have hs : setting.sources.document path s.forget.world = .error failure := by
        rw [← h.world]
        exact ht
      obtain ⟨u, hrun, -, halike⟩ := watchFile_bad h.uncompiled.2 ht
      obtain ⟨u', hrun', -, halike'⟩ := watchFile_bad h.uncompiled.1 hs
      rw [hrun, hrun']
      exact ⟨rfl, (halike' u (halike s h).symm).symm⟩
    · have hcompile : (setting.sparing bad).related
          (setting.watched.compileWith (setting.watchStart (path :: stack) fun file _ =>
            setting.watchFile (path :: stack) file.1) path)
          (setting.watched.compileWith (setting.watchStart (path :: stack) fun file _ =>
            setting.watchFile (path :: stack) file.1) path) := by
        refine compileWith_coupled_of ⟨rfl, rfl, rfl⟩ (importNode_spares hobl) (look_spares hsame)
          (finish_spares hsame) fun e override => ?_
        refine watchStart_coupled e override (fun m hm => ?_) copyKnown_spares fun file hoff => ?_
        · exact Spares.noting hm fun _ _ _ => rfl
        · exact ih file hoff (SkinTable.normalize_of_mem_paths file.2)
      rw [watchFile]
      refine .noting (.bind ?_ fun _ => hcompile) fun _ _ _ => rfl
      exact ⟨fun t => List.subset_append_left _ _, fun h _ => ⟨rfl, h.note rfl rfl⟩⟩

theorem watchAll_spares
    (hobl : ∀ w i, setting.registry.importer? w = some i → i.Oblivious)
    (hbad : bad.normalize = bad) (paths : List Path) :
    setting.Spares bad (setting.watchAll paths) (setting.watchAll paths) := by
  induction paths with
  | nil => exact .pure ()
  | cons path rest ih =>
    rw [watchAll]
    exact .bind (watchFile_spares hobl hbad [] path.normalize path.normalize_normalize) fun _ => ih

end

theorem Accounted.uncompiled {setting : Setting ω} {s : Session (Watched ω)} {bad : Path}
    (hs : setting.Accounted s) (hbad : bad.normalize = bad)
    (hunreadable : setting.Unreadable bad s.journal) : s.cache.skin? bad = none := by
  rw [SkinCache.skin?]
  cases hstate : s.cache.get? bad with
  | none => rfl
  | some state =>
    cases state with
    | failed => rfl
    | compiled skin =>
      obtain ⟨path, root, hsame, -, below, before, e, hbegan, hdocument, -⟩ :=
        hs.stored (hs.compiled hbad hstate)
      obtain rfl : bad = path := congrArg Prefab.source hsame
      obtain ⟨failure, hfailure⟩ := hunreadable below before hbegan
      rw [hdocument] at hfailure
      cases hfailure

theorem get?_watchAll_of_known {setting : Setting ω} (paths : List Path)
    {s : Session (Watched ω)} {path : Path} {state : SourceState}
    (h : s.cache.get? path = some state) :
    ((setting.watchAll paths).run s).2.cache.get? path = some state := by
  obtain ⟨earlier, -, -, hend, -⟩ := setting.watchAll_watchEach paths s
  rw [hend]
  exact (setting.watchEach_steps earlier s).get?_of_known h

/-- The run with a bad file and the run without it end alike, and a run that succeeds has tried the
file. -/
theorem watchAll_insert {setting : Setting ω}
    (hobl : ∀ w i, setting.registry.importer? w = some i → i.Oblivious) {world : ω}
    {earlier later : List Path} {bad : Path}
    (hbad : setting.Unreadable bad.normalize
      (setting.runJournal world (earlier ++ bad :: later))) :
    let done := (setting.watchAll (earlier ++ later)).run { world := { world } }
    let done' := (setting.watchAll (earlier ++ bad :: later)).run { world := { world } }
    done'.1 = done.1 ∧ AlikeBut bad.normalize done.2 done'.2 ∧
      (done'.1 = .ok () → done'.2.cache.get? bad.normalize = some .failed) := by
  have haccounted : setting.Accounted (setting.watchRun world earlier) :=
    watchRun_induction (setting.accounted world) earlier
  rw [runJournal, watchRun] at hbad
  rw [watchRun] at haccounted
  dsimp only
  rw [watchAll_append, Run.run_bind] at hbad
  rw [watchAll_append, watchAll_append, Run.run_bind, Run.run_bind]
  generalize (setting.watchAll earlier).run { world := { world } } = first at haccounted hbad ⊢
  rcases first with ⟨failure | ⟨⟩, t⟩
  · refine ⟨rfl, .refl (haccounted.uncompiled bad.normalize_normalize hbad), fun h => ?_⟩
    cases h
  · dsimp only at hbad ⊢
    rw [watchAll] at hbad ⊢
    have hvisit := hbad.mono (Run.Grows.subset_bind _ (fun _ => setting.watchAll_grows later) t)
    obtain ⟨failure, hunread⟩ := hvisit _ _ (setting.began_mem_watchFile [] bad.normalize t)
    have huncompiled : t.cache.skin? bad.normalize = none :=
      haccounted.uncompiled bad.normalize_normalize
        (hvisit.mono (setting.watchFile_grows [] bad.normalize t))
    obtain ⟨u, hrun, hfailed, halike⟩ := watchFile_bad huncompiled hunread
    rw [Run.run_bind, hrun] at hbad ⊢
    obtain ⟨hresult, hends⟩ := (watchAll_spares hobl bad.normalize_normalize later).alike
      (halike t (.refl huncompiled)) hbad
    exact ⟨hresult, hends, fun _ => get?_watchAll_of_known later hfailed⟩

/-- How a run with a bad file at some place of its list compares to the run without it. -/
structure Isolates (setting : Setting ω) (world : ω) (earlier : List Path) (bad : Path)
    (later : List Path) : Prop where
  /-- The run succeeds as well, or fails with the same failure. -/
  result : (setting.run (earlier ++ bad :: later) world).1.map (fun _ => ()) =
    (setting.run (earlier ++ later) world).1.map fun _ => ()
  /-- The outside is left alike. -/
  outside : (setting.run (earlier ++ bad :: later) world).2 =
    (setting.run (earlier ++ later) world).2
  /-- The store is called with the same prefabs and gives the same answers. -/
  calls : (setting.runJournal world (earlier ++ bad :: later)).calls =
    (setting.runJournal world (earlier ++ later)).calls
  /-- The diagnostics other than parse failures are the same. -/
  remarks :
    remarksOf (setting.watchRun world (earlier ++ bad :: later)).report.diagnostics =
      remarksOf (setting.watchRun world (earlier ++ later)).report.diagnostics
  reported {report report'} : (setting.run (earlier ++ later) world).1 = .ok report →
    (setting.run (earlier ++ bad :: later) world).1 = .ok report' →
      report'.stored = report.stored ∧
        remarksOf report'.diagnostics = remarksOf report.diagnostics
  /-- The file is skipped once. -/
  skipped {report} : (setting.run (earlier ++ bad :: later) world).1 = .ok report →
    report.skips bad.normalize = 1

/-- A file that cannot be read changes nothing but what the report says about the file. -/
theorem run_isolates {setting : Setting ω}
    (hobl : ∀ w i, setting.registry.importer? w = some i → i.Oblivious) (world : ω)
    (earlier : List Path) (bad : Path) (later : List Path)
    (hbad : setting.Unreadable bad.normalize
      (setting.runJournal world (earlier ++ bad :: later))) :
    setting.Isolates world earlier bad later := by
  obtain ⟨hresult, halike, hfailed⟩ := watchAll_insert hobl hbad
  have hreported : ∀ {report report'}, (setting.run (earlier ++ later) world).1 = .ok report →
      (setting.run (earlier ++ bad :: later) world).1 = .ok report' →
        report'.stored = report.stored ∧
          remarksOf report'.diagnostics = remarksOf report.diagnostics := by
    intro report report' h h'
    rw [(report_of_run h).2, (report_of_run h').2]
    exact ⟨halike.stored, halike.remarks⟩
  constructor
  case result =>
    rw [run_eq_watched, run_eq_watched, hresult]
    cases ((setting.watchAll (earlier ++ later)).run { world := { world } }).1 <;> rfl
  case outside =>
    rw [run_eq_watched, run_eq_watched]
    exact halike.world
  case calls => exact halike.calls
  case remarks => exact halike.remarks
  case reported => exact hreported
  case skipped =>
    intro report h
    obtain ⟨hok, rfl⟩ := report_of_run h
    have hagreed : Agreed (setting.watchRun world (earlier ++ bad :: later)) :=
      watchRun_induction (setting.agreed world) _
    -- At most one skip because the file is known after the first, at least one since it failed.
    have hmost :
        (setting.watchRun world (earlier ++ bad :: later)).report.skips bad.normalize ≤ 1 :=
      watchRun_induction (motive := fun s => s.report.skips bad.normalize ≤ 1)
        (fun paths => (setting.skips_tallies bad.normalize).le_one world paths rfl) _
    obtain ⟨f, hf, hsame⟩ := (hagreed.failed bad.normalize).1 (hfailed hok)
    have hcomponents : f.path.components = bad.normalize.components := of_decide_eq_true hsame
    have hnormal : f.path.normalize = bad.normalize := by
      rw [Path.normalize, hcomponents]
      exact bad.normalize_normalize
    have hleast : 0 < (setting.watchRun world (earlier ++ bad :: later)).report.skips
        bad.normalize :=
      List.countP_pos_iff.2 ⟨f, hf, decide_eq_true hnormal⟩
    omega

/-- The skin of buttons cannot be read, and every other file holds a button. -/
def brokenSkin : Setting Unit where
  skins := SkinTable.empty.insert "eui.Button" ⟨"broken.exml"⟩
  sources :=
    { read := fun path _ =>
        if path = ⟨"broken.exml"⟩ then .error .notFound else .ok "<e:Button/>" }
  locator := .openLocator
  store := .memory

/-- The skin is asked for before and after its own turn, and is skipped once. -/
theorem brokenSkin_isolates :
    let earlier : List Path := [⟨"main.exml"⟩]
    let bad : Path := ⟨"./broken.exml"⟩
    let later : List Path := [⟨"other.exml"⟩]
    (∀ w i, brokenSkin.registry.importer? w = some i → i.Oblivious) ∧
      brokenSkin.Unreadable bad.normalize
        (brokenSkin.runJournal () (earlier ++ bad :: later)) ∧
      ∃ report report', (brokenSkin.run (earlier ++ later) ()).1 = .ok report ∧
        (brokenSkin.run (earlier ++ bad :: later) ()).1 = .ok report' ∧
        report'.stored = report.stored ∧ report'.skips bad.normalize = 1 := by
  intro earlier bad later
  have hobl : ∀ w i, brokenSkin.registry.importer? w = some i → i.Oblivious := fun _ _ =>
    Registry.OnlyBuiltIn.oblivious Registry.builtIn_onlyBuiltIn
  have hnormal : bad.normalize = ⟨"broken.exml"⟩ := by decide +kernel
  have hbad : brokenSkin.Unreadable bad.normalize
      (brokenSkin.runJournal () (earlier ++ bad :: later)) := by
    intro below before _
    rw [hnormal]
    exact ⟨_, rfl⟩
  have hok : (brokenSkin.run (earlier ++ later) ()).1.isOk = true := by decide +kernel
  have hok' : (brokenSkin.run (earlier ++ bad :: later) ()).1.isOk = true := by decide +kernel
  have hisolates := run_isolates hobl () earlier bad later hbad
  cases h : (brokenSkin.run (earlier ++ later) ()).1 with
  | error failure =>
    rw [h] at hok
    cases hok
  | ok report =>
    cases h' : (brokenSkin.run (earlier ++ bad :: later) ()).1 with
    | error failure =>
      rw [h'] at hok'
      cases hok'
    | ok report' =>
      exact ⟨hobl, hbad, report, report', rfl, rfl, (hisolates.reported h h').1,
        hisolates.skipped h'⟩

end Setting

end MarkupScene
