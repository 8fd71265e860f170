import MarkupScene.Proofs.Levels
import MarkupScene.Proofs.Runs

/-!
# Twin runs

Two runs that turn vertical coordinates around in different ways do the same steps on trees of one
level. Their sessions know and report the same all the way, since neither sizes nor skins depend on
heights. The main statement is that, as long as nothing outside of the runs tells heights apart, the
runs end alike and have stored prefabs that differ in heights only.
-/
namespace MarkupScene

variable {ω α β γ δ : Type}

/-- Two steps with the same failure or related results. -/
inductive SameOutcome (related : α → β → Prop) : Except Failure α → Except Failure β → Prop where
  | ok {a : α} {b : β} : related a b → SameOutcome related (.ok a) (.ok b)
  | error (failure : Failure) : SameOutcome related (.error failure) (.error failure)

theorem SameOutcome.of_eq {result result' : Except Failure α} (h : result = result') :
    SameOutcome Eq result result' := by
  subst h
  cases result with
  | ok a => exact .ok rfl
  | error failure => exact .error failure

/-- Two steps that fail alike or have related results from sessions that are alike, after which the
sessions are alike again. -/
def Run.Twin (alike : Session ω → Session ω → Prop) (related : α → β → Prop) (m : Run ω α)
    (m' : Run ω β) : Prop :=
  ∀ s s', alike s s' → alike (m.run s).2 (m'.run s').2 ∧
    SameOutcome related (m.run s).1 (m'.run s').1

namespace Run.Twin
variable {alike : Session ω → Session ω → Prop} {related : α → β → Prop} {m : Run ω α}
  {m' : Run ω β}

theorem pure {a : α} {b : β} (h : related a b) :
    Twin alike related (Pure.pure a) (Pure.pure b) :=
  fun _ _ hs => ⟨hs, .ok h⟩

theorem bind {after : γ → δ → Prop} {f : α → Run ω γ} {f' : β → Run ω δ}
    (hm : Twin alike related m m') (hf : ∀ a b, related a b → Twin alike after (f a) (f' b)) :
    Twin alike after (m >>= f) (m' >>= f') := by
  intro s s' hs
  obtain ⟨halike, hsame⟩ := hm s s' hs
  rw [run_bind, run_bind]
  generalize m.run s = first at halike hsame ⊢
  generalize m'.run s' = first' at halike hsame ⊢
  obtain ⟨result, t⟩ := first
  obtain ⟨result', t'⟩ := first'
  cases hsame with
  | error failure => exact ⟨halike, .error failure⟩
  | ok hab => exact hf _ _ hab t t' halike

theorem map {after : γ → δ → Prop} {f : α → γ} {f' : β → δ} (hm : Twin alike related m m')
    (h : ∀ a b, related a b → after (f a) (f' b)) : Twin alike after (f <$> m) (f' <$> m') := by
  rw [map_eq_pure_bind, map_eq_pure_bind]
  exact hm.bind fun a b hab => pure (h a b hab)

end Run.Twin

/-- What two caches know about a file is the same up to heights. -/
inductive SameState : Option SourceState → Option SourceState → Prop where
  | unknown : SameState none none
  | failed : SameState (some .failed) (some .failed)
  | compiled {root root' : Node} (handle : PrefabRef) : root.leveled = root'.leveled →
      SameState (some (.compiled ⟨handle, root⟩)) (some (.compiled ⟨handle, root'⟩))

/-- The prefabs that went to the store, up to heights, with its answers. -/
def Journal.levels (j : Journal ω) : List (Prefab × Except Failure PrefabRef) :=
  j.calls.map fun c => (c.1.leveled, c.2)

/-- Sessions that know the same, up to heights, and report the same, while the outside is alike. -/
structure Session.Alike (alike : ω → ω → Prop) (s s' : Session (Watched ω)) : Prop where
  world : alike s.world.world s'.world.world
  cache (path : Path) : SameState (s.cache.get? path) (s'.cache.get? path)
  report : s.report = s'.report
  levels : s.journal.levels = s'.journal.levels

theorem SameState.put {c c' : SkinCache} (h : ∀ path, SameState (c.get? path) (c'.get? path))
    {state state' : SourceState} (hstate : SameState (some state) (some state'))
    (path other : Path) :
    SameState ((c.put path state).get? other) ((c'.put path state').get? other) := by
  rw [SkinCache.get?_put, SkinCache.get?_put]
  split
  · exact hstate
  · exact h other

theorem Journal.levels_append (j k : Journal ω) : levels (j ++ k) = j.levels ++ levels k := by
  rw [levels, calls_append, List.map_append]
  rfl

namespace Session.Alike
variable {alike : ω → ω → Prop} {s s' : Session (Watched ω)}

theorem skip (hs : Alike alike s s') (path : Path) (reason : String) :
    Alike alike (s.skip path reason) (s'.skip path reason) where
  world := hs.world
  cache := SameState.put hs.cache .failed path
  report := by simp only [Session.skip, hs.report]
  levels := hs.levels

theorem keep (hs : Alike alike s s') (path : Path) (handle : PrefabRef) {root root' : Node}
    (hroot : root.leveled = root'.leveled) :
    Alike alike (s.keep path handle root) (s'.keep path handle root') where
  world := hs.world
  cache := SameState.put hs.cache (.compiled handle hroot) path
  report := by simp only [Session.keep, hs.report]
  levels := hs.levels

theorem note (hs : Alike alike s s') {x x' : Event ω} (hx : Journal.levels [x] = [])
    (hx' : Journal.levels [x'] = []) : Alike alike (s.note x) (s'.note x') where
  world := hs.world
  cache := hs.cache
  report := hs.report
  levels := by
    rw [journal_note, journal_note, Journal.levels_append, Journal.levels_append, hx, hx',
      hs.levels]

end Session.Alike

theorem Run.Twin.noting {alike : ω → ω → Prop} {related : α → β → Prop}
    {m : Run (Watched ω) α} {m' : Run (Watched ω) β}
    {event : Session ω → Except Failure α → Session ω → Event ω}
    {event' : Session ω → Except Failure β → Session ω → Event ω}
    (hm : Twin (Session.Alike alike) related m m')
    (hevent : ∀ before result after, Journal.levels [event before result after] = [])
    (hevent' : ∀ before result after, Journal.levels [event' before result after] = []) :
    Twin (Session.Alike alike) related (noting event m) (noting event' m') := by
  intro s s' hs
  obtain ⟨halike, hsame⟩ := hm s s' hs
  rw [run_noting, run_noting]
  exact ⟨halike.note (hevent _ _ _) (hevent' _ _ _), hsame⟩

/-- The roots are of one level. -/
abbrev SameLevel (n m : Node) : Prop := n.leveled = m.leveled

abbrev SameLevels (kids kids' : List Node) : Prop :=
  kids.map Node.leveled = kids'.map Node.leveled

theorem SameLevels.append {kids kids' more more' : List Node} (h : SameLevels kids kids')
    (hmore : SameLevels more more') : SameLevels (kids ++ more) (kids' ++ more') := by
  rw [SameLevels, List.map_append, List.map_append, h, hmore]

namespace Setting

/-- The setting with another way to turn heights around. -/
def along (setting : Setting ω) (yAxis : YAxis) : Setting ω :=
  { setting with options := { setting.options with yAxis } }

section
variable {setting : Setting ω} {alike : ω → ω → Prop} {paths : List Path} {a b : YAxis}

theorem copyKnown_twin (path : Path) (name : String) :
    Run.Twin (Session.Alike alike) SameLevel (copyKnown (ω := Watched ω) path name)
      (copyKnown path name) := by
  intro s s' hs
  refine ⟨hs, .ok ?_⟩
  have hknown := hs.cache path
  unfold SkinCache.skin?
  generalize s.cache.get? path = state at hknown ⊢
  generalize s'.cache.get? path = state' at hknown ⊢
  cases hknown with
  | unknown => rfl
  | failed => rfl
  | compiled handle hroot => exact Node.leveled_copy hroot name handle

theorem look_twin (h : setting.Overlooks alike paths) {path : Path}
    (hpath : setting.MayRead paths path) :
    Run.Twin (Session.Alike alike) Eq ((setting.along a).watched.look path)
      ((setting.along b).watched.look path) := by
  intro s s' hs
  have hdocument : setting.sources.document path s.world.world =
      setting.sources.document path s'.world.world := by
    unfold Sources.document
    rw [h.read hpath hs.world]
  have hknown := hs.cache path
  unfold look
  rw [Run.run_bind, Run.run_bind, Run.run_get, Run.run_get]
  dsimp only
  rw [show (setting.along a).watched.sources.document path s.world =
      setting.sources.document path s.world.world from rfl,
    show (setting.along b).watched.sources.document path s'.world =
      setting.sources.document path s'.world.world from rfl, ← hdocument]
  generalize s.cache.get? path = state at hknown ⊢
  generalize s'.cache.get? path = state' at hknown ⊢
  cases hknown with
  | failed => exact ⟨hs, .ok rfl⟩
  | compiled handle hroot => exact ⟨hs, .ok rfl⟩
  | unknown =>
    dsimp only
    cases setting.sources.document path s.world.world with
    | ok e => exact ⟨hs, .ok rfl⟩
    | error failure => exact ⟨hs.skip path failure.message, .ok rfl⟩

theorem finish_twin (h : setting.Overlooks alike paths) {path : Path}
    (hpath : setting.MayRead paths path) {root root' : Node}
    (hroot : root.leveled = root'.leveled) :
    Run.Twin (Session.Alike alike) Eq ((setting.along a).watched.finish path root)
      ((setting.along b).watched.finish path root') := by
  have hprefab : ((setting.along a).watched.prefabOf path root).leveled =
      ((setting.along b).watched.prefabOf path root').leveled :=
    congrArg (fun root => { setting.prefabOf path root with root }) hroot
  have hpersist : Run.Twin (Session.Alike alike) Eq
      (Run.persist (setting.along a).watched.store ((setting.along a).watched.prefabOf path root))
      (Run.persist (setting.along b).watched.store
        ((setting.along b).watched.prefabOf path root')) := by
    intro s s' hs
    rw [Run.run_persist, Run.run_persist]
    obtain ⟨hanswer, hworld⟩ := h.persist hpath hroot _ _ hs.world
    refine ⟨⟨hworld, hs.cache, hs.report, ?_⟩, .of_eq hanswer⟩
    change Journal.levels (s.journal ++ [.stored _ _]) =
      Journal.levels (s'.journal ++ [.stored _ _])
    rw [Journal.levels_append, Journal.levels_append, hs.levels]
    exact congrArg _ (congrArg (fun call => [call]) (Prod.ext hprefab hanswer))
  have hkeep : ∀ handle, Run.Twin (Session.Alike alike) Eq
      (modify fun s => s.keep path handle root : Run (Watched ω) PUnit)
      (modify fun s => s.keep path handle root') :=
    fun handle s s' hs => ⟨hs.keep path handle hroot, .ok rfl⟩
  unfold finish
  apply hpersist.bind
  rintro handle _ rfl
  exact (hkeep handle).bind fun _ _ _ => .pure rfl

theorem importNode_twin (h : setting.Overlooks alike paths)
    (hregistry : setting.registry.OnlyBuiltIn) (source : Path) (e : Element)
    (override widget : Option String) {n m : Node} (hn : n.leveled = m.leveled) :
    Run.Twin (Session.Alike alike) SameLevel
      ((setting.along a).watched.importNode source e override widget n)
      ((setting.along b).watched.importNode source e override widget m) := by
  intro s s' hs
  rw [importNode_eq, importNode_eq,
    show (setting.along a).watched.registry = setting.registry.watched setting.locator from rfl,
    show (setting.along b).watched.registry = setting.registry.watched setting.locator from rfl,
    Registry.bind_importer?_watched]
  cases himporter : widget.bind setting.registry.importer? with
  | none => exact ⟨hs, .ok hn⟩
  | some i =>
    obtain ⟨w, -, hi⟩ := Option.bind_eq_some_iff.1 himporter
    let scope := setting.importScope source override
    have hscope : scope.locator = setting.locator := rfl
    obtain ⟨hlevel, hworld, hdiagnostics⟩ := h.importer hregistry hi hscope e hn
      ⟨s.world.world, s.report.diagnostics⟩ ⟨s'.world.world, s'.report.diagnostics⟩ hs.world
      (congrArg Report.diagnostics hs.report)
    have hreport : { s.report with diagnostics :=
          (i scope e n ⟨s.world.world, s.report.diagnostics⟩).2.diagnostics } =
        { s'.report with diagnostics :=
          (i scope e m ⟨s'.world.world, s'.report.diagnostics⟩).2.diagnostics } := by
      rw [hdiagnostics, hs.report]
    refine ⟨⟨hworld, hs.cache, hreport, ?_⟩, .ok hlevel⟩
    change Journal.levels (s.journal ++ [.imported _ _]) =
      Journal.levels (s'.journal ++ [.imported _ _])
    rw [Journal.levels_append, Journal.levels_append, hs.levels]
    rfl

/-- Sizes of nodes do not depend on heights. -/
theorem build_twin (h : setting.Overlooks alike paths) (hregistry : setting.registry.OnlyBuiltIn)
    {start start' : Starting (Watched ω)}
    (hstart : ∀ e override, Run.Twin (Session.Alike alike) SameLevel (start e override)
      (start' e override))
    (source : Path) (e : Element) (override : Option String) (parent : Option Size) :
    Run.Twin (Session.Alike alike) SameLevel
      ((setting.along a).watched.build start source e override parent)
      ((setting.along b).watched.build start' source e override parent) := by
  -- Both runs accept the same children, so one induction serves them.
  refine build.induct (setting.along a).watched start source
    (fun e override parent => Run.Twin (Session.Alike alike) SameLevel
      ((setting.along a).watched.build start source e override parent)
      ((setting.along b).watched.build start' source e override parent))
    (fun widget size es => Run.Twin (Session.Alike alike) SameLevels
      ((setting.along a).watched.buildAll start source widget size es)
      ((setting.along b).watched.buildAll start' source widget size es))
    ?_ ?_ ?_ ?_ e override parent
  · intro e override parent ih
    rw [build, build]
    refine (hstart e override).bind fun fresh fresh' hfresh => ?_
    have hkids : Run.Twin (Session.Alike alike) SameLevels
        ((setting.along a).watched.buildAll start source (widgetFor e override)
          (fresh.arrange (setting.along a).options.yAxis (.ofElement e) parent).size e.candidates)
        ((setting.along b).watched.buildAll start' source (widgetFor e override)
          (fresh'.arrange (setting.along b).options.yAxis (.ofElement e) parent).size
          e.candidates) := by
      rw [Node.size_arrange_of_leveled hfresh]
      exact ih fresh
    refine hkids.bind fun kids kids' hsame => ?_
    exact importNode_twin h hregistry source e override _
      (Node.leveled_arrange hfresh hsame _ _ _ _ _)
  · intro widget size
    rw [buildAll, buildAll]
    exact .pure rfl
  · intro widget size k rest haccept ihrest ihk
    have haccept' : (setting.along b).watched.acceptsUnder widget k = true := haccept
    rw [buildAll, buildAll, if_pos haccept, if_pos haccept']
    have hfirst : Run.Twin (Session.Alike alike) SameLevels
        (List.singleton <$> (setting.along a).watched.build start source k none (some size))
        (List.singleton <$> (setting.along b).watched.build start' source k none (some size)) :=
      ihk.map fun n m hn => congrArg List.singleton hn
    exact hfirst.bind fun first first' hsame => ihrest.bind fun others others' hothers =>
      .pure (hsame.append hothers)
  · intro widget size k rest hreject ihrest
    have hreject' : ¬(setting.along b).watched.acceptsUnder widget k = true := hreject
    rw [buildAll, buildAll, if_neg hreject, if_neg hreject']
    have hfirst : Run.Twin (Session.Alike alike) SameLevels
        (pure [] : Run (Watched ω) (List Node)) (pure []) := .pure rfl
    exact hfirst.bind fun first first' hsame => ihrest.bind fun others others' hothers =>
      .pure (hsame.append hothers)

theorem compileWith_twin (h : setting.Overlooks alike paths)
    (hregistry : setting.registry.OnlyBuiltIn) {start start' : Starting (Watched ω)}
    (hstart : ∀ e override, Run.Twin (Session.Alike alike) SameLevel (start e override)
      (start' e override))
    {path : Path} (hpath : setting.MayRead paths path) :
    Run.Twin (Session.Alike alike) Eq ((setting.along a).watched.compileWith start path)
      ((setting.along b).watched.compileWith start' path) := by
  rw [compileWith_eq, compileWith_eq]
  refine (look_twin h hpath).bind fun look _ hlook => ?_
  subst hlook
  cases look with
  | inl answer => exact .pure rfl
  | inr e =>
    refine (build_twin h hregistry hstart path e _ none).bind fun root root' hroot => ?_
    exact (finish_twin h hpath hroot).bind fun _ _ hhandle => .pure (congrArg some hhandle)

/-- Nodes start in step when the visits of skins are in step. -/
theorem watchStart_twin {stack : List Path}
    {visit visit' : (file : setting.skins.File) → isOn stack file.1 = false →
      Run (Watched ω) (Option PrefabRef)}
    (hvisit : ∀ file h, Run.Twin (Session.Alike alike) Eq (visit file h) (visit' file h))
    (e : Element) (override : Option String) :
    Run.Twin (Session.Alike alike) SameLevel
      ((setting.along a).watchStart stack visit e override)
      ((setting.along b).watchStart stack visit' e override) := by
  refine Run.Twin.noting ?_ (fun _ _ _ => rfl) fun _ _ _ => rfl
  rw [startNode_eq, startNode_eq, show (setting.along b).watched.lookup? e override =
    (setting.along a).watched.lookup? e override from rfl]
  cases (setting.along a).watched.lookup? e override with
  | none => exact .pure rfl
  | some file =>
    dsimp only
    unfold instantiate
    split
    · next hoff => exact (hvisit file hoff).bind fun _ _ _ => copyKnown_twin file.1 e.nodeName
    · exact .pure rfl

theorem watchFile_twin (h : setting.Overlooks alike paths)
    (hregistry : setting.registry.OnlyBuiltIn) (stack : List Path) (path : Path)
    (hpath : setting.MayRead paths path) :
    Run.Twin (Session.Alike alike) Eq ((setting.along a).watchFile stack path)
      ((setting.along b).watchFile stack path) := by
  -- By induction on the files that are being compiled.
  induction stack, path using compileFile.induct (setting.along a) with
  | case1 stack path ih =>
    have hstart : ∀ e override, Run.Twin (Session.Alike alike) SameLevel
        ((setting.along a).watchStart (path :: stack)
          (fun file _ => (setting.along a).watchFile (path :: stack) file.1) e override)
        ((setting.along b).watchStart (path :: stack)
          (fun file _ => (setting.along b).watchFile (path :: stack) file.1) e override) :=
      watchStart_twin fun file hoff => ih file hoff (.inr file.2)
    rw [watchFile, watchFile]
    refine Run.Twin.noting ?_ (fun _ _ _ => rfl) fun _ _ _ => rfl
    have hbegan : Run.Twin (Session.Alike alike) Eq
        (modify fun s => s.note (.began stack path s.forget) : Run (Watched ω) PUnit)
        (modify fun s => s.note (.began stack path s.forget)) :=
      fun s s' hs => ⟨hs.note rfl rfl, .ok rfl⟩
    exact hbegan.bind fun _ _ _ => compileWith_twin h hregistry hstart hpath

theorem watchAll_twin (h : setting.Overlooks alike paths)
    (hregistry : setting.registry.OnlyBuiltIn) {files : List Path} (hfiles : files ⊆ paths) :
    Run.Twin (Session.Alike alike) Eq ((setting.along a).watchAll files)
      ((setting.along b).watchAll files) := by
  induction files with
  | nil => exact .pure rfl
  | cons path rest ih =>
    rw [watchAll, watchAll]
    have hpath : setting.MayRead paths path.normalize :=
      .inl (List.mem_map_of_mem (hfiles List.mem_cons_self))
    refine (watchFile_twin h hregistry [] path.normalize hpath).bind fun _ _ _ => ?_
    exact ih fun q hq => hfiles (List.mem_cons_of_mem _ hq)

/-- Runs from outsides that are alike end alike, with the same result and report, and have brought
prefabs to the store that differ in heights only. -/
theorem run_twin (h : setting.Overlooks alike paths) (hregistry : setting.registry.OnlyBuiltIn)
    (a b : YAxis) {world world' : ω} (hworld : alike world world') :
    ((setting.along a).run paths world).1 = ((setting.along b).run paths world').1 ∧
      alike ((setting.along a).run paths world).2 ((setting.along b).run paths world').2 ∧
        ((setting.along a).runJournal world paths).levels =
          ((setting.along b).runJournal world' paths).levels := by
  have hnew : Session.Alike alike ({ world := { world } } : Session (Watched ω))
      { world := { world := world' } } :=
    ⟨hworld, fun _ => .unknown, rfl, rfl⟩
  obtain ⟨halike, hsame⟩ :=
    watchAll_twin (a := a) (b := b) h hregistry (List.Subset.refl paths) _ _ hnew
  have hreport : ((setting.along a).watchRun world paths).report =
      ((setting.along b).watchRun world' paths).report := halike.report
  rw [run_eq_watched, run_eq_watched, hreport]
  refine ⟨?_, halike.world, halike.levels⟩
  generalize (((setting.along a).watchAll paths).run { world := { world } }).1 = result at hsame ⊢
  generalize (((setting.along b).watchAll paths).run { world := { world := world' } }).1 = result'
    at hsame ⊢
  cases hsame with
  | ok => rfl
  | error failure => rfl

end

end Setting

end MarkupScene
