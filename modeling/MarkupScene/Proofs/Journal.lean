import MarkupScene.Proofs.Coupling

/-!
# Journals

A run on a watched outside keeps a journal of what it did: each prefab that went to the store with
the answer, each import of a node, each node that an element started from, and each visit of a file.
A visit is noted when it begins and again when it ends, after everything that happened during it.
The main statement is that watching changes nothing: without its journal a watched run is the plain
run.
-/
namespace MarkupScene

/-- The start of a node while the files on a stack are being compiled. -/
structure Start where
  stack : List Path
  element : Element
  override : Option String
  result : Except Failure Node

/-- A visit of a file that begins while the files on a stack are being compiled. -/
structure Visit (ω : Type) where
  stack : List Path
  path : Path
  before : Session ω
  result : Except Failure (Option PrefabRef)
  after : Session ω

inductive Event (ω : Type) where
  | stored (p : Prefab) (result : Except Failure PrefabRef)
  /-- The diagnostics before and after the importer acted. -/
  | imported (before after : List Diagnostic)
  | started (x : Start)
  | began (stack : List Path) (path : Path) (before : Session ω)
  | visited (v : Visit ω)

abbrev Journal (ω : Type) := List (Event ω)

namespace Journal
variable {ω : Type}

/-- The prefabs that went to the store, with its answers. -/
def calls (j : Journal ω) : List (Prefab × Except Failure PrefabRef) :=
  j.filterMap fun
    | .stored p result => some (p, result)
    | _ => none

/-- The prefabs that the store accepted, with their handles. -/
def accepted (j : Journal ω) : List (Prefab × PrefabRef) :=
  j.filterMap fun
    | .stored p (.ok handle) => some (p, handle)
    | _ => none

theorem calls_append (j k : Journal ω) : calls (j ++ k) = j.calls ++ calls k :=
  List.filterMap_append

theorem accepted_append (j k : Journal ω) : accepted (j ++ k) = j.accepted ++ accepted k :=
  List.filterMap_append

theorem mem_accepted {j : Journal ω} {p : Prefab} {handle : PrefabRef} :
    (p, handle) ∈ j.accepted ↔ .stored p (.ok handle) ∈ j := by
  unfold accepted
  rw [List.mem_filterMap]
  constructor
  · rintro ⟨x, hx, h⟩
    cases x with
    | stored q result =>
      cases result with
      | error failure => cases h
      | ok other =>
        obtain ⟨rfl, rfl⟩ := Prod.mk.inj (Option.some.inj h)
        exact hx
    | _ => cases h
  · exact fun h => ⟨_, h, rfl⟩

end Journal

/-- An outside with the journal of what was done to it. -/
structure Watched (ω : Type) where
  world : ω
  journal : Journal ω := []

variable {ω α β : Type}

namespace Watched

/-- An action on the outside alone. -/
def act (action : StateM ω α) : StateM (Watched ω) α := fun w =>
  let (a, world) := action w.world
  (a, { w with world })

end Watched

namespace Session

def journal (s : Session (Watched ω)) : Journal ω := s.world.journal

/-- The session without the journal. -/
def forget (s : Session (Watched ω)) : Session ω := { s with world := s.world.world }

def note (s : Session (Watched ω)) (x : Event ω) : Session (Watched ω) :=
  { s with world := { s.world with journal := s.world.journal ++ [x] } }

@[simp] theorem journal_note (s : Session (Watched ω)) (x : Event ω) :
    (s.note x).journal = s.journal ++ [x] := rfl

@[simp] theorem cache_note (s : Session (Watched ω)) (x : Event ω) :
    (s.note x).cache = s.cache := rfl

end Session

def Locator.watched (l : Locator ω) : Locator (Watched ω) where
  resolve path frame := Watched.act (l.resolve path frame)
  textureSize asset := Watched.act (l.textureSize asset)
  setBorder asset grid := Watched.act (l.setBorder asset grid)
  loadFont asset := Watched.act (l.loadFont asset)

/-- The answers of the store go into the journal. -/
def Store.watched (store : Store ω) : Store (Watched ω) where
  persist p := fun w =>
    let (result, world) := store.persist p w.world
    (result, { world, journal := w.journal ++ [.stored p result] })

def Sources.watched (sources : Sources ω) : Sources (Watched ω) where
  read path w := sources.read path w.world

/-- The importer at work on the outside, with its own locator. -/
def Importer.watched (locator : Locator ω) (i : Importer ω) : Importer (Watched ω) :=
  fun scope e n s =>
    let (made, after) := i { scope with locator } e n ⟨s.world.world, s.diagnostics⟩
    (made,
      { world :=
          { world := after.world
            journal := s.world.journal ++ [.imported s.diagnostics after.diagnostics] }
        diagnostics := after.diagnostics })

def Registry.watched (locator : Locator ω) (r : Registry ω) : Registry (Watched ω) where
  importers := r.importers.map fun (widget, i) => (widget, i.watched locator)
  checks := r.checks

def Setting.watched (setting : Setting ω) : Setting (Watched ω) where
  options := setting.options
  skins := setting.skins
  assets := setting.assets
  registry := setting.registry.watched setting.locator
  sources := setting.sources.watched
  locator := setting.locator.watched
  store := setting.store.watched

/-- The step with a note of what it began with, what came of it and where it ended. -/
def Run.noting (event : Session ω → Except Failure α → Session ω → Event ω)
    (m : Run (Watched ω) α) : Run (Watched ω) α := fun s =>
  let (result, t) := m.run s
  (result, t.note (event s.forget result t.forget))

theorem Run.run_noting (event : Session ω → Except Failure α → Session ω → Event ω)
    (m : Run (Watched ω) α) (s : Session (Watched ω)) :
    (noting event m).run s =
      ((m.run s).1, (m.run s).2.note (event s.forget (m.run s).1 (m.run s).2.forget)) := rfl

namespace Setting

/-- How nodes start on a watched outside, while the files on a stack are being compiled. -/
def watchStart (setting : Setting ω) (stack : List Path)
    (visit : (file : setting.skins.File) → isOn stack file.1 = false →
      Run (Watched ω) (Option PrefabRef)) : Starting (Watched ω) := fun e override =>
  Run.noting (fun _ result _ => .started ⟨stack, e, override, result⟩) <|
    setting.watched.startNode (setting.watched.instantiate stack visit) e override

/-- Compiles the file of a normal path on a watched outside. -/
def watchFile (setting : Setting ω) (stack : List Path) (path : Path) :
    Run (Watched ω) (Option PrefabRef) :=
  Run.noting (fun before result after => .visited ⟨stack, path, before, result, after⟩) do
    modify fun s => s.note (.began stack path s.forget)
    setting.watched.compileWith
      (setting.watchStart (path :: stack) fun file _ => watchFile setting (path :: stack) file.1)
      path
termination_by setting.waiting (path :: stack)
decreasing_by exact waiting_cons_lt setting file.2 ‹_›

/-- The session after compile calls one after another, whether they fail or not. -/
def compileEach (setting : Setting ω) (paths : List Path) (s : Session ω) : Session ω :=
  paths.foldl (fun s path => ((setting.compile path).run s).2) s

/-- The same calls on a watched outside. -/
def watchEach (setting : Setting ω) (paths : List Path) (s : Session (Watched ω)) :
    Session (Watched ω) :=
  paths.foldl (fun s path => ((setting.watchFile [] path.normalize).run s).2) s

/-- The journal of compile calls from a new session. -/
def journal (setting : Setting ω) (world : ω) (paths : List Path) : Journal ω :=
  (setting.watchEach paths { world := { world } }).journal

end Setting

def Run.Mirrors (m : Run (Watched ω) α) (plain : Run ω α) : Prop :=
  ∀ s, ((m.run s).1, (m.run s).2.forget) = plain.run s.forget

namespace Run.Mirrors

theorem pure (a : α) : Mirrors (Pure.pure a : Run (Watched ω) α) (Pure.pure a) := fun _ => rfl

theorem bind {m : Run (Watched ω) α} {plain : Run ω α} {f : α → Run (Watched ω) β}
    {g : α → Run ω β} (hm : Mirrors m plain) (hf : ∀ a, Mirrors (f a) (g a)) :
    Mirrors (m >>= f) (plain >>= g) := by
  intro s
  rw [run_bind, run_bind, ← hm s]
  generalize m.run s = first
  rcases first with ⟨failure | a, t⟩
  · rfl
  · exact hf a t

theorem noting {m : Run (Watched ω) α} {plain : Run ω α} (hm : Mirrors m plain)
    (event : Session ω → Except Failure α → Session ω → Event ω) :
    Mirrors (Run.noting event m) plain := hm

end Run.Mirrors

def Run.mirroring : Coupling (Watched ω) ω where
  related := Mirrors
  pure := .pure
  bind := .bind

namespace Registry

theorem importer?_watched (locator : Locator ω) (r : Registry ω) (widget : String) :
    (r.watched locator).importer? widget = (r.importer? widget).map (·.watched locator) := by
  unfold importer? watched
  induction r.importers with
  | nil => rfl
  | cons entry rest ih =>
    obtain ⟨w, i⟩ := entry
    simp only [List.map_cons, List.lookup_cons]
    cases widget == w with
    | true => rfl
    | false => exact ih

theorem bind_importer?_watched (locator : Locator ω) (r : Registry ω) (widget : Option String) :
    widget.bind (r.watched locator).importer? =
      (widget.bind r.importer?).map (·.watched locator) := by
  cases widget with
  | none => rfl
  | some w => exact importer?_watched locator r w

end Registry

namespace Setting

theorem importNode_mirrors (setting : Setting ω) (source : Path) (e : Element)
    (override widget : Option String) (n : Node) :
    Run.Mirrors (setting.watched.importNode source e override widget n)
      (setting.importNode source e override widget n) := by
  intro s
  rw [importNode_eq, importNode_eq, show setting.watched.registry =
    setting.registry.watched setting.locator from rfl, Registry.bind_importer?_watched]
  cases widget.bind setting.registry.importer? <;> rfl

theorem Reaches.plain {setting : Setting ω} {root e : Element} {widget override : Option String}
    (h : setting.watched.Reaches root widget e override) :
    setting.Reaches root widget e override := by
  induction h with
  | root => exact .root
  | child _ hk ih => exact ih.child hk

theorem Grown.plain {setting : Setting ω} {begins : Element → Option String → Node → Prop}
    {source : Path} {e : Element} {override : Option String} {parent : Option Size} {n : Node}
    (hn : setting.watched.Grown begins source e override parent n) :
    setting.Grown begins source e override parent n := by
  induction hn with
  | @node e override parent fresh made kids s t hstart hlength _ himported ih =>
    have hplain := setting.importNode_mirrors source e override (widgetFor e override)
      (setting.assembled e override parent fresh kids) s
    rw [show ExceptT.run (setting.watched.importNode source e override (widgetFor e override)
      (setting.assembled e override parent fresh kids)) s = (.ok made, t) from himported] at hplain
    exact .node hstart hlength ih hplain.symm

theorem finish_mirrors (setting : Setting ω) (path : Path) (root : Node) :
    Run.Mirrors (setting.watched.finish path root) (setting.finish path root) := by
  refine Run.Mirrors.bind (fun s => ?_) fun handle => ?_
  · rw [Run.run_persist, Run.run_persist]
    rfl
  · exact fun s => rfl

theorem look_mirrors (setting : Setting ω) (path : Path) :
    Run.Mirrors (setting.watched.look path) (setting.look path) := by
  intro s
  unfold look
  simp only [Run.run_bind, Run.run_get]
  rw [show s.forget.cache = s.cache from rfl,
    show setting.watched.sources.document path s.world =
      setting.sources.document path s.forget.world from rfl]
  cases s.cache.get? path with
  | some state => cases state <;> rfl
  | none => cases setting.sources.document path s.forget.world <;> rfl

theorem watched_coupled (setting : Setting ω) : setting.watched.Coupled Run.mirroring setting where
  options := rfl
  skins := rfl
  checks := rfl
  importing := setting.importNode_mirrors
  looking := setting.look_mirrors
  copying _ _ _ := rfl
  finishing := setting.finish_mirrors

theorem startNode_mirrors (setting : Setting ω) {copy : setting.watched.Instantiate}
    {plain : setting.Instantiate}
    (hcopy : ∀ file name, Run.Mirrors (copy file name) (plain file name)) (e : Element)
    (override : Option String) :
    Run.Mirrors (setting.watched.startNode copy e override)
      (setting.startNode plain e override) := by
  rw [startNode_eq, startNode_eq]
  rw [show setting.watched.lookup? e override = setting.lookup? e override from rfl]
  cases setting.lookup? e override with
  | some file => exact hcopy file e.nodeName
  | none => exact .pure _

/-- Without its journal a watched visit is the plain one. -/
theorem watchFile_mirrors (setting : Setting ω) (stack : List Path) (path : Path) :
    Run.Mirrors (setting.watchFile stack path) (setting.compileFile stack path) := by
  induction stack, path using compileFile.induct setting with
  | case1 stack path ih =>
    have hcompile : Run.Mirrors
        (setting.watched.compileWith
          (setting.watchStart (path :: stack) fun file _ =>
            setting.watchFile (path :: stack) file.1) path)
        (setting.compileFile stack path) := by
      rw [compileFile]
      refine compileWith_coupled setting.watched_coupled (fun e override => ?_) path
      refine (setting.startNode_mirrors (fun file name => ?_) e override).noting _
      unfold instantiate
      split
      · next hfile => exact (ih file hfile).bind fun _ => fun s => rfl
      · exact .pure _
    rw [watchFile]
    exact Run.Mirrors.noting (fun s => hcompile (s.note (.began stack path s.forget))) _

theorem forget_watchEach (setting : Setting ω) (paths : List Path) (s : Session (Watched ω)) :
    (setting.watchEach paths s).forget = setting.compileEach paths s.forget := by
  unfold watchEach compileEach
  induction paths generalizing s with
  | nil => rfl
  | cons path rest ih =>
    rw [List.foldl_cons, List.foldl_cons, ih]
    rw [compile, ← setting.watchFile_mirrors [] path.normalize s]

theorem compileEach_of_compileAll {setting : Setting ω} {paths : List Path} {s t : Session ω}
    (h : (setting.compileAll paths).run s = (.ok (), t)) : setting.compileEach paths s = t := by
  unfold compileEach
  induction paths generalizing s with
  | nil => exact congrArg Prod.snd h
  | cons path rest ih =>
    rw [compileAll, Run.run_bind] at h
    rw [List.foldl_cons]
    generalize (setting.compile path).run s = first at h ⊢
    rcases first with ⟨failure | answer, u⟩
    · cases h
    · exact ih h

end Setting

end MarkupScene
