import MarkupScene.Proofs.Coupling
import MarkupScene.Proofs.Importers

/-!
# Locator calls

A traced outside lists what the locator is asked. The main statement is that tracing changes nothing:
without its list of calls a traced run is the plain run.
-/
namespace MarkupScene

variable {ω α β : Type}

/-- A call of a locator. -/
inductive LocatorCall where
  | resolve (path : String) (frame : Option String)
  | textureSize (asset : AssetRef)
  | setBorder (asset : AssetRef) (grid : Rect)
  | loadFont (asset : AssetRef)
deriving DecidableEq

/-- An outside with the calls of the locator so far. -/
structure Traced (ω : Type) where
  world : ω
  calls : List LocatorCall := []

namespace Traced

/-- An action on the outside alone. -/
def act (action : StateM ω α) : StateM (Traced ω) α := fun t =>
  let (a, world) := action t.world
  (a, { t with world })

def call (c : LocatorCall) (action : StateM ω α) : StateM (Traced ω) α := fun t =>
  let (a, world) := action t.world
  (a, { world, calls := t.calls ++ [c] })

end Traced

def Locator.traced (l : Locator ω) : Locator (Traced ω) where
  resolve path frame := Traced.call (.resolve path frame) (l.resolve path frame)
  textureSize asset := Traced.call (.textureSize asset) (l.textureSize asset)
  setBorder asset grid := Traced.call (.setBorder asset grid) (l.setBorder asset grid)
  loadFont asset := Traced.call (.loadFont asset) (l.loadFont asset)

namespace Setting

/-- The setting with the built-in importers on a traced outside. -/
def traced (setting : Setting ω) : Setting (Traced ω) where
  options := setting.options
  skins := setting.skins
  assets := setting.assets
  sources := { read := fun path t => setting.sources.read path t.world }
  locator := setting.locator.traced
  store := { persist := fun p => Traced.act (setting.store.persist p) }

/-- What the locator is asked in a run with the built-in importers, call by call. -/
def locatorCalls (setting : Setting ω) (paths : List Path) (world : ω) : List LocatorCall :=
  (setting.traced.run paths { world }).2.calls

end Setting

def Surroundings.untraced (s : Surroundings (Traced ω)) : Surroundings ω :=
  { s with world := s.world.world }

def Session.untraced (s : Session (Traced ω)) : Session ω := { s with world := s.world.world }

def Importing.Untraced (m : Importing (Traced ω) α) (plain : Importing ω α) : Prop :=
  ∀ s, ((m s).1, (m s).2.untraced) = plain s.untraced

def Run.Untraced (m : Run (Traced ω) α) (plain : Run ω α) : Prop :=
  ∀ s, ((m.run s).1, (m.run s).2.untraced) = plain.run s.untraced

theorem Importing.untraced_paired (scope : ImportScope (Traced ω)) (plain : ImportScope ω)
    (hassets : plain.assets = scope.assets) (htemplate : plain.isTemplate = scope.isTemplate)
    (hsource : plain.source = scope.source) (hlocator : scope.locator = plain.locator.traced) :
    Paired scope plain fun _ m plain => m.Untraced plain where
  assets := hassets
  isTemplate := htemplate
  pure _ _ := rfl
  bind {_ _ m plain f g} hm hf s := by
    rw [bind_apply, bind_apply, ← hm s]
    exact hf _ _
  locate _ _ _ := by rw [hlocator]; rfl
  textureSize _ _ := by rw [hlocator]; rfl
  loadFont _ _ := by rw [hlocator]; rfl
  setBorder _ _ _ := by rw [hlocator]; rfl
  report _ _ _ := by rw [ImportScope.report, ImportScope.report, hsource]; rfl

namespace Run.Untraced

theorem pure (a : α) : Untraced (Pure.pure a : Run (Traced ω) α) (Pure.pure a) := fun _ => rfl

theorem bind {m : Run (Traced ω) α} {plain : Run ω α} {f : α → Run (Traced ω) β}
    {g : α → Run ω β} (hm : Untraced m plain) (hf : ∀ a, Untraced (f a) (g a)) :
    Untraced (m >>= f) (plain >>= g) := by
  intro s
  rw [run_bind, run_bind, ← hm s]
  generalize m.run s = first
  rcases first with ⟨failure | a, t⟩
  · rfl
  · exact hf a t

end Run.Untraced

def Run.untracing : Coupling (Traced ω) ω where
  related := Untraced
  pure := .pure
  bind := .bind

namespace Setting

/-- Tracing changes nothing about what compiling is made of. -/
theorem traced_coupled {setting : Setting ω} (hregistry : setting.registry = .builtIn) :
    setting.traced.Coupled Run.untracing setting where
  options := rfl
  skins := rfl
  checks := by rw [hregistry]; rfl
  importing source e override widget n := by
    intro s
    -- Only an importer acts on the locator; everything else is the same by computation.
    cases widget with
    | none => rfl
    | some w =>
      unfold importNode
      rw [Run.run_importing, Run.run_importing, hregistry]
      have himport := (Importing.untraced_paired
        { assets := setting.traced.assets, locator := setting.traced.locator, source,
          isTemplate := override.isSome }
        { assets := setting.assets, locator := setting.locator, source,
          isTemplate := override.isSome } rfl rfl rfl rfl).importAs w e n
          ⟨s.world, s.report.diagnostics⟩
      exact congrArg (fun done : Node × Surroundings ω =>
        ((.ok done.1, { s.untraced with
          world := done.2.world
          report := { s.report with diagnostics := done.2.diagnostics } }) :
            Except Failure Node × Session ω)) himport
  looking path := by
    intro s
    unfold look
    simp only [Run.run_bind, Run.run_get]
    rw [show s.untraced.cache = s.cache from rfl,
      show setting.traced.sources.document path s.world =
        setting.sources.document path s.untraced.world from rfl]
    cases s.cache.get? path with
    | some state => cases state <;> rfl
    | none => cases setting.sources.document path s.untraced.world <;> rfl
  copying _ _ _ := rfl
  finishing path root := by
    refine Run.Untraced.bind (fun s => ?_) fun handle => ?_
    · rw [Run.run_persist, Run.run_persist]
      rfl
    · exact fun s => rfl

theorem run_traced {setting : Setting ω} (hregistry : setting.registry = .builtIn)
    (paths : List Path) (world : ω) :
    ((setting.traced.run paths { world }).1, (setting.traced.run paths { world }).2.world) =
      setting.run paths world := by
  have hall := compileAll_coupled (traced_coupled hregistry) paths { world := { world } }
  unfold run
  rw [← show _ = (setting.compileAll paths).run { world } from hall]
  rfl

end Setting

end MarkupScene
