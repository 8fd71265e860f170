import MarkupScene.Proofs.Growth

/-!
# Coupled runs

Two runs that do the same steps can be compared step by step. A coupling relates steps of the one to
steps of the other and is kept by steps in a row. The main statement is that it relates whole runs
as soon as it relates what compiling is made of: imports of nodes, looks at files, copies of skins,
and the storing of roots.
-/
namespace MarkupScene

variable {ω ω' : Type}

/-- A relation between the steps of two runs that steps in a row keep. -/
structure Coupling (ω ω' : Type) where
  related {α : Type} : Run ω α → Run ω' α → Prop
  pure {α : Type} (a : α) : related (Pure.pure a) (Pure.pure a)
  bind {α β : Type} {m : Run ω α} {m' : Run ω' α} {f : α → Run ω β} {f' : α → Run ω' β} :
    related m m' → (∀ a, related (f a) (f' a)) → related (m >>= f) (m' >>= f')

theorem Coupling.map {α β : Type} (c : Coupling ω ω') {m : Run ω α} {m' : Run ω' α} (f : α → β)
    (h : c.related m m') : c.related (f <$> m) (f <$> m') := by
  rw [map_eq_pure_bind, map_eq_pure_bind]
  exact c.bind h fun a => c.pure (f a)

namespace Setting

/-- A look at a file: it is known or cannot be read, which answers the call, or its markup is to be
built. -/
def look (setting : Setting ω) (path : Path) : Run ω (Option PrefabRef ⊕ Element) := do
  let s ← get
  match s.cache.get? path with
  | some .failed => return .inl none
  | some (.compiled skin) => return .inl (some skin.handle)
  | none =>
    match setting.sources.document path s.world with
    | .error failure =>
      set (s.skip path failure.message)
      return .inl none
    | .ok e => return .inr e

def copyKnown (path : Path) (name : String) : Run ω Node := do
  return copyOf ((← get).cache.skin? path) name

theorem run_look (setting : Setting ω) (path : Path) (s : Session ω) :
    let done := (setting.look path).run s
    (∃ answer, done.1 = .ok answer) ∧ (done.2 = s ∨ ∃ reason, done.2 = s.skip path reason) := by
  unfold look
  dsimp only
  rw [Run.run_bind, Run.run_get]
  dsimp only
  cases s.cache.get? path with
  | some state =>
    cases state with
    | failed => exact ⟨⟨_, rfl⟩, .inl rfl⟩
    | compiled skin => exact ⟨⟨_, rfl⟩, .inl rfl⟩
  | none =>
    cases setting.sources.document path s.world with
    | error failure => exact ⟨⟨_, rfl⟩, .inr ⟨_, rfl⟩⟩
    | ok e => exact ⟨⟨_, rfl⟩, .inl rfl⟩

theorem compileWith_eq (setting : Setting ω) (begin : Starting ω) (path : Path) :
    setting.compileWith begin path = (do
      match ← setting.look path with
      | .inl answer => return answer
      | .inr e =>
        let root ← setting.build begin path e (setting.rootWidget? path) none
        return some (← setting.finish path root)) := by
  funext s
  change (setting.compileWith begin path).run s = (setting.look path >>= _).run s
  unfold compileWith look
  simp only [Run.run_bind, Run.run_get]
  cases s.cache.get? path with
  | some state => cases state <;> rfl
  | none => cases setting.sources.document path s.world <;> rfl

/-- Settings that make the same of elements: they have the same options and skins, and their
widgets accept the same children. -/
structure Matches (setting : Setting ω) (setting' : Setting ω') : Prop where
  options : setting'.options = setting.options
  skins : setting'.skins = setting.skins
  checks : setting'.registry.checks = setting.registry.checks

/-- Settings in which a coupling relates what compiling is made of. -/
structure Coupled (setting : Setting ω) (c : Coupling ω ω') (setting' : Setting ω') : Prop
    extends Matches setting setting' where
  importing (source : Path) (e : Element) (override widget : Option String) (n : Node) :
    c.related (setting.importNode source e override widget n)
      (setting'.importNode source e override widget n)
  looking (path : Path) : c.related (setting.look path) (setting'.look path)
  copying (path : Path) (name : String) : c.related (copyKnown path name) (copyKnown path name)
  finishing (path : Path) (root : Node) :
    c.related (setting.finish path root) (setting'.finish path root)

section
variable {setting : Setting ω} {setting' : Setting ω'} {c : Coupling ω ω'}

theorem build_coupled {begin : Starting ω} {begin' : Starting ω'}
    (hmatches : Matches setting setting')
    (himport : ∀ source e override widget n,
      c.related (setting.importNode source e override widget n)
        (setting'.importNode source e override widget n))
    (hstart : ∀ e override, c.related (begin e override) (begin' e override))
    (source : Path) (e : Element) (override : Option String) (parent : Option Size) :
    c.related (setting.build begin source e override parent)
      (setting'.build begin' source e override parent) := by
  have haccepts : ∀ under k, setting'.acceptsUnder under k = setting.acceptsUnder under k := by
    intro under k
    unfold acceptsUnder Registry.accepts
    rw [hmatches.checks]
  refine build.induct setting begin source
    (fun e override parent => c.related (setting.build begin source e override parent)
      (setting'.build begin' source e override parent))
    (fun widget size es => c.related (setting.buildAll begin source widget size es)
      (setting'.buildAll begin' source widget size es))
    ?_ ?_ ?_ ?_ e override parent
  · intro e override parent ih
    rw [build, build, hmatches.options]
    refine c.bind (hstart e override) fun fresh => ?_
    exact c.bind (ih fresh) fun kids => himport source e override _ _
  · intro widget size
    rw [buildAll, buildAll]
    exact c.pure []
  · intro widget size k rest haccept ihrest ihk
    rw [buildAll, buildAll]
    simp only [haccepts, haccept, if_true]
    exact c.bind (c.map _ ihk) fun first => c.bind ihrest fun others => c.pure _
  · intro widget size k rest hreject ihrest
    rw [buildAll, buildAll]
    simp only [haccepts, hreject]
    exact c.bind (c.pure []) fun first => c.bind ihrest fun others => c.pure _

/-- Compiling a file is related when looking at this file and storing its root are. -/
theorem compileWith_coupled_of {begin : Starting ω} {begin' : Starting ω'} {path : Path}
    (hmatches : Matches setting setting')
    (himport : ∀ source e override widget n,
      c.related (setting.importNode source e override widget n)
        (setting'.importNode source e override widget n))
    (hlook : c.related (setting.look path) (setting'.look path))
    (hfinish : ∀ root, c.related (setting.finish path root) (setting'.finish path root))
    (hstart : ∀ e override, c.related (begin e override) (begin' e override)) :
    c.related (setting.compileWith begin path) (setting'.compileWith begin' path) := by
  have hwidget : setting'.rootWidget? path = setting.rootWidget? path := by
    unfold rootWidget?
    rw [hmatches.skins]
  rw [compileWith_eq, compileWith_eq, hwidget]
  refine c.bind hlook fun look => ?_
  cases look with
  | inl answer => exact c.pure answer
  | inr e =>
    refine c.bind (build_coupled hmatches himport hstart path e _ none) fun root => ?_
    exact c.bind (hfinish root) fun handle => c.pure _

theorem compileWith_coupled (h : setting.Coupled c setting') {begin : Starting ω}
    {begin' : Starting ω'} (hstart : ∀ e override, c.related (begin e override) (begin' e override))
    (path : Path) :
    c.related (setting.compileWith begin path) (setting'.compileWith begin' path) :=
  compileWith_coupled_of h.toMatches h.importing (h.looking path) (h.finishing path) hstart

theorem compileFile_coupled (h : setting.Coupled c setting') (stack : List Path) (path : Path) :
    c.related (setting.compileFile stack path) (setting'.compileFile stack path) := by
  obtain ⟨options', skins', assets', registry', sources', locator', store'⟩ := setting'
  obtain rfl : skins' = setting.skins := h.skins
  induction stack, path using compileFile.induct setting with
  | case1 stack path ih =>
    rw [compileFile, compileFile]
    refine compileWith_coupled h (fun e override => ?_) path
    rw [startNode_eq, startNode_eq]
    rw [show lookup? ⟨options', setting.skins, assets', registry', sources', locator', store'⟩ e
      override = setting.lookup? e override from rfl]
    cases setting.lookup? e override with
    | none => exact c.pure _
    | some file =>
      dsimp only
      unfold instantiate
      split
      · next hoff => exact c.bind (ih file hoff) fun _ => h.copying file.1 e.nodeName
      · exact c.pure _

theorem compileAll_coupled (h : setting.Coupled c setting') (paths : List Path) :
    c.related (setting.compileAll paths) (setting'.compileAll paths) := by
  induction paths with
  | nil => exact c.pure ()
  | cons path rest ih =>
    rw [compileAll, compileAll]
    exact c.bind (compileFile_coupled h [] path.normalize) fun _ => ih

end

end Setting

end MarkupScene
