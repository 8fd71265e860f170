import MarkupScene.Compile.Build

/-!
# Compiling files

A file is compiled once. Building its root may need skins from other files, which are compiled on
the way; a skin that is itself being compiled is not waited for, and the node that asked for it
stays plain. Only skin files are entered on the way, and none that is on the stack of files being
compiled, so the skin files off the stack become fewer from one file to the next.
-/
namespace MarkupScene.Setting

variable {ω : Type}

/-- Whether a file is being compiled. -/
def isOn (stack : List Path) (path : Path) : Bool := stack.any (·.same path)

/-- The number of skin files that are not being compiled. -/
def waiting (setting : Setting ω) (stack : List Path) : Nat :=
  setting.skins.paths.countP fun p => !isOn stack p

/-- A weaker test counts more when it alone holds somewhere. -/
theorem countP_lt_countP {p q : Path → Bool} (himp : ∀ x, p x = true → q x = true) {a : Path}
    {l : List Path} (ha : a ∈ l) (hp : p a = false) (hq : q a = true) :
    l.countP p < l.countP q := by
  induction l with
  | nil => simp at ha
  | cons x xs ih =>
    simp only [List.countP_cons]
    rcases List.mem_cons.1 ha with rfl | ha
    · have := List.countP_mono_left (l := xs) fun x _ => himp x
      simp only [hp, hq, Bool.false_eq_true, if_false, if_true]
      omega
    · have := ih ha
      have hle : (if p x = true then 1 else 0 : Nat) ≤ if q x = true then 1 else 0 := by
        by_cases h : p x = true
        · simp [h, himp x h]
        · simp [h]
      omega

theorem waiting_cons_lt (setting : Setting ω) {stack : List Path} {p : Path}
    (hp : p ∈ setting.skins.paths) (hstack : isOn stack p = false) :
    setting.waiting (p :: stack) < setting.waiting stack := by
  refine countP_lt_countP (fun q hq => ?_) hp ?_ ?_
  · simp only [isOn, List.any_cons, Bool.not_or, Bool.and_eq_true] at hq
    exact hq.2
  · simp [isOn, Path.same]
  · simp [hstack]

/-- The widget of the root of a file, from the key under which the file is a skin. -/
def rootWidget? (setting : Setting ω) (path : Path) : Option String :=
  ((setting.skins.keyOf? path).map Skin.widgetOf).filter fun w => !w.isEmpty

/-- The copy of a compiled skin, or a plain node when there is none. -/
def copyOf (skin : Option CachedSkin) (name : String) : Node :=
  match skin with
  | some skin => { skin.root with name, skin := some skin.handle }
  | none => { name }

/-- The prefab of a built root. -/
def prefabOf (setting : Setting ω) (path : Path) (root : Node) : Prefab :=
  let location := PrefabLocation.ofSource setting.options path
  { source := path, outputPath := location.path, url := location.url, root }

/-- Stores the prefab of a root and keeps it. -/
def finish (setting : Setting ω) (path : Path) (root : Node) : Run ω PrefabRef := do
  let handle ← Run.persist setting.store (setting.prefabOf path root)
  modify fun s => s.keep path handle root
  return handle

/-- A copy of a skin while the files on a stack are being compiled: `visit` makes the skin known
first. A skin on the stack is not waited for. -/
def instantiate (setting : Setting ω) (stack : List Path)
    (visit : (file : setting.skins.File) → isOn stack file.1 = false → Run ω (Option PrefabRef)) :
    setting.Instantiate := fun file name =>
  if h : isOn stack file.1 = false then do
    let _ ← visit file h
    return copyOf ((← get).cache.skin? file.1) name
  else pure { name }

/-- Compiles the file of a normal path, unless it is known already, with nodes that start as given.
The answer is none when the file cannot be read. -/
def compileWith (setting : Setting ω) (start : Starting ω) (path : Path) :
    Run ω (Option PrefabRef) := do
  let s ← get
  match s.cache.get? path with
  | some .failed => return none
  | some (.compiled skin) => return some skin.handle
  | none =>
    match setting.sources.document path s.world with
    | .error failure =>
      set (s.skip path failure.message)
      return none
    | .ok e =>
      let root ← setting.build start path e (setting.rootWidget? path) none
      return some (← setting.finish path root)

/-- Compiles the file of a normal path below the files on the stack. -/
def compileFile (setting : Setting ω) (stack : List Path) (path : Path) :
    Run ω (Option PrefabRef) :=
  setting.compileWith
    (setting.startNode <| setting.instantiate (path :: stack) fun file _ =>
      compileFile setting (path :: stack) file.1) path
termination_by setting.waiting (path :: stack)
decreasing_by exact waiting_cons_lt setting file.2 ‹_›

/-- Compiles one file. -/
def compile (setting : Setting ω) (path : Path) : Run ω (Option PrefabRef) :=
  compileFile setting [] path.normalize

/-- Compiles files one after another. Files that cannot be read are skipped; a failing store
ends the run. -/
def compileAll (setting : Setting ω) : List Path → Run ω Unit
  | [] => pure ()
  | path :: rest => do
    let _ ← compile setting path
    compileAll setting rest

/-- The report of a run over files, with the outside as the run leaves it. -/
def run (setting : Setting ω) (files : List Path) (world : ω) : Except Failure Report × ω :=
  let (result, s) := (setting.compileAll files).run { world }
  (result.map fun _ => s.report, s.world)

end MarkupScene.Setting
