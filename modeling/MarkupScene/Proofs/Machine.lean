import MarkupScene.Proofs.Steps

/-!
# The machine of compile calls

Compiling one call at a time. The machine has a task, the frames of the calls that wait for it, the
stack of the files that are being compiled, and the session. A file is pushed onto the stack when
the building of its root begins and popped when the root is built or given up. The main statement is
that from every compile call the machine comes to the answer of that call, with the frames and the
stack of the call and the session that compiling leaves.
-/
namespace MarkupScene

variable {ω : Type}

/-- A node to be built: its element in its file, and the size of its parent. -/
structure Site where
  source : Path
  element : Element
  override : Option String
  parent : Option Size

namespace Machine

inductive Task where
  | compile (path : Path)
  | compiled (result : Except Failure (Option PrefabRef))
  | build (site : Site)
  | begun (site : Site) (fresh : Node)
  | children (site : Site) (placed : Node) (made : List Node) (rest : List Element)
  | built (result : Except Failure Node)

/-- What a call waits for: the root of a file, the skin that a node starts from, or a child. -/
inductive Frame where
  | root (path : Path)
  | skin (site : Site) (file : Path)
  | child (site : Site) (placed : Node) (made : List Node) (rest : List Element)

end Machine

structure Machine (ω : Type) where
  task : Machine.Task
  frames : List Machine.Frame := []
  stack : List Path := []
  session : Session ω

namespace Site

def widget (site : Site) : Option String := widgetFor site.element site.override

def placed (setting : Setting ω) (site : Site) (fresh : Node) : Node :=
  fresh.arrange setting.options.yAxis (.ofElement site.element) site.parent

def child (site : Site) (placed : Node) (e : Element) : Site where
  source := site.source
  element := e
  override := none
  parent := some placed.size

def importing (setting : Setting ω) (site : Site) (placed : Node) (kids : List Node) : Run ω Node :=
  setting.importNode site.source site.element site.override site.widget
    { placed with widget := site.widget, children := placed.children ++ kids }

end Site

namespace Setting

/-- What the machine does next. It halts with the answer of the outermost call. -/
def next (setting : Setting ω) (m : Machine ω) : Option (Machine ω) :=
  match m.task, m.frames with
  | .compile path, frames =>
    match m.session.cache.answer? path, setting.sources.document path m.session.world with
    | some r, _ => some { m with task := .compiled (.ok r) }
    | none, .error failure =>
      some { m with task := .compiled (.ok none), session := m.session.skip path failure.message }
    | none, .ok e =>
      some { m with
        task := .build ⟨path, e, setting.rootWidget? path, none⟩
        frames := .root path :: frames
        stack := path :: m.stack }
  | .build site, frames =>
    match setting.lookup? site.element site.override with
    | none => some { m with task := .begun site { name := site.element.nodeName } }
    | some file =>
      if isOn m.stack file.1 then
        some { m with task := .begun site { name := site.element.nodeName } }
      else some { m with task := .compile file.1, frames := .skin site file.1 :: frames }
  | .begun site fresh, _ =>
    some { m with task := .children site (site.placed setting fresh) [] site.element.candidates }
  | .children site placed made [], _ =>
    let (result, session) := (site.importing setting placed made).run m.session
    some { m with task := .built result, session }
  | .children site placed made (c :: rest), frames =>
    if setting.acceptsUnder site.widget c then
      some { m with
        task := .build (site.child placed c), frames := .child site placed made rest :: frames }
    else some { m with task := .children site placed made rest }
  | .compiled (.ok _), .skin site file :: frames =>
    let fresh := copyOf (m.session.cache.skin? file) site.element.nodeName
    some { m with task := .begun site fresh, frames }
  | .compiled (.error failure), .skin _ _ :: frames =>
    some { m with task := .built (.error failure), frames }
  | .built (.ok n), .child site placed made rest :: frames =>
    some { m with task := .children site placed (made ++ [n]) rest, frames }
  | .built (.error failure), .child _ _ _ _ :: frames =>
    some { m with task := .built (.error failure), frames }
  | .built (.ok root), .root path :: frames =>
    let (result, session) := (some <$> setting.finish path root).run m.session
    some { task := .compiled result, frames, stack := m.stack.tail, session }
  | .built (.error failure), .root _ :: frames =>
    some { m with task := .compiled (.error failure), frames, stack := m.stack.tail }
  | _, _ => none

/-- The machine takes a step. -/
abbrev Advances (setting : Setting ω) (m m' : Machine ω) : Prop := setting.next m = some m'

/-- The machine takes any number of steps. -/
abbrev Reached (setting : Setting ω) : Machine ω → Machine ω → Prop :=
  Relation.ReflTransGen setting.Advances

/-- The machine does what a step of a run does: from a task it comes to the task that the result
leaves, under whatever frames. -/
def Does (setting : Setting ω) (stack : List Path) {α : Type} (m : Run ω α)
    (enter : Machine.Task) (leave : Except Failure α → Machine.Task) : Prop :=
  ∀ frames s, setting.Reached ⟨enter, frames, stack, s⟩
    ⟨leave (m.run s).1, frames, stack, (m.run s).2⟩

namespace Does
variable {setting : Setting ω} {stack : List Path} {α β : Type} {m : Run ω α}
  {enter enter' : Machine.Task} {leave leave' : Except Failure α → Machine.Task}

theorem pure {a : α} (h : leave (.ok a) = enter) :
    Does setting stack (Pure.pure a) enter leave := by
  intro frames s
  change setting.Reached _ ⟨leave (.ok a), frames, stack, s⟩
  rw [h]

theorem step (h : ∀ frames s, setting.Advances ⟨enter, frames, stack, s⟩
    ⟨leave (m.run s).1, frames, stack, (m.run s).2⟩) : Does setting stack m enter leave :=
  fun frames s => .single (h frames s)

theorem head (h : ∀ frames s, setting.Advances ⟨enter, frames, stack, s⟩
    ⟨enter', frames, stack, s⟩) (hm : Does setting stack m enter' leave) :
    Does setting stack m enter leave :=
  fun frames s => .head (h frames s) (hm frames s)

theorem within {frame : Machine.Frame}
    (hcall : ∀ frames s, setting.Advances ⟨enter', frames, stack, s⟩
      ⟨enter, frame :: frames, stack, s⟩)
    (hm : Does setting stack m enter leave)
    (hreturn : ∀ result frames s, setting.Advances ⟨leave result, frame :: frames, stack, s⟩
      ⟨leave' result, frames, stack, s⟩) : Does setting stack m enter' leave' :=
  fun frames s => .head (hcall frames s) ((hm (frame :: frames) s).tail (hreturn _ frames _))

theorem bind {f : α → Run ω β} {last : Except Failure β → Machine.Task}
    (hm : Does setting stack m enter leave)
    (hf : ∀ a, Does setting stack (f a) (leave (.ok a)) last)
    (hfail : ∀ failure, leave (.error failure) = last (.error failure)) :
    Does setting stack (m >>= f) enter last := by
  intro frames s
  have hfirst := hm frames s
  rw [Run.run_bind]
  generalize m.run s = done at hfirst ⊢
  rcases done with ⟨failure | a, t⟩
  · rw [hfail] at hfirst
    exact hfirst
  · exact hfirst.trans (hf a frames t)

end Does

def afterStart (site : Site) : Except Failure Node → Machine.Task
  | .ok fresh => .begun site fresh
  | .error failure => .built (.error failure)

def afterChildren (site : Site) (placed : Node) (made : List Node) :
    Except Failure (List Node) → Machine.Task
  | .ok kids => .children site placed (made ++ kids) []
  | .error failure => .built (.error failure)

def afterChild (site : Site) (placed : Node) (made : List Node) (rest : List Element) :
    Except Failure Node → Machine.Task
  | .ok n => .children site placed (made ++ [n]) rest
  | .error failure => .built (.error failure)

section
variable {setting : Setting ω} {stack : List Path}
  {visit : (file : setting.skins.File) → isOn stack file.1 = false → Run ω (Option PrefabRef)}

theorem startNode_does
    (hvisit : ∀ file h, setting.Does stack (visit file h) (.compile file.1) .compiled)
    (site : Site) :
    setting.Does stack
      (setting.startNode (setting.instantiate stack visit) site.element site.override)
      (.build site) (afterStart site) := by
  rw [startNode_eq]
  cases hlookup : setting.lookup? site.element site.override with
  | none =>
    apply Does.step
    intro frames s
    simp only [Advances, next, hlookup]
    rfl
  | some file =>
    dsimp only
    unfold instantiate
    by_cases hon : isOn stack file.1 = false
    · intro frames s
      have hcall : setting.Advances ⟨.build site, frames, stack, s⟩
          ⟨.compile file.1, .skin site file.1 :: frames, stack, s⟩ := by
        simp [Advances, next, hlookup, hon]
      have hanswer := hvisit file hon (.skin site file.1 :: frames) s
      rw [dif_pos hon, Run.run_bind]
      generalize (visit file hon).run s = done at hanswer ⊢
      rcases done with ⟨failure | r, t⟩
      · exact .head hcall (hanswer.tail rfl)
      · exact .head hcall (hanswer.tail rfl)
    · rw [dif_neg hon]
      apply Does.step
      intro frames s
      have hon' : isOn stack file.1 = true := by simpa using hon
      simp only [Advances, next, hlookup, hon', if_true]
      rfl

/-- The machine builds a node as building does, when it compiles skins as `visit` does. -/
theorem build_does
    (hvisit : ∀ file h, setting.Does stack (visit file h) (.compile file.1) .compiled)
    (site : Site) :
    setting.Does stack
      (setting.build (setting.startNode (setting.instantiate stack visit)) site.source
        site.element site.override site.parent)
      (.build site) .built := by
  obtain ⟨source, e, override, parent⟩ := site
  let begin := setting.startNode (setting.instantiate stack visit)
  -- The machine keeps the children made so far in its task, building only returns them.
  refine Setting.build.induct setting begin source
    (fun e override parent => setting.Does stack
      (setting.build begin source e override parent) (.build ⟨source, e, override, parent⟩) .built)
    (fun under size es => ∀ (site : Site) (placed : Node) (made : List Node),
      site.source = source → site.widget = under → placed.size = size →
      setting.Does stack (setting.buildAll begin source under size es)
        (.children site placed made es) (afterChildren site placed made))
    ?_ ?_ ?_ ?_ e override parent
  · intro e override parent ih
    let site : Site := ⟨source, e, override, parent⟩
    rw [Setting.build]
    refine (startNode_does hvisit site).bind (fun fresh => ?_) fun _ => rfl
    let placed := site.placed setting fresh
    have hkids := ih fresh site placed [] rfl rfl rfl
    have himport : ∀ kids, setting.Does stack (site.importing setting placed kids)
        (.children site placed kids []) .built := fun kids => .step fun _ _ => rfl
    exact .head (fun _ _ => rfl) (hkids.bind himport fun _ => rfl)
  · intro under size site placed made _ _ _
    rw [buildAll]
    apply Does.pure
    rw [afterChildren, List.append_nil]
  · rintro under size k rest haccept ihrest ihk site placed made rfl rfl rfl
    have hcall : ∀ frames s, setting.Advances
        ⟨.children site placed made (k :: rest), frames, stack, s⟩
        ⟨.build (site.child placed k), .child site placed made rest :: frames, stack, s⟩ := by
      intro frames s
      simp only [Advances, next, haccept, if_true]
    have hreturn : ∀ result frames s, setting.Advances
        ⟨.built result, .child site placed made rest :: frames, stack, s⟩
        ⟨afterChild site placed made rest result, frames, stack, s⟩ := by
      intro result frames s
      cases result with
      | error failure => rfl
      | ok n => rfl
    have hk := Does.within hcall ihk hreturn
    rw [buildAll]
    simp only [haccept, if_true, bind_map_left]
    refine hk.bind (fun n => ?_) fun _ => rfl
    have hrest := ihrest site placed (made ++ [n]) rfl rfl rfl
    refine hrest.bind (fun kids => .pure ?_) fun _ => rfl
    rw [afterChildren, afterChildren, List.append_assoc]
    rfl
  · rintro under size k rest hreject ihrest site placed made rfl rfl rfl
    have hskip : ∀ frames s, setting.Advances
        ⟨.children site placed made (k :: rest), frames, stack, s⟩
        ⟨.children site placed made rest, frames, stack, s⟩ := by
      intro frames s
      simp only [Advances, next, hreject]
      rfl
    have hrest := ihrest site placed made rfl rfl rfl
    rw [buildAll]
    simp only [hreject, Bool.false_eq_true, if_false, pure_bind, List.nil_append, bind_pure]
    exact .head hskip hrest

/-- From every compile call the machine comes to the answer of the call. -/
theorem compileFile_does (setting : Setting ω) (stack : List Path) (path : Path) :
    setting.Does stack (setting.compileFile stack path) (.compile path) .compiled := by
  induction stack, path using compileFile.induct setting with
  | case1 stack path ih =>
    intro frames s
    rw [compileFile, run_compileWith]
    cases hanswer : s.cache.answer? path with
    | some r =>
      apply Relation.ReflTransGen.single
      simp only [Advances, next, hanswer]
    | none =>
      cases hdocument : setting.sources.document path s.world with
      | error failure =>
        apply Relation.ReflTransGen.single
        simp only [Advances, next, hanswer, hdocument]
      | ok e =>
        let site : Site := ⟨path, e, setting.rootWidget? path, none⟩
        have hcall : setting.Advances ⟨.compile path, frames, stack, s⟩
            ⟨.build site, .root path :: frames, path :: stack, s⟩ := by
          simp only [Advances, next, hanswer, hdocument]
          rfl
        have hroot := build_does ih site (.root path :: frames) s
        dsimp only
        rw [Run.run_bind]
        change setting.Reached _ ⟨.built (ExceptT.run (setting.build _ path e _ none) s).1, _, _, _⟩
          at hroot
        generalize ExceptT.run (setting.build _ _ _ _ _) s = built at hroot ⊢
        rcases built with ⟨failure | n, t⟩
        · exact .head hcall (hroot.tail rfl)
        · exact .head hcall (hroot.tail rfl)

end

end Setting

end MarkupScene
