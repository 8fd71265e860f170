import MarkupScene.Proofs.Journal
import Mathlib.Logic.Relation

/-!
# Steps

What a watched run can do, one step at a time. A step says everything that is known when it is
taken: which files are being compiled, what the cache and the journal hold, and what the outside
answered. While the files on a stack are being compiled, steps change nothing that is known about
these files. The main statement is that a run consists of steps, so that a property that each step
keeps holds after every run.
-/
namespace MarkupScene

variable {ω : Type}

namespace SkinCache

/-- What a visit of a file answers when the file is known. -/
def answer? (c : SkinCache) (path : Path) : Option (Option PrefabRef) :=
  (c.get? path).map fun
    | .failed => none
    | .compiled skin => some skin.handle

theorem get?_congr (c : SkinCache) {p q : Path} (h : p.components = q.components) :
    c.get? p = c.get? q := by
  unfold get?
  rw [h]

theorem get?_put_self (c : SkinCache) (path : Path) (state : SourceState) :
    (c.put path state).get? path = some state := by
  rw [get?_put, if_pos rfl]

theorem get?_put_of_known {c : SkinCache} {path p : Path} {new state : SourceState}
    (hnew : c.get? path = none) (hp : c.get? p = some state) :
    (c.put path new).get? p = some state := by
  rw [get?_put]
  split
  · next h =>
    rw [c.get?_congr h, hnew] at hp
    cases hp
  · exact hp

end SkinCache

namespace Session

/-- The session after an importer acted. -/
def surround (s : Session (Watched ω)) (after : Surroundings ω) : Session (Watched ω) :=
  { s with
    world :=
      { world := after.world
        journal := s.journal ++ [.imported s.report.diagnostics after.diagnostics] }
    report := { s.report with diagnostics := after.diagnostics } }

def answered (s : Session (Watched ω)) (p : Prefab) (result : Except Failure PrefabRef)
    (world : ω) : Session (Watched ω) :=
  { s with world := { world, journal := s.journal ++ [.stored p result] } }

@[simp] theorem journal_surround (s : Session (Watched ω)) (after : Surroundings ω) :
    (s.surround after).journal =
      s.journal ++ [.imported s.report.diagnostics after.diagnostics] := rfl

@[simp] theorem cache_answered (s : Session (Watched ω)) (p : Prefab)
    (result : Except Failure PrefabRef) (world : ω) : (s.answered p result world).cache = s.cache :=
  rfl

@[simp] theorem journal_answered (s : Session (Watched ω)) (p : Prefab)
    (result : Except Failure PrefabRef) (world : ω) :
    (s.answered p result world).journal = s.journal ++ [.stored p result] := rfl

@[simp] theorem cache_skip (s : Session ω) (path : Path) (reason : String) :
    (s.skip path reason).cache = s.cache.put path .failed := rfl

@[simp] theorem journal_skip (s : Session (Watched ω)) (path : Path) (reason : String) :
    (s.skip path reason).journal = s.journal := rfl

@[simp] theorem cache_keep (s : Session ω) (path : Path) (handle : PrefabRef) (root : Node) :
    (s.keep path handle root).cache = s.cache.put path (.compiled ⟨handle, root⟩) := rfl

@[simp] theorem journal_keep (s : Session (Watched ω)) (path : Path) (handle : PrefabRef)
    (root : Node) : (s.keep path handle root).journal = s.journal := rfl

end Session

namespace Setting

theorem isOn_cons (stack : List Path) (path p : Path) :
    isOn (path :: stack) p = (path.same p || isOn stack p) := rfl

theorem isOn_of_suffix {stack below : List Path} (h : stack <:+ below) {p : Path}
    (hp : isOn stack p = true) : isOn below p = true := by
  obtain ⟨q, hq, hsame⟩ := List.any_eq_true.1 hp
  exact List.any_eq_true.2 ⟨q, h.subset hq, hsame⟩

theorem components_ne {stack below : List Path} (h : stack <:+ below) {path p : Path}
    (hpath : isOn below path = false) (hp : isOn stack p = true) :
    p.components ≠ path.components := by
  intro heq
  obtain ⟨q, hq, hsame⟩ := List.any_eq_true.1 (isOn_of_suffix h hp)
  have hon : isOn below path = true := List.any_eq_true.2 ⟨q, hq, by
    rw [Path.same, decide_eq_true_iff] at hsame ⊢
    exact hsame.trans heq⟩
  rw [hpath] at hon
  cases hon

/-- Building the root of one file may look up the other as a skin. -/
def Refers (setting : Setting ω) (world : ω) (p q : Path) : Prop :=
  ∃ root e override file, setting.sources.document p world = .ok root ∧
    setting.Reaches root (setting.rootWidget? p) e override ∧
    setting.lookup? e override = some file ∧ file.1 = q

/-- A visit comes from outside, or from the file that is compiled on top of the stack. -/
inductive Called (setting : Setting ω) (j : Journal ω) : List Path → Path → Prop where
  | outside {path} : Called setting j [] path
  | skin {below caller before path} : .began below caller before ∈ j →
      setting.Refers before.world caller path → Called setting j (caller :: below) path

/-- How the start of a node can end in a session. -/
inductive Starts (setting : Setting ω) (s : Session (Watched ω)) (stack : List Path)
    (e : Element) (override : Option String) : Except Failure Node → Prop where
  | plain : setting.lookup? e override = none →
      Starts setting s stack e override (.ok { name := e.nodeName })
  | cyclic {file} : setting.lookup? e override = some file → isOn stack file.1 = true →
      Starts setting s stack e override (.ok { name := e.nodeName })
  | copied {file state} : setting.lookup? e override = some file → isOn stack file.1 = false →
      s.cache.get? file.1 = some state →
      Starts setting s stack e override (.ok (copyOf (s.cache.skin? file.1) e.nodeName))
  | stopped {file failure p} : setting.lookup? e override = some file →
      isOn stack file.1 = false → .stored p (.error failure) ∈ s.journal →
      Starts setting s stack e override (.error failure)

/-- The nodes that the elements below a stack started as. -/
def Begins (j : Journal ω) (stack : List Path) (e : Element) (override : Option String)
    (n : Node) : Prop :=
  .started ⟨stack, e, override, .ok n⟩ ∈ j

/-- A file whose root is built and not yet stored. -/
structure Ready (setting : Setting ω) (stack below : List Path) (path : Path) (root : Node)
    (s : Session (Watched ω)) : Prop where
  inside : stack <:+ below
  off : isOn below path = false
  normal : path.normalize = path
  unknown : s.cache.get? path = none
  built : ∃ before e, .began below path before ∈ s.journal ∧
    setting.sources.document path before.world = .ok e ∧
    setting.Grown (Begins s.journal (path :: below)) path e (setting.rootWidget? path) none root

/-- The end of a visit. Nothing happens in the visit of a file that is known. -/
structure Ends (setting : Setting ω) (stack : List Path) (v : Visit ω)
    (s : Session (Watched ω)) : Prop where
  inside : stack <:+ v.stack
  off : isOn v.stack v.path = false
  normal : v.path.normalize = v.path
  after : v.after = s.forget
  ran : (setting.compileFile v.stack v.path).run v.before = (v.result, v.after)
  whole : ∃ j₀ j₁, s.journal = j₀ ++ .began v.stack v.path v.before :: j₁ ∧
    ∀ u, .visited u ∈ j₁ → u.path ≠ v.path
  answers {r} : v.result = .ok r → s.cache.answer? v.path = some r
  fails {failure} : v.result = .error failure → ∃ p, .stored p (.error failure) ∈ s.journal
  known {r} : v.before.cache.answer? v.path = some r → v.result = .ok r ∧ v.after = v.before

/-- A step of a watched run while the files on a stack are being compiled. -/
inductive Step (setting : Setting ω) (stack : List Path) :
    Session (Watched ω) → Session (Watched ω) → Prop where
  | began {below path s} (inside : stack <:+ below) (off : isOn below path = false)
      (normal : path.normalize = path) (called : setting.Called s.journal below path) :
      Step setting stack s (s.note (.began below path s.forget))
  | skipped {below path failure s} (inside : stack <:+ below) (off : isOn below path = false)
      (normal : path.normalize = path) (began : .began below path s.forget ∈ s.journal)
      (unknown : s.cache.get? path = none)
      (unread : setting.sources.document path s.forget.world = .error failure) :
      Step setting stack s (s.skip path failure.message)
  | imported {w i scope e n made after s} (importer : setting.registry.importer? w = some i)
      (acts : i scope e n ⟨s.forget.world, s.report.diagnostics⟩ = (made, after)) :
      Step setting stack s (s.surround after)
  | started {below e override result s} (starts : setting.Starts s below e override result) :
      Step setting stack s (s.note (.started ⟨below, e, override, result⟩))
  | stored {below path root handle world s} (ready : setting.Ready stack below path root s)
      (persist : setting.store.persist (setting.prefabOf path root) s.forget.world =
        (.ok handle, world)) :
      Step setting stack s
        ((s.answered (setting.prefabOf path root) (.ok handle) world).keep path handle root)
  | refused {below path root failure world s} (ready : setting.Ready stack below path root s)
      (persist : setting.store.persist (setting.prefabOf path root) s.forget.world =
        (.error failure, world)) :
      Step setting stack s (s.answered (setting.prefabOf path root) (.error failure) world)
  | visited {v s} (ends : setting.Ends stack v s) : Step setting stack s (s.note (.visited v))

/-- Any number of steps. -/
abbrev Steps (setting : Setting ω) (stack : List Path) :
    Session (Watched ω) → Session (Watched ω) → Prop :=
  Relation.ReflTransGen (setting.Step stack)

section
variable {setting : Setting ω} {stack below : List Path} {path : Path} {s t : Session (Watched ω)}

theorem Ready.mono {root : Node} {inner : List Path} (h : stack <:+ inner)
    (hready : setting.Ready inner below path root s) : setting.Ready stack below path root s :=
  { hready with inside := h.trans hready.inside }

theorem Ends.mono {v : Visit ω} {inner : List Path} (h : stack <:+ inner)
    (hends : setting.Ends inner v s) : setting.Ends stack v s :=
  { hends with inside := h.trans hends.inside }

theorem Step.mono {inner : List Path} (h : stack <:+ inner) (hstep : setting.Step inner s t) :
    setting.Step stack s t := by
  cases hstep with
  | began inside off normal called => exact .began (h.trans inside) off normal called
  | skipped inside off normal began unknown unread =>
    exact .skipped (h.trans inside) off normal began unknown unread
  | imported importer acts => exact .imported importer acts
  | started starts => exact .started starts
  | stored ready persist => exact .stored (ready.mono h) persist
  | refused ready persist => exact .refused (ready.mono h) persist
  | visited ends => exact .visited (ends.mono h)

theorem Steps.mono {inner : List Path} (h : stack <:+ inner) (hsteps : setting.Steps inner s t) :
    setting.Steps stack s t :=
  Relation.ReflTransGen.mono (fun _ _ => Step.mono h) _ _ hsteps

theorem Step.journal (hstep : setting.Step stack s t) :
    ∃ added, t.journal = s.journal ++ added ∧
      ∀ u, .visited u ∈ added → isOn stack u.path = false := by
  cases hstep with
  | began => exact ⟨_, rfl, by simp⟩
  | skipped => exact ⟨[], by simp, by simp⟩
  | imported => exact ⟨_, rfl, by simp⟩
  | started => exact ⟨_, rfl, by simp⟩
  | stored => exact ⟨_, rfl, by simp⟩
  | refused => exact ⟨_, rfl, by simp⟩
  | visited ends =>
    refine ⟨_, rfl, fun u hu => ?_⟩
    obtain rfl : u = _ := by simpa using hu
    exact Bool.eq_false_iff.2 fun hon => components_ne ends.inside ends.off hon rfl

theorem Steps.journal (hsteps : setting.Steps stack s t) :
    ∃ added, t.journal = s.journal ++ added ∧
      ∀ u, .visited u ∈ added → isOn stack u.path = false := by
  induction hsteps with
  | refl => exact ⟨[], by simp, by simp⟩
  | tail _ hstep ih =>
    obtain ⟨before, hbefore, hoff⟩ := ih
    obtain ⟨added, hadded, hoff'⟩ := hstep.journal
    refine ⟨before ++ added, by rw [hadded, hbefore, List.append_assoc], fun u hu => ?_⟩
    rcases List.mem_append.1 hu with hu | hu
    · exact hoff u hu
    · exact hoff' u hu

theorem Step.mem_journal (hstep : setting.Step stack s t) {x : Event ω} (hx : x ∈ s.journal) :
    x ∈ t.journal := by
  obtain ⟨added, hadded, -⟩ := hstep.journal
  rw [hadded]
  exact List.mem_append_left _ hx

theorem Steps.mem_journal (hsteps : setting.Steps stack s t) {x : Event ω} (hx : x ∈ s.journal) :
    x ∈ t.journal := by
  obtain ⟨added, hadded, -⟩ := hsteps.journal
  rw [hadded]
  exact List.mem_append_left _ hx

theorem Step.get?_of_known (hstep : setting.Step stack s t) {p : Path} {state : SourceState}
    (hp : s.cache.get? p = some state) : t.cache.get? p = some state := by
  cases hstep with
  | began => exact hp
  | skipped _ _ _ _ unknown _ => exact SkinCache.get?_put_of_known unknown hp
  | imported => exact hp
  | started => exact hp
  | stored ready _ => exact SkinCache.get?_put_of_known ready.unknown hp
  | refused => exact hp
  | visited => exact hp

theorem Steps.get?_of_known (hsteps : setting.Steps stack s t) {p : Path} {state : SourceState}
    (hp : s.cache.get? p = some state) : t.cache.get? p = some state := by
  induction hsteps with
  | refl => exact hp
  | tail _ hstep ih => exact hstep.get?_of_known ih

theorem Step.get?_of_isOn (hstep : setting.Step stack s t) {p : Path} (hp : isOn stack p = true) :
    t.cache.get? p = s.cache.get? p := by
  cases hstep with
  | began => rfl
  | skipped inside off _ _ _ _ =>
    rw [Session.cache_skip, SkinCache.get?_put, if_neg (components_ne inside off hp)]
  | imported => rfl
  | started => rfl
  | stored ready _ =>
    rw [Session.cache_keep, SkinCache.get?_put, if_neg (components_ne ready.inside ready.off hp),
      Session.cache_answered]
  | refused => rfl
  | visited => rfl

theorem Steps.get?_of_isOn (hsteps : setting.Steps stack s t) {p : Path}
    (hp : isOn stack p = true) : t.cache.get? p = s.cache.get? p := by
  induction hsteps with
  | refl => rfl
  | tail _ hstep ih => exact (hstep.get?_of_isOn hp).trans ih

end

/-- Steps while files are being compiled and some events are in the journal; only the store
fails. -/
def stepping (setting : Setting ω) (stack : List Path) (noted : Journal ω) :
    Contract (Watched ω) where
  holds s := noted ⊆ s.journal
  moves := setting.Steps stack
  fails failure t := ∃ p, .stored p (.error failure) ∈ t.journal
  refl _ := .refl
  trans := .trans

section
variable {setting : Setting ω} {stack : List Path} {path : Path} {noted : Journal ω}

theorem run_importNode (setting : Setting ω) (source : Path) (e : Element)
    (override widget : Option String) (n : Node) (s : Session (Watched ω)) :
    let done := (setting.watched.importNode source e override widget n).run s
    (∃ made, done.1 = .ok made) ∧
      (done.2 = s ∨ ∃ w i scope made after, setting.registry.importer? w = some i ∧
        i scope e n ⟨s.forget.world, s.report.diagnostics⟩ = (made, after) ∧
        done.2 = s.surround after) := by
  rw [importNode_eq, show setting.watched.registry = setting.registry.watched setting.locator from
    rfl, Registry.bind_importer?_watched]
  cases himporter : widget.bind setting.registry.importer? with
  | none => exact ⟨⟨_, rfl⟩, .inl rfl⟩
  | some i =>
    obtain ⟨w, -, hi⟩ := Option.bind_eq_some_iff.1 himporter
    exact ⟨⟨_, rfl⟩, .inr ⟨w, i, setting.importScope source override, _, _, hi, rfl, rfl⟩⟩

theorem importNode_steps (source : Path) (e : Element) (override widget : Option String)
    (n : Node) :
    Run.Meets (setting.stepping stack noted) (fun _ => True)
      (setting.watched.importNode source e override widget n) fun _ _ => True := by
  intro s hs _
  obtain ⟨⟨made, hmade⟩, hcases⟩ := setting.run_importNode source e override widget n s
  generalize (setting.watched.importNode source e override widget n).run s = done
    at hmade hcases ⊢
  obtain ⟨result, t⟩ := done
  obtain rfl : result = .ok made := hmade
  rcases hcases with hsame | ⟨w, i, scope, made, after, himporter, hacts, hafter⟩
  · obtain rfl : t = s := hsame
    exact ⟨hs, .refl, trivial⟩
  · obtain rfl : t = s.surround after := hafter
    have hstep : setting.Step stack s (s.surround after) := .imported himporter hacts
    exact ⟨fun x hx => hstep.mem_journal (hs hx), .single hstep, trivial⟩

/-- A node starts in one of four ways, when the visit of a file makes it known. -/
theorem startNode_steps
    {visit : (file : setting.skins.File) → isOn stack file.1 = false →
      Run (Watched ω) (Option PrefabRef)} {e : Element} {override : Option String}
    (hvisit : ∀ file h, setting.lookup? e override = some file →
      Run.Meets (setting.stepping stack noted) (fun _ => True) (visit file h)
        fun r s => s.cache.answer? file.1 = some r)
    {s t : Session (Watched ω)} {result : Except Failure Node} (hs : noted ⊆ s.journal)
    (hdone : (setting.watched.startNode (setting.watched.instantiate stack visit) e override).run s
      = (result, t)) :
    noted ⊆ t.journal ∧ setting.Steps stack s t ∧ setting.Starts t stack e override result := by
  rw [startNode_eq, show setting.watched.lookup? e override = setting.lookup? e override from rfl]
    at hdone
  cases hlookup : setting.lookup? e override with
  | none =>
    rw [hlookup] at hdone
    obtain ⟨rfl, rfl⟩ := Prod.mk.inj hdone
    exact ⟨hs, .refl, .plain hlookup⟩
  | some file =>
    rw [hlookup] at hdone
    dsimp only at hdone
    unfold instantiate at hdone
    split at hdone
    · next hoff =>
      have h := hvisit file hoff hlookup s hs trivial
      rw [Run.run_bind] at hdone
      generalize (visit file hoff).run s = visited at h hdone
      rcases visited with ⟨failure | r, u⟩
      · obtain ⟨hu, hsteps, p, hp⟩ := h
        obtain ⟨rfl, rfl⟩ := Prod.mk.inj hdone
        exact ⟨hu, hsteps, .stopped hlookup hoff hp⟩
      · obtain ⟨hu, hsteps, hanswer⟩ := h
        obtain ⟨state, hstate, -⟩ := Option.map_eq_some_iff.1 hanswer
        obtain ⟨rfl, rfl⟩ := Prod.mk.inj hdone
        exact ⟨hu, hsteps, .copied hlookup hoff hstate⟩
    · next hon =>
      obtain ⟨rfl, rfl⟩ := Prod.mk.inj hdone
      exact ⟨hs, .refl, .cyclic hlookup (by simpa using hon)⟩

theorem watchStart_steps
    {visit : (file : setting.skins.File) → isOn stack file.1 = false →
      Run (Watched ω) (Option PrefabRef)} {e : Element} {override : Option String}
    (hvisit : ∀ file h, setting.lookup? e override = some file →
      Run.Meets (setting.stepping stack noted) (fun _ => True) (visit file h)
        fun r s => s.cache.answer? file.1 = some r) :
    Run.Meets (setting.stepping stack noted) (fun _ => True)
      (setting.watchStart stack visit e override)
      fun n s => Begins s.journal stack e override n := by
  intro s hs _
  unfold watchStart
  rw [Run.run_noting]
  rcases hdone :
    (setting.watched.startNode (setting.watched.instantiate stack visit) e override).run s with
    ⟨result, t⟩
  obtain ⟨ht, hsteps, hstarts⟩ := startNode_steps hvisit hs hdone
  have hstep : setting.Step stack t _ := .started hstarts
  cases result with
  | error failure =>
    cases hstarts with
    | stopped _ _ hp =>
      exact ⟨fun x hx => hstep.mem_journal (ht hx), hsteps.tail hstep, _, hstep.mem_journal hp⟩
  | ok n =>
    exact ⟨fun x hx => hstep.mem_journal (ht hx), hsteps.tail hstep,
      List.mem_append_right _ List.mem_cons_self⟩

theorem run_compileWith (setting : Setting ω) (begin : Starting ω) (path : Path) (s : Session ω) :
    (setting.compileWith begin path).run s =
      match s.cache.answer? path, setting.sources.document path s.world with
      | some r, _ => (.ok r, s)
      | none, .error failure => (.ok none, s.skip path failure.message)
      | none, .ok e =>
        (setting.build begin path e (setting.rootWidget? path) none >>= fun root =>
          some <$> setting.finish path root).run s := by
  unfold compileWith SkinCache.answer?
  rw [Run.run_bind, Run.run_get]
  dsimp only
  cases s.cache.get? path with
  | some state => cases state <;> rfl
  | none => cases setting.sources.document path s.world <;> rfl

theorem run_finish (setting : Setting ω) (path : Path) (root : Node) (s : Session ω) :
    (setting.finish path root).run s =
      match setting.store.persist (setting.prefabOf path root) s.world with
      | (.ok handle, world) => (.ok handle, { s with world }.keep path handle root)
      | (.error failure, world) => (.error failure, { s with world }) := by
  rw [finish, Run.run_bind, Run.run_persist]
  rcases setting.store.persist (setting.prefabOf path root) s.world with
    ⟨failure | handle, world⟩ <;> rfl

theorem run_finish_watched (setting : Setting ω) (path : Path) (root : Node)
    (s : Session (Watched ω)) :
    (setting.watched.finish path root).run s =
      match setting.store.persist (setting.prefabOf path root) s.forget.world with
      | (.ok handle, world) =>
        (.ok handle, (s.answered (setting.prefabOf path root) (.ok handle) world).keep path handle
          root)
      | (.error failure, world) =>
        (.error failure, s.answered (setting.prefabOf path root) (.error failure) world) := by
  have hwatched : setting.watched.store.persist (setting.watched.prefabOf path root) s.world =
      ((setting.store.persist (setting.prefabOf path root) s.forget.world).1,
        ⟨(setting.store.persist (setting.prefabOf path root) s.forget.world).2,
          s.journal ++ [.stored (setting.prefabOf path root)
            (setting.store.persist (setting.prefabOf path root) s.forget.world).1]⟩) := rfl
  rw [run_finish, hwatched]
  rcases setting.store.persist (setting.prefabOf path root) s.forget.world with
    ⟨failure | handle, world⟩ <;> rfl

/-- Storing a root takes a step, and then the file is known. -/
theorem finish_steps {below : List Path} {root : Node} {s t : Session (Watched ω)}
    {result : Except Failure PrefabRef} (ready : setting.Ready stack below path root s)
    (hdone : (setting.watched.finish path root).run s = (result, t)) :
    setting.Step stack s t ∧
      t.journal = s.journal ++ [.stored (setting.prefabOf path root) result] ∧
        ∀ handle, result = .ok handle → t.cache.answer? path = some (some handle) := by
  rw [run_finish_watched] at hdone
  rcases hpersist : setting.store.persist (setting.prefabOf path root) s.forget.world with
    ⟨failure | handle, world⟩
  · rw [hpersist] at hdone
    obtain ⟨rfl, rfl⟩ := Prod.mk.inj hdone
    exact ⟨.refused ready hpersist, rfl, fun _ h => nomatch h⟩
  · rw [hpersist] at hdone
    obtain ⟨rfl, rfl⟩ := Prod.mk.inj hdone
    refine ⟨.stored ready hpersist, rfl, fun other h => ?_⟩
    obtain rfl := Except.ok.inj h
    change ((s.cache.put path (.compiled ⟨handle, root⟩)).get? path).map _ = _
    rw [SkinCache.get?_put_self]
    rfl

/-- What compiling a file amounts to once its visit has begun. -/
structure Compiles (setting : Setting ω) (stack : List Path) (path : Path)
    (s : Session (Watched ω)) (result : Except Failure (Option PrefabRef))
    (t : Session (Watched ω)) : Prop where
  steps : setting.Steps stack s t
  whole : ∃ added, t.journal = s.journal ++ added ∧ ∀ u, .visited u ∈ added → u.path ≠ path
  answers {r} : result = .ok r → t.cache.answer? path = some r
  fails {failure} : result = .error failure → ∃ p, .stored p (.error failure) ∈ t.journal
  known {r} : s.cache.answer? path = some r → result = .ok r ∧ t = s

/-- The part of a run while a file is being compiled notes no visit of the file. -/
theorem Steps.whole {s t : Session (Watched ω)} (hsteps : setting.Steps (path :: stack) s t) :
    ∃ added, t.journal = s.journal ++ added ∧ ∀ u, .visited u ∈ added → u.path ≠ path := by
  obtain ⟨added, hadded, hoff⟩ := hsteps.journal
  refine ⟨added, hadded, fun u hu h => ?_⟩
  have hu := hoff u hu
  rw [h, isOn_cons, Path.same, decide_eq_true rfl] at hu
  cases hu

/-- Building and storing a root takes steps. -/
theorem compileBuilt_steps {begin : Starting (Watched ω)} {root : Element}
    (off : isOn stack path = false) (normal : path.normalize = path) {s t : Session (Watched ω)}
    {result : Except Failure (Option PrefabRef)} (began : .began stack path s.forget ∈ s.journal)
    (unknown : s.cache.get? path = none)
    (hdocument : setting.sources.document path s.forget.world = .ok root)
    (hstarts : ∀ e override, setting.Reaches root (setting.rootWidget? path) e override →
      Run.Meets (setting.stepping (path :: stack) [.began stack path s.forget]) (fun _ => True)
        (begin e override) fun n u => Begins u.journal (path :: stack) e override n)
    (hdone : (setting.watched.build begin path root (setting.rootWidget? path) none >>= fun root =>
      some <$> setting.watched.finish path root).run s = (result, t)) :
    setting.Compiles stack path s result t := by
  have htop : stack <:+ path :: stack := List.suffix_cons _ _
  have hunknown : ∀ {r}, s.cache.answer? path ≠ some r := by
    intro r h
    rw [SkinCache.answer?, unknown] at h
    cases h
  have hbuild := setting.watched.build_grown
    (c := setting.stepping (path :: stack) [.began stack path s.forget])
    (fun u => Begins u.journal (path :: stack))
    (fun hmoves hn => Steps.mem_journal hmoves hn)
    (fun e override he => hstarts e override he.plain)
    (fun e override widget n => importNode_steps path e override widget n) s
    (fun x hx => by rw [List.mem_singleton.1 hx]; exact began) trivial
  -- Either building fails, and the visit with it, or storing the root is one more step.
  rw [Run.run_bind] at hdone
  generalize ExceptT.run (setting.watched.build _ _ _ _ _) s = built at hbuild hdone
  rcases built with ⟨failure | n, u⟩
  · obtain ⟨-, hsteps, p, hp⟩ := hbuild
    obtain ⟨rfl, rfl⟩ := Prod.mk.inj hdone
    exact
      { steps := Steps.mono htop hsteps
        whole := Steps.whole hsteps
        answers := fun h => nomatch h
        fails := fun h => ⟨p, Except.error.inj h ▸ hp⟩
        known := fun h => absurd h hunknown }
  · obtain ⟨hnoted, hsteps, hgrown⟩ := hbuild
    have hself : isOn (path :: stack) path = true := by
      rw [isOn_cons, Path.same, decide_eq_true rfl, Bool.true_or]
    have ready : setting.Ready stack stack path n u :=
      { inside := List.suffix_refl _
        off := off
        normal := normal
        unknown := (Steps.get?_of_isOn hsteps hself).trans unknown
        built := ⟨_, root, hnoted List.mem_cons_self, hdocument, hgrown.plain⟩ }
    dsimp only at hdone
    rw [Run.run_map] at hdone
    rcases hfinish : (setting.watched.finish path n).run u with ⟨stored, w⟩
    rw [hfinish] at hdone
    obtain ⟨rfl, rfl⟩ := Prod.mk.inj hdone
    obtain ⟨hstep, hjournal, hanswer⟩ := finish_steps ready hfinish
    obtain ⟨added, hadded, hvisits⟩ := Steps.whole hsteps
    refine
      { steps := (Steps.mono htop hsteps).tail hstep
        whole := ⟨added ++ [.stored (setting.prefabOf path n) stored], ?_, ?_⟩
        answers := ?_
        fails := ?_
        known := fun h => absurd h hunknown }
    · rw [hjournal, hadded, List.append_assoc]
    · intro v hv
      exact hvisits v (by simpa using hv)
    · intro r hr
      cases stored with
      | error failure => cases hr
      | ok handle => rw [hanswer handle rfl, ← Except.ok.inj hr]
    · intro failure hfailure
      cases stored with
      | error other =>
        refine ⟨setting.prefabOf path n, ?_⟩
        rw [hjournal, ← Except.error.inj hfailure]
        exact List.mem_append_right _ List.mem_cons_self
      | ok handle => cases hfailure

theorem compileWith_steps {begin : Starting (Watched ω)} (off : isOn stack path = false)
    (normal : path.normalize = path) {s t : Session (Watched ω)}
    {result : Except Failure (Option PrefabRef)} (began : .began stack path s.forget ∈ s.journal)
    (hstarts : ∀ root, setting.sources.document path s.forget.world = .ok root →
      ∀ e override, setting.Reaches root (setting.rootWidget? path) e override →
        Run.Meets (setting.stepping (path :: stack) [.began stack path s.forget]) (fun _ => True)
          (begin e override) fun n u => Begins u.journal (path :: stack) e override n)
    (hdone : (setting.watched.compileWith begin path).run s = (result, t)) :
    setting.Compiles stack path s result t := by
  rw [run_compileWith, show setting.watched.sources.document path s.world =
    setting.sources.document path s.forget.world from rfl] at hdone
  cases hanswer : s.cache.answer? path with
  | some r =>
    rw [hanswer] at hdone
    obtain ⟨rfl, rfl⟩ := Prod.mk.inj hdone
    exact
      { steps := .refl
        whole := ⟨[], by simp, by simp⟩
        answers := fun h => hanswer.trans (congrArg some (Except.ok.inj h))
        fails := fun h => nomatch h
        known := fun h => ⟨congrArg _ (Option.some.inj (hanswer.symm.trans h)), rfl⟩ }
  | none =>
    have unknown : s.cache.get? path = none := Option.map_eq_none_iff.1 hanswer
    cases hdocument : setting.sources.document path s.forget.world with
    | error failure =>
      rw [hanswer, hdocument] at hdone
      obtain ⟨rfl, rfl⟩ := Prod.mk.inj hdone
      exact
        { steps := .single
            (.skipped (List.suffix_refl _) off normal began unknown hdocument)
          whole := ⟨[], by simp, by simp⟩
          answers := fun h => by
            rw [SkinCache.answer?, Session.cache_skip, SkinCache.get?_put_self,
              ← Except.ok.inj h]
            rfl
          fails := fun h => nomatch h
          known := fun h => nomatch hanswer.symm.trans h }
    | ok root =>
      rw [hanswer, hdocument] at hdone
      exact compileBuilt_steps off normal began unknown hdocument (hstarts root hdocument) hdone

/-- The visit of a normal path that is off the stack takes steps, and then the file is known. -/
theorem watchFile_steps (setting : Setting ω) (stack : List Path) (path : Path)
    (off : isOn stack path = false) (normal : path.normalize = path) (noted : Journal ω) :
    Run.Meets (setting.stepping stack noted) (fun s => setting.Called s.journal stack path)
      (setting.watchFile stack path) fun r s => s.cache.answer? path = some r := by
  -- By induction on the skins off the stack; what was noted before is noted after.
  induction stack, path using compileFile.induct setting generalizing noted with
  | case1 stack path ih =>
    intro s hs hcalled
    have hbegan : setting.Step stack s (s.note (.began stack path s.forget)) :=
      .began (List.suffix_refl _) off normal hcalled
    have hmem : .began stack path s.forget ∈ (s.note (.began stack path s.forget)).journal :=
      List.mem_append_right _ List.mem_cons_self
    have hmirrors := setting.watchFile_mirrors stack path s
    rw [watchFile, Run.run_noting, Run.run_bind, Run.run_modify] at hmirrors ⊢
    dsimp only at hmirrors ⊢
    rcases hdone : (setting.watched.compileWith (setting.watchStart (path :: stack) fun file _ =>
      setting.watchFile (path :: stack) file.1) path).run
        (s.note (.began stack path s.forget)) with ⟨result, t⟩
    rw [hdone] at hmirrors
    have hcompiles :
        setting.Compiles stack path (s.note (.began stack path s.forget)) result t := by
      refine compileWith_steps off normal hmem (fun root hroot e override he => ?_) hdone
      refine watchStart_steps fun file hfile hlookup u hu _ => ?_
      have hrefers : setting.Refers s.forget.world path file.1 :=
        ⟨root, e, override, file, hroot, he, hlookup, rfl⟩
      exact ih file hfile hfile (SkinTable.normalize_of_mem_paths file.2) _ u hu
        (.skin (hu List.mem_cons_self) hrefers)
    obtain ⟨added, hadded, hvisits⟩ := hcompiles.whole
    have hends : setting.Ends stack ⟨stack, path, s.forget, result, t.forget⟩ t :=
      { inside := List.suffix_refl _
        off := off
        normal := normal
        after := rfl
        ran := hmirrors.symm
        whole := ⟨s.journal, added, by rw [hadded]; simp, hvisits⟩
        answers := hcompiles.answers
        fails := hcompiles.fails
        known := fun h => by
          obtain ⟨hresult, rfl⟩ := hcompiles.known h
          exact ⟨hresult, rfl⟩ }
    have hsteps : setting.Steps stack s
        (t.note (.visited ⟨stack, path, s.forget, result, t.forget⟩)) :=
      .head hbegan (hcompiles.steps.tail (.visited hends))
    have hnoted : noted ⊆ (t.note (.visited ⟨stack, path, s.forget, result, t.forget⟩)).journal :=
      fun x hx => hsteps.mem_journal (hs hx)
    cases result with
    | error failure =>
      obtain ⟨p, hp⟩ := hcompiles.fails rfl
      exact ⟨hnoted, hsteps, p, List.mem_append_left _ hp⟩
    | ok r => exact ⟨hnoted, hsteps, hcompiles.answers rfl⟩

theorem watchEach_steps (setting : Setting ω) (paths : List Path) (s : Session (Watched ω)) :
    setting.Steps [] s (setting.watchEach paths s) := by
  unfold watchEach
  induction paths generalizing s with
  | nil => exact .refl
  | cons path rest ih =>
    have h := setting.watchFile_steps [] path.normalize rfl path.normalize_normalize [] s
      (List.nil_subset _) .outside
    rw [List.foldl_cons]
    refine .trans ?_ (ih _)
    generalize (setting.watchFile [] path.normalize).run s = done at h ⊢
    rcases done with ⟨failure | r, t⟩
    · exact h.2.1
    · exact h.2.1

/-- What holds of a new session and is kept by every step holds after every run. -/
theorem watchEach_induction (setting : Setting ω) {motive : Session (Watched ω) → Prop} {world : ω}
    (new : motive { world := { world } })
    (step : ∀ {s t}, motive s → setting.Step [] s t → motive t) (paths : List Path) :
    motive (setting.watchEach paths { world := { world } }) := by
  have hsteps := setting.watchEach_steps paths { world := { world } }
  generalize setting.watchEach paths _ = t at hsteps
  induction hsteps with
  | refl => exact new
  | tail _ hstep ih => exact step ih hstep

end

end Setting

end MarkupScene
