import MarkupScene.Proofs.Steps

/-!
# Runs

A run compiles its files one after another until one of them fails. On a watched outside it keeps a
journal like any sequence of compile calls, which only grows. The main statement is that the session
in which a run ends is that of compile calls on the files up to the failure, or on all files when
nothing fails, so that what holds after all compile calls holds after every run.
-/
namespace MarkupScene

variable {ω α β : Type}

/-- A step that takes nothing out of the journal. -/
def Run.Grows (m : Run (Watched ω) α) : Prop := ∀ s, s.journal ⊆ (m.run s).2.journal

namespace Run.Grows

theorem pure (a : α) : Grows (Pure.pure a : Run (Watched ω) α) := fun _ => List.Subset.refl _

theorem subset_bind (m : Run (Watched ω) α) {f : α → Run (Watched ω) β}
    (hf : ∀ a, (f a).Grows) (s : Session (Watched ω)) :
    (m.run s).2.journal ⊆ ((m >>= f).run s).2.journal := by
  rw [run_bind]
  generalize m.run s = first
  rcases first with ⟨failure | a, t⟩
  · exact List.Subset.refl _
  · exact hf a t

theorem bind {m : Run (Watched ω) α} {f : α → Run (Watched ω) β} (hm : m.Grows)
    (hf : ∀ a, (f a).Grows) : (m >>= f).Grows :=
  fun s => List.Subset.trans (hm s) (subset_bind m hf s)

theorem noting {m : Run (Watched ω) α} (hm : m.Grows)
    (event : Session ω → Except Failure α → Session ω → Event ω) : (Run.noting event m).Grows :=
  fun s => List.Subset.trans (hm s) (List.subset_append_left _ _)

end Run.Grows

def Run.growing : Coupling (Watched ω) (Watched ω) where
  related _ m := m.Grows
  pure := .pure
  bind := .bind

namespace Setting

theorem importNode_grows (setting : Setting ω) (source : Path) (e : Element)
    (override widget : Option String) (n : Node) :
    (setting.watched.importNode source e override widget n).Grows := by
  intro s
  obtain ⟨-, hsame | ⟨-, -, -, -, after, -, -, hafter⟩⟩ :=
    setting.run_importNode source e override widget n s
  · rw [hsame]
    exact List.Subset.refl _
  · rw [hafter]
    exact List.subset_append_left _ _

theorem look_grows (setting : Setting ω) (path : Path) : (setting.watched.look path).Grows := by
  intro s
  obtain ⟨-, hsame | ⟨reason, hskip⟩⟩ := setting.watched.run_look path s
  · rw [hsame]
    exact List.Subset.refl _
  · rw [hskip]
    exact List.Subset.refl _

theorem finish_grows (setting : Setting ω) (path : Path) (root : Node) :
    (setting.watched.finish path root).Grows := by
  intro s
  rw [run_finish_watched]
  rcases setting.store.persist (setting.prefabOf path root) s.forget.world with
    ⟨failure | handle, world⟩
  · exact List.subset_append_left _ _
  · exact List.subset_append_left _ _

theorem growing_coupled (setting : Setting ω) :
    setting.watched.Coupled Run.growing setting.watched where
  options := rfl
  skins := rfl
  checks := rfl
  importing := setting.importNode_grows
  looking := setting.look_grows
  copying _ _ _ := List.Subset.refl _
  finishing := setting.finish_grows

/-- A coupling of a watched run with itself relates the starts of nodes as soon as it relates the
visits on the way. -/
theorem watchStart_coupled {setting : Setting ω} {c : Coupling (Watched ω) (Watched ω)}
    {stack : List Path} {visit : (file : setting.skins.File) → isOn stack file.1 = false →
      Run (Watched ω) (Option PrefabRef)} (e : Element) (override : Option String)
    (hnote : ∀ m : Run (Watched ω) Node, c.related m m →
      let noted := Run.noting (fun _ result _ => .started ⟨stack, e, override, result⟩) m
      c.related noted noted)
    (hcopy : ∀ path name, c.related (copyKnown path name) (copyKnown path name))
    (hvisit : ∀ file hoff, c.related (visit file hoff) (visit file hoff)) :
    c.related (setting.watchStart stack visit e override)
      (setting.watchStart stack visit e override) := by
  refine hnote _ ?_
  rw [startNode_eq]
  cases setting.watched.lookup? e override with
  | none => exact c.pure _
  | some file =>
    dsimp only
    unfold instantiate
    split
    · next hoff => exact c.bind (hvisit file hoff) fun _ => hcopy file.1 e.nodeName
    · exact c.pure _

theorem compileWith_grows {setting : Setting ω} {stack : List Path} {path : Path}
    {visit : (file : setting.skins.File) → isOn stack file.1 = false →
      Run (Watched ω) (Option PrefabRef)} (hvisit : ∀ file hoff, (visit file hoff).Grows) :
    (setting.watched.compileWith (setting.watchStart stack visit) path).Grows := by
  have hstart : ∀ e override, Run.growing.related (setting.watchStart stack visit e override)
      (setting.watchStart stack visit e override) := fun e override =>
    watchStart_coupled e override (fun _ hm => hm.noting _) (fun _ _ _ => List.Subset.refl _) hvisit
  exact compileWith_coupled setting.growing_coupled hstart path

theorem watchFile_grows (setting : Setting ω) (stack : List Path) (path : Path) :
    (setting.watchFile stack path).Grows := by
  induction stack, path using compileFile.induct setting with
  | case1 stack path ih =>
    rw [watchFile]
    exact .noting (.bind (fun s => List.subset_append_left _ _) fun _ => compileWith_grows ih) _

theorem began_mem_watchFile (setting : Setting ω) (stack : List Path) (path : Path)
    (s : Session (Watched ω)) :
    .began stack path s.forget ∈ ((setting.watchFile stack path).run s).2.journal := by
  rw [watchFile, Run.run_noting, Run.run_bind, Run.run_modify]
  refine List.mem_append_left _ (compileWith_grows (fun file _ => ?_) _ ?_)
  · exact setting.watchFile_grows _ file.1
  · exact List.mem_append_right _ List.mem_cons_self

/-- Compiles files one after another on a watched outside, up to the first failure. -/
def watchAll (setting : Setting ω) : List Path → Run (Watched ω) Unit
  | [] => pure ()
  | path :: rest => do
    let _ ← setting.watchFile [] path.normalize
    watchAll setting rest

theorem watchAll_grows (setting : Setting ω) (paths : List Path) :
    (setting.watchAll paths).Grows := by
  induction paths with
  | nil => exact .pure ()
  | cons path rest ih => exact .bind (setting.watchFile_grows [] path.normalize) fun _ => ih

/-- The session in which a run ends, with its journal. -/
def watchRun (setting : Setting ω) (world : ω) (paths : List Path) : Session (Watched ω) :=
  ((setting.watchAll paths).run { world := { world } }).2

def runJournal (setting : Setting ω) (world : ω) (paths : List Path) : Journal ω :=
  (setting.watchRun world paths).journal

theorem watchAll_mirrors (setting : Setting ω) (paths : List Path) :
    Run.Mirrors (setting.watchAll paths) (setting.compileAll paths) := by
  induction paths with
  | nil => exact .pure ()
  | cons path rest ih =>
    rw [watchAll, compileAll]
    exact (setting.watchFile_mirrors [] path.normalize).bind fun _ => ih

theorem run_eq_watched (setting : Setting ω) (paths : List Path) (world : ω) :
    setting.run paths world =
      (((setting.watchAll paths).run { world := { world } }).1.map fun _ =>
          (setting.watchRun world paths).report,
        (setting.watchRun world paths).forget.world) := by
  have hmirrors := setting.watchAll_mirrors paths { world := { world } }
  unfold run watchRun
  rw [← show _ = (setting.compileAll paths).run { world } from hmirrors]
  rfl

theorem report_of_run {setting : Setting ω} {paths : List Path} {world : ω} {report : Report}
    (h : (setting.run paths world).1 = .ok report) :
    ((setting.watchAll paths).run { world := { world } }).1 = .ok () ∧
      report = (setting.watchRun world paths).report := by
  rw [run_eq_watched] at h
  cases hresult : ((setting.watchAll paths).run { world := { world } }).1 with
  | error failure =>
    rw [hresult] at h
    cases h
  | ok answer =>
    rw [hresult] at h
    exact ⟨rfl, (Except.ok.inj h).symm⟩

theorem watchAll_append (setting : Setting ω) (earlier later : List Path) :
    setting.watchAll (earlier ++ later) =
      (setting.watchAll earlier >>= fun _ => setting.watchAll later) := by
  induction earlier with
  | nil => rfl
  | cons path rest ih =>
    rw [List.cons_append, watchAll, watchAll, ih, bind_assoc]

theorem watchAll_watchEach (setting : Setting ω) (paths : List Path) (s : Session (Watched ω)) :
    ∃ earlier later, paths = earlier ++ later ∧
      ((setting.watchAll paths).run s).2 = setting.watchEach earlier s ∧
        (((setting.watchAll paths).run s).1 = .ok () → later = []) := by
  induction paths generalizing s with
  | nil => exact ⟨[], [], rfl, rfl, fun _ => rfl⟩
  | cons path rest ih =>
    have hcall : setting.watchEach [path] s = ((setting.watchFile [] path.normalize).run s).2 := rfl
    rw [watchAll, Run.run_bind]
    rcases hfirst : (setting.watchFile [] path.normalize).run s with ⟨failure | answer, t⟩
    · refine ⟨[path], rest, rfl, ?_, fun h => nomatch h⟩
      rw [hcall, hfirst]
    · obtain ⟨earlier, later, hsplit, hend, hall⟩ := ih t
      refine ⟨path :: earlier, later, by rw [hsplit]; rfl, ?_, hall⟩
      rw [hend, show setting.watchEach (path :: earlier) s =
        setting.watchEach earlier (setting.watchEach [path] s) from rfl, hcall, hfirst]

/-- What holds after all compile calls holds at the end of every run. -/
theorem watchRun_induction {setting : Setting ω} {world : ω} {motive : Session (Watched ω) → Prop}
    (h : ∀ paths, motive (setting.watchEach paths { world := { world } })) (paths : List Path) :
    motive (setting.watchRun world paths) := by
  obtain ⟨earlier, -, -, hend, -⟩ := setting.watchAll_watchEach paths { world := { world } }
  rw [watchRun, hend]
  exact h earlier

theorem watchRun_of_ok {setting : Setting ω} {world : ω} {paths : List Path}
    (h : ((setting.watchAll paths).run { world := { world } }).1 = .ok ()) :
    setting.watchRun world paths = setting.watchEach paths { world := { world } } := by
  obtain ⟨earlier, later, hsplit, hend, hall⟩ :=
    setting.watchAll_watchEach paths { world := { world } }
  rw [hall h, List.append_nil] at hsplit
  rw [watchRun, hend, hsplit]

end Setting

end MarkupScene
