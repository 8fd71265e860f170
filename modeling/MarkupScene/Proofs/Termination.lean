import Mathlib.Data.List.Perm.Subperm
import MarkupScene.Proofs.Machine
import MarkupScene.Proofs.SkinLookups

/-!
# Termination

Every compile call ends, whatever the skins refer to. The machine of a call halts with the answer
that compiling gives. On the way no file is on the stack twice, all but the file at its bottom are
skin files, and each call in between returns to the frames and the stack that it was made with,
whether it has an answer or a failure.
-/
namespace MarkupScene

variable {ω : Type}

theorem Path.same_comm (p q : Path) : p.same q = q.same p := by
  unfold same
  exact decide_eq_decide.2 eq_comm

namespace Machine

/-- The files whose roots are waited for, innermost first. -/
def rootsOf (frames : List Frame) : List Path :=
  frames.filterMap fun
    | .root path => some path
    | _ => none

/-- The file that a task is about to compile. -/
def Task.file? : Task → Option Path
  | .compile path => some path
  | _ => none

/-- The machine at the beginning of a call from outside. -/
def call (path : Path) (s : Session ω) : Machine ω where
  task := .compile path.normalize
  session := s

/-- The machine at the end of a call from outside. -/
def answer (result : Except Failure (Option PrefabRef)) (s : Session ω) : Machine ω where
  task := .compiled result
  session := s

end Machine

namespace Setting

/-- What holds of the stack in every state of the machine. -/
structure WellStacked (setting : Setting ω) (m : Machine ω) : Prop where
  distinct : m.stack.Pairwise fun p q => p.same q = false
  skins : ∀ p ∈ m.stack.dropLast, p ∈ setting.skins.paths
  roots : m.stack = Machine.rootsOf m.frames
  /-- A file that is about to be compiled is off the stack. -/
  entering {path} : m.task.file? = some path →
    isOn m.stack path = false ∧ (m.stack ≠ [] → path ∈ setting.skins.paths)

section
variable {setting : Setting ω} {m m' : Machine ω}

theorem WellStacked.keep (hm : setting.WellStacked m) (hstack : m'.stack = m.stack)
    (hroots : Machine.rootsOf m'.frames = Machine.rootsOf m.frames)
    (htask : m'.task.file? = none) : setting.WellStacked m' where
  distinct := by rw [hstack]; exact hm.distinct
  skins := by rw [hstack]; exact hm.skins
  roots := by rw [hstack, hroots]; exact hm.roots
  entering := fun h => nomatch htask.symm.trans h

theorem WellStacked.push (hm : setting.WellStacked m) {path : Path}
    (hoff : isOn m.stack path = false) (hpath : m.stack ≠ [] → path ∈ setting.skins.paths)
    (hstack : m'.stack = path :: m.stack)
    (hframes : m'.frames = .root path :: m.frames) (htask : m'.task.file? = none) :
    setting.WellStacked m' := by
  have hfresh : ∀ q ∈ m.stack, path.same q = false := by
    intro q hq
    have hnone := List.any_eq_false.1 hoff q hq
    rw [Path.same_comm]
    simpa using hnone
  constructor
  case distinct =>
    rw [hstack]
    exact List.pairwise_cons.2 ⟨hfresh, hm.distinct⟩
  case skins =>
    rw [hstack]
    intro p hp
    by_cases hnil : m.stack = []
    · rw [hnil] at hp
      cases hp
    · rw [List.dropLast_cons_of_ne_nil hnil] at hp
      rcases List.mem_cons.1 hp with rfl | hp
      · exact hpath hnil
      · exact hm.skins p hp
  case roots =>
    rw [hstack, hframes, hm.roots]
    rfl
  case entering => exact fun h => nomatch htask.symm.trans h

theorem WellStacked.pop (hm : setting.WellStacked m) {path : Path}
    (hframes : m.frames = .root path :: m'.frames) (hstack : m'.stack = m.stack.tail)
    (htask : m'.task.file? = none) : setting.WellStacked m' := by
  have htop : m.stack = path :: Machine.rootsOf m'.frames := by
    rw [hm.roots, hframes]
    rfl
  constructor
  case distinct =>
    rw [hstack]
    exact hm.distinct.tail
  case skins =>
    rw [hstack, ← List.tail_dropLast]
    exact fun p hp => hm.skins p (List.mem_of_mem_tail hp)
  case roots => rw [hstack, htop, List.tail_cons]
  case entering => exact fun h => nomatch htask.symm.trans h

theorem WellStacked.step (hm : setting.WellStacked m) (hstep : setting.Advances m m') :
    setting.WellStacked m' := by
  obtain ⟨task, frames, stack, s⟩ := m
  cases task with
  | compile path =>
    -- The only task that makes the stack longer, by a file that is not on it.
    obtain ⟨hoff, hpath⟩ := hm.entering rfl
    simp only [Advances, next] at hstep
    split at hstep
    · obtain rfl := Option.some.inj hstep
      exact hm.keep rfl rfl rfl
    · obtain rfl := Option.some.inj hstep
      exact hm.keep rfl rfl rfl
    · obtain rfl := Option.some.inj hstep
      exact hm.push hoff hpath rfl rfl rfl
  | build site =>
    simp only [Advances, next] at hstep
    split at hstep
    · obtain rfl := Option.some.inj hstep
      exact hm.keep rfl rfl rfl
    · next file hlookup =>
      split at hstep
      · obtain rfl := Option.some.inj hstep
        exact hm.keep rfl rfl rfl
      · next hoff =>
        obtain rfl := Option.some.inj hstep
        -- Building goes on with a skin only when its file is off the stack.
        refine { hm with entering := ?_ }
        rintro path h
        obtain rfl : file.1 = path := Option.some.inj h
        exact ⟨by simpa using hoff, fun _ => file.2⟩
  | begun site fresh =>
    obtain rfl := Option.some.inj hstep
    exact hm.keep rfl rfl rfl
  | children site placed made rest =>
    cases rest with
    | nil =>
      obtain rfl := Option.some.inj hstep
      exact hm.keep rfl rfl rfl
    | cons c rest =>
      simp only [Advances, next] at hstep
      split at hstep
      · obtain rfl := Option.some.inj hstep
        exact hm.keep rfl rfl rfl
      · obtain rfl := Option.some.inj hstep
        exact hm.keep rfl rfl rfl
  | compiled result =>
    cases frames with
    | nil => cases result <;> cases hstep
    | cons frame frames =>
      cases frame with
      | skin site file =>
        cases result with
        | ok r =>
          obtain rfl := Option.some.inj hstep
          exact hm.keep rfl rfl rfl
        | error failure =>
          obtain rfl := Option.some.inj hstep
          exact hm.keep rfl rfl rfl
      | root path => cases result <;> cases hstep
      | child site placed made rest => cases result <;> cases hstep
  | built result =>
    cases frames with
    | nil => cases result <;> cases hstep
    | cons frame frames =>
      cases frame with
      | root path =>
        cases result with
        | ok root =>
          obtain rfl := Option.some.inj hstep
          exact hm.pop rfl rfl rfl
        | error failure =>
          obtain rfl := Option.some.inj hstep
          exact hm.pop rfl rfl rfl
      | child site placed made rest =>
        cases result with
        | ok n =>
          obtain rfl := Option.some.inj hstep
          exact hm.keep rfl rfl rfl
        | error failure =>
          obtain rfl := Option.some.inj hstep
          exact hm.keep rfl rfl rfl
      | skin site file => cases result <;> cases hstep

theorem WellStacked.reached (hm : setting.WellStacked m) (h : setting.Reached m m') :
    setting.WellStacked m' := by
  induction h with
  | refl => exact hm
  | tail _ hstep ih => exact ih.step hstep

theorem wellStacked_call (setting : Setting ω) (path : Path) (s : Session ω) :
    setting.WellStacked (.call path s) where
  distinct := .nil
  skins := fun _ h => nomatch h
  roots := rfl
  entering := fun _ => ⟨rfl, fun h => absurd rfl h⟩

theorem WellStacked.length_le (hm : setting.WellStacked m) :
    m.stack.length ≤ 1 + setting.skins.paths.length := by
  have hnodup : m.stack.Nodup := hm.distinct.imp fun {p q} hne heq => by
    subst heq
    simp [Path.same] at hne
  have hfewer : m.stack.dropLast.length ≤ setting.skins.paths.length :=
    ((hnodup.sublist (List.dropLast_sublist _)).subperm hm.skins).length_le
  rw [List.length_dropLast] at hfewer
  omega

theorem acc_of_reached (h : setting.Reached m m') (hhalt : setting.next m' = none) :
    Acc (fun later earlier => setting.Advances earlier later) m := by
  induction h using Relation.ReflTransGen.head_induction_on with
  | refl =>
    refine ⟨_, fun later hlater => ?_⟩
    rw [Advances, hhalt] at hlater
    cases hlater
  | head hstep _ ih =>
    refine ⟨_, fun later hlater => ?_⟩
    obtain rfl := Option.some.inj (hstep.symm.trans hlater)
    exact ih

/-- How a compile call goes, from any session. -/
structure Finishes (setting : Setting ω) (path : Path) (s : Session ω) : Prop where
  /-- There is no run of steps without end. -/
  ends : Acc (fun later earlier => setting.Advances earlier later) (.call path s)
  answers : setting.Reached (.call path s)
    (.answer ((setting.compile path).run s).1 ((setting.compile path).run s).2)
  halts (result : Except Failure (Option PrefabRef)) (t : Session ω) :
    setting.next (.answer result t) = none
  distinct {m : Machine ω} : setting.Reached (.call path s) m →
    m.stack.Pairwise fun p q => p.same q = false
  bounded {m : Machine ω} : setting.Reached (.call path s) m →
    m.stack.length ≤ 1 + setting.skins.paths.length
  /-- Every call on the way returns to its frames and its stack, with an answer or a failure. -/
  returns {m : Machine ω} {file : Path} : setting.Reached (.call path s) m →
    m.task = .compile file →
      let compiling := (setting.compileFile m.stack file).run m.session
      setting.Reached m ⟨.compiled compiling.1, m.frames, m.stack, compiling.2⟩
  /-- Whenever the frames are back, so is the stack. -/
  restores {m m' : Machine ω} : setting.Reached (.call path s) m → setting.Reached m m' →
    m'.frames = m.frames → m'.stack = m.stack

/-- Compile calls end, on every graph of skins. -/
theorem compile_finishes (setting : Setting ω) (path : Path) (s : Session ω) :
    setting.Finishes path s := by
  have hcall := setting.wellStacked_call path s
  have hanswer := setting.compileFile_does [] path.normalize [] s
  have hhalts : ∀ result t, setting.next (.answer result t) = none := fun result _ => by
    cases result <;> rfl
  constructor
  case ends => exact acc_of_reached hanswer (hhalts _ _)
  case answers => exact hanswer
  case halts => exact hhalts
  case distinct => exact fun h => (hcall.reached h).distinct
  case bounded => exact fun h => (hcall.reached h).length_le
  case returns =>
    intro m file h htask
    obtain ⟨task, frames, stack, t⟩ := m
    obtain rfl : task = .compile file := htask
    exact setting.compileFile_does stack file frames t
  case restores =>
    intro m m' h hlater hframes
    have hm := hcall.reached h
    have hm' := hm.reached hlater
    rw [hm'.roots, hm.roots, hframes]

end

end Setting

end MarkupScene
