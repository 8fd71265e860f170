import MarkupScene.Project.Intake
import MarkupScene.Proofs.DiskWrites

/-!
# What taking in leaves alone

A resource tree is taken in step by step, and each step writes at most one file. The main statement
is that all of them lie below the target: the walk goes down to names that are found in directories,
and such names lead nowhere else.
-/
namespace MarkupScene

open MarkupScene.Path Disk

namespace Disk

/-- Directories on a proper disk list proper names. -/
theorem Proper.mem_readDirectory {d : Disk} (hd : d.Proper) {p : Path} {names : List String}
    (h : d.readDirectory p = .ok names) : ∀ n ∈ names, ProperName n := by
  have hlisted : ∀ l, ∀ n ∈ d.namesIn l, ProperName n := by
    intro l n hn
    obtain ⟨named, hnamed, rfl⟩ := List.mem_map.1 hn
    obtain ⟨⟨k, e⟩, hentry, hname⟩ := List.mem_filterMap.1 (Text.Dictionary.mem_ofList hnamed)
    dsimp only at hname
    split at hname
    · next last hlast =>
      split at hname
      · obtain rfl := Option.some.inj hname
        exact hd.entries _ hentry _ (List.mem_of_getLast? hlast)
      · cases hname
    · cases hname
  unfold readDirectory at h
  split at h
  · next l _ =>
    obtain rfl := Except.ok.inj h
    exact hlisted l
  · cases h
  · cases h
  · cases h

end Disk

namespace Taking

variable {α β : Type}

/-- A step that writes inside of some locations only and has a result with a property, when the
walk starts from a directory. -/
def Keeps (here : Location) (inside : Location → Prop) (m : Taking α) (p : α → Prop) : Prop :=
  ∀ i : Intake, i.disk.working = here → i.disk.Proper →
    Writes inside i.disk (m.run i).2.disk ∧ ∀ a, (m.run i).1 = .ok a → p a

theorem run_bind (m : Taking α) (f : α → Taking β) (i : Intake) :
    (m >>= f).run i =
      match m.run i with
      | (.ok a, after) => (f a).run after
      | (.error failure, after) => (.error failure, after) := by
  change (ExceptT.bind m f : Taking β) i = _
  simp only [ExceptT.bind, ExceptT.mk, ExceptT.bindCont, bind, StateT.bind, ExceptT.run]
  rcases m i with ⟨failure | a, after⟩ <;> rfl

theorem run_get_bind (f : Intake → Taking β) (i : Intake) :
    ((get : Taking Intake) >>= f).run i = (f i).run i := rfl

namespace Keeps
variable {here : Location} {inside : Location → Prop} {m : Taking α} {f : α → Taking β}
  {p : α → Prop} {q : β → Prop}

theorem pure {a : α} (h : p a) : Keeps here inside (Pure.pure a : Taking α) p := by
  intro _ _ _
  refine ⟨.refl _, fun b hb => ?_⟩
  obtain rfl := Except.ok.inj hb
  exact h

theorem throw (failure : Failure) :
    Keeps here inside (MonadExcept.throw failure : Taking α) p :=
  fun _ _ _ => ⟨.refl _, fun _ h => nomatch h⟩

theorem bind (hm : Keeps here inside m p) (hf : ∀ a, p a → Keeps here inside (f a) q) :
    Keeps here inside (m >>= f) q := by
  intro i hworking hproper
  obtain ⟨hfirst, ha⟩ := hm i hworking hproper
  rw [run_bind]
  generalize m.run i = first at hfirst ha
  rcases first with ⟨failure | a, after⟩
  · exact ⟨hfirst, fun _ h => nomatch h⟩
  · obtain ⟨hsecond, hb⟩ :=
      hf a (ha a rfl) after (hfirst.working.trans hworking) (hfirst.proper hproper)
    exact ⟨hfirst.trans hsecond, hb⟩

theorem next (hm : Keeps here inside m fun _ => True) (hf : ∀ a, Keeps here inside (f a) q) :
    Keeps here inside (m >>= f) q :=
  hm.bind fun a _ => hf a

/-- What is done in view of the disk. -/
theorem get {f : Intake → Taking β} (hf : ∀ i, Keeps here inside (f i) q) :
    Keeps here inside ((MonadState.get : Taking Intake) >>= f) q :=
  fun i => hf i i

theorem forM {as : List α} {f : α → Taking Unit}
    (h : ∀ a ∈ as, Keeps here inside (f a) fun _ => True) :
    Keeps here inside (as.forM f) fun _ => True := by
  induction as with
  | nil => exact .pure trivial
  | cons a rest ih =>
    exact .next (h a List.mem_cons_self) fun _ => ih fun b hb => h b (List.mem_cons_of_mem _ hb)

end Keeps

section
variable {here : Location} {inside : Location → Prop}

theorem note_keeps (path : Path) (role : FileRole) :
    Keeps here inside (note path role) fun _ => True :=
  fun _ _ _ => ⟨.refl _, fun _ _ => trivial⟩

theorem names_keeps (directory : Path) :
    Keeps here inside (names directory) fun found => ∀ n ∈ found, ProperName n := by
  intro i _ hproper
  unfold names
  rw [run_get_bind]
  cases hread : i.disk.readDirectory directory with
  | error fault => exact ⟨.refl _, fun _ h => nomatch h⟩
  | ok found =>
    refine ⟨.refl _, fun all hall => ?_⟩
    obtain rfl := Except.ok.inj hall
    exact hproper.mem_readDirectory hread

theorem makeDirectories_keeps (path : Path) :
    Keeps here inside (makeDirectories path) fun _ => True := by
  intro i _ _
  have hwrites : Writes inside i.disk (i.disk.makeDirectories path).2 :=
    (i.disk.makeDirectories_writes path).mono fun _ h => h.elim
  unfold makeDirectories
  rw [run_get_bind]
  generalize i.disk.makeDirectories path = done at hwrites
  rcases done with ⟨fault | ⟨⟩, disk⟩
  · exact ⟨hwrites, fun _ h => nomatch h⟩
  · exact ⟨hwrites, fun _ _ => trivial⟩

theorem change_keeps {path : Path} {action : Disk → Except DiskFault Disk}
    (hinside : inside (path.locate here))
    (haction : ∀ d d', action d = .ok d' → Writes (· = path.locate d.working) d d') :
    Keeps here inside (change path action) fun _ => True := by
  intro i hworking _
  unfold change
  rw [run_get_bind]
  cases hdisk : action i.disk with
  | error fault => exact ⟨.refl _, fun _ h => nomatch h⟩
  | ok disk =>
    refine ⟨(haction _ _ hdisk).mono fun l hl => ?_, fun _ _ => trivial⟩
    rw [hl, hworking]
    exact hinside

section
variable {source target : Path} (hinside : inside (target.locate here))
include hinside

theorem copyFile_keeps : Keeps here inside (copyFile source target) fun _ => True := by
  unfold copyFile
  refine .get fun i => ?_
  split
  · exact .pure trivial
  · exact .next (change_keeps hinside fun _ _ h => copy_writes h) fun _ => note_keeps _ _

theorem takeJson_keeps : Keeps here inside (takeJson source target) fun _ => True := by
  have hnote : ∀ {α : Type} (role : α → FileRole) (decoded : Option α),
      Keeps here inside (noteDecoded source role decoded) fun _ => True := by
    intro α role decoded
    cases decoded with
    | some a => exact note_keeps _ _
    | none => exact .pure trivial
  unfold takeJson
  refine .get fun i => ?_
  split
  · exact copyFile_keeps hinside
  · split
    · exact hnote _ _
    · exact hnote _ _
    · exact note_keeps _ _
    · exact copyFile_keeps hinside

theorem takeFont_keeps : Keeps here inside (takeFont source target) fun _ => True := by
  unfold takeFont
  refine .get fun i => ?_
  split
  · exact .next (change_keeps hinside fun _ _ h => writeText_writes h) fun _ => note_keeps _ _
  · exact copyFile_keeps hinside

theorem takeFile_keeps : Keeps here inside (takeFile source target) fun _ => True := by
  unfold takeFile
  split
  · exact note_keeps _ _
  · exact takeJson_keeps hinside
  · exact takeFont_keeps hinside
  · exact copyFile_keeps hinside

end

theorem takeTree_keeps {root : Location} (depth : Nat) (source : Path) {target : Path}
    (hroot : root <+: target.locate here) :
    Keeps here (root <+: ·) (takeTree depth source target) fun _ => True := by
  induction depth generalizing source target with
  | zero => exact .throw _
  | succ depth ih =>
    rw [takeTree]
    refine .bind (names_keeps source) fun found hfound => .forM fun name hname => ?_
    have hplace : root <+: (target.join ⟨name⟩).locate here := by
      rw [locate_join_name target here (hfound name hname)]
      exact hroot.trans (List.prefix_append _ _)
    refine .get fun i => ?_
    split
    · exact .next (makeDirectories_keeps _) fun _ => ih _ hplace
    · exact takeFile_keeps hplace

end

end Taking

namespace Intake

theorem ofTree_writes {disk : Disk} (hdisk : disk.Proper) (source target : Path) :
    Writes (target.locate disk.working <+: ·) disk (ofTree disk source target).2.disk :=
  (Taking.takeTree_keeps Disk.pathLimit source (List.prefix_refl _) { disk } rfl hdisk).1

end Intake

end MarkupScene
