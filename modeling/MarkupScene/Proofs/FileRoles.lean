import MarkupScene.Proofs.DiskGrowth
import MarkupScene.Proofs.IntakeFrames

/-!
# Roles of files

What becomes of one file that is taken in. Its role follows from its extension and its text alone: a
file is noted, converted or copied, or it is left out because it looks like a configuration and
cannot be decoded as one. A copy is left out as well where something is there already. The main
statement lists these cases, and nothing else is possible.
-/
namespace MarkupScene

open MarkupScene.Path Disk Taking

def FileRole.output? : FileRole → Option Path
  | .converted target | .copied target => some target
  | .markup | .manifest _ | .theme _ | .animation => none

/-- A document that looks like a configuration and cannot be decoded as one. -/
def Undecoded (disk : Disk) (path : Path) : Prop :=
  path.extension? = some "json" ∧ ∃ v, value? disk path = some v ∧
    (ConfigKind.ofValue? v = some .manifest ∧ (Manifest.decode? v).isNone ∨
      ConfigKind.ofValue? v = some .theme ∧ (Theme.decode? v).isNone)

/-- A file that is no markup, no configuration and no font that can be converted. -/
structure Plain (disk : Disk) (path : Path) : Prop where
  markup : path.extension? ≠ some "exml"
  configuration : path.extension? = some "json" →
    (value? disk path).bind ConfigKind.ofValue? = none
  font : path.extension? = some "fnt" → (font? disk path).isNone

/-- Files that a walk notes and leaves where they are. -/
inductive Noted (disk : Disk) (path : Path) : FileRole → Prop where
  | markup : path.extension? = some "exml" → Noted disk path .markup
  | manifest {v m} : path.extension? = some "json" → value? disk path = some v →
      ConfigKind.ofValue? v = some .manifest → Manifest.decode? v = some m →
      Noted disk path (.manifest m)
  | theme {v t} : path.extension? = some "json" → value? disk path = some v →
      ConfigKind.ofValue? v = some .theme → Theme.decode? v = some t → Noted disk path (.theme t)
  | animation {v} : path.extension? = some "json" → value? disk path = some v →
      ConfigKind.ofValue? v = some .animation → Noted disk path .animation

/-- What becomes of a file, and of the disk. -/
inductive Takes (source place : Path) (i : Intake) : Intake → Prop where
  | noted {role} : Noted i.disk source role →
      Takes source place i { i with files := i.files ++ [⟨source, role⟩] }
  | undecoded : Undecoded i.disk source → Takes source place i i
  | occupied : Plain i.disk source → i.disk.exists? place = true → Takes source place i i
  | copied {content d} : Plain i.disk source → i.disk.exists? place = false →
      i.disk.readBytes source = .ok content → i.disk.writeBytes place content = .ok d →
      Takes source place i ⟨d, i.files ++ [⟨source, .copied place⟩]⟩
  | converted {font d} : source.extension? = some "fnt" → font? i.disk source = some font →
      i.disk.writeText place font.classicText = .ok d →
      Takes source place i ⟨d, i.files ++ [⟨source, .converted place⟩]⟩

theorem Noted.output?_eq_none {disk : Disk} {path : Path} {role : FileRole}
    (h : Noted disk path role) : role.output? = none := by
  cases h <;> rfl

theorem Takes.files {source place : Path} {i after : Intake} (h : Takes source place i after) :
    ∃ added, after.files = i.files ++ added ∧ (added = [] ∨ ∃ role, added = [⟨source, role⟩] ∧
      ∀ out, role.output? = some out → out = place) := by
  cases h with
  | @noted role hnoted =>
    refine ⟨[⟨source, role⟩], rfl, .inr ⟨role, rfl, fun out hout => ?_⟩⟩
    rw [hnoted.output?_eq_none] at hout
    cases hout
  | undecoded => exact ⟨[], by simp, .inl rfl⟩
  | occupied => exact ⟨[], by simp, .inl rfl⟩
  | copied =>
    exact ⟨_, rfl, .inr ⟨_, rfl, fun out hout => (Option.some.inj hout).symm⟩⟩
  | converted =>
    exact ⟨_, rfl, .inr ⟨_, rfl, fun out hout => (Option.some.inj hout).symm⟩⟩

namespace Taking

variable {source place : Path} {i after : Intake}

theorem of_change {action : Disk → Except DiskFault Disk} {role : FileRole}
    (h : (do change place action; note source role : Taking Unit).run i = (.ok (), after)) :
    ∃ d, action i.disk = .ok d ∧ after = ⟨d, i.files ++ [⟨source, role⟩]⟩ := by
  rw [run_bind, change, run_get_bind] at h
  cases haction : action i.disk with
  | error fault =>
    rw [haction] at h
    cases h
  | ok d =>
    rw [haction] at h
    cases h
    exact ⟨d, rfl, rfl⟩

theorem of_copyFile (hplain : Plain i.disk source)
    (h : (copyFile source place).run i = (.ok (), after)) : Takes source place i after := by
  rw [copyFile, run_get_bind] at h
  split at h
  · next hexists =>
    cases h
    exact .occupied hplain hexists
  · next hfree =>
    obtain ⟨d, hcopy, rfl⟩ := of_change h
    rw [Disk.copy] at hcopy
    split at hcopy
    · next content hread => exact .copied hplain (by simpa using hfree) hread hcopy
    · cases hcopy

theorem of_takeJson (hextension : source.extension? = some "json")
    (h : (takeJson source place).run i = (.ok (), after)) : Takes source place i after := by
  have hplain : (value? i.disk source).bind ConfigKind.ofValue? = none → Plain i.disk source := by
    intro hnone
    refine ⟨?_, fun _ => hnone, ?_⟩ <;> simp [hextension]
  rw [takeJson, run_get_bind] at h
  split at h
  · next hvalue => exact of_copyFile (hplain (by rw [hvalue]; rfl)) h
  · next v hvalue =>
    split at h
    · next hkind =>
      cases hdecode : Manifest.decode? v with
      | none =>
        rw [hdecode] at h
        cases h
        exact .undecoded ⟨hextension, v, hvalue, .inl ⟨hkind, by rw [hdecode]; rfl⟩⟩
      | some m =>
        rw [hdecode] at h
        cases h
        exact .noted (.manifest hextension hvalue hkind hdecode)
    · next hkind =>
      cases hdecode : Theme.decode? v with
      | none =>
        rw [hdecode] at h
        cases h
        exact .undecoded ⟨hextension, v, hvalue, .inr ⟨hkind, by rw [hdecode]; rfl⟩⟩
      | some t =>
        rw [hdecode] at h
        cases h
        exact .noted (.theme hextension hvalue hkind hdecode)
    · next hkind =>
      cases h
      exact .noted (.animation hextension hvalue hkind)
    · next hkind => exact of_copyFile (hplain (by rw [hvalue]; exact hkind)) h

theorem of_takeFont (hextension : source.extension? = some "fnt")
    (h : (takeFont source place).run i = (.ok (), after)) : Takes source place i after := by
  rw [takeFont, run_get_bind] at h
  split at h
  · next font hfont =>
    obtain ⟨d, hwrite, rfl⟩ := of_change h
    exact .converted hextension hfont hwrite
  · next hfont =>
    refine of_copyFile ⟨by simp [hextension], by simp [hextension], fun _ => ?_⟩ h
    rw [hfont]
    rfl

theorem of_takeFile (h : (takeFile source place).run i = (.ok (), after)) :
    Takes source place i after := by
  unfold takeFile at h
  split at h
  · next hextension =>
    cases h
    exact .noted (.markup hextension)
  · next hextension => exact of_takeJson hextension h
  · next hextension => exact of_takeFont hextension h
  · next hmarkup hjson hfont =>
    exact of_copyFile ⟨hmarkup, fun h => absurd h hjson, fun h => absurd h hfont⟩ h

end Taking

end MarkupScene
