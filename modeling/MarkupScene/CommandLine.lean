import MarkupScene.Project.Import

/-!
# Command line

A command names a project and the assets that it is imported into, and may name a file with
options. Its outcome is what it prints, the exit code, and the disk as it leaves it.
-/
namespace MarkupScene

structure Command where
  project : Path
  assets : Path
  options? : Option Path
deriving DecidableEq, Repr

/-- Why arguments are no command. A question for help is none either. -/
inductive CommandFault where
  | usage
  | missingOptionsPath
deriving DecidableEq, Repr

def CommandFault.message : CommandFault → String
  | usage => "Usage: exml-import <project-dir> <assets-root> [--config <options.json>]"
  | missingOptionsPath => "--config requires a path"

namespace Command

/-- The command of the remaining arguments, after the paths and the options file found so far. Of
several options files the last one counts. -/
def parseFrom (paths : List Path) (options? : Option Path) :
    List String → Except CommandFault Command
  | [] =>
    match paths with
    | [project, assets] => .ok { project, assets, options? }
    | _ => .error .usage
  | "--config" :: rest =>
    match rest with
    | [] => .error .missingOptionsPath
    | path :: rest => parseFrom paths (some ⟨path⟩) rest
  | arg :: rest =>
    if arg = "-h" ∨ arg = "--help" then .error .usage
    else parseFrom (paths ++ [⟨arg⟩]) options? rest

def parse (args : List String) : Except CommandFault Command := parseFrom [] none args

end Command

/-- What a command leaves behind. -/
structure Outcome where
  code : UInt8
  output : String := ""
  errors : String := ""
  disk : Disk

namespace ImportReport

def outputLines (r : ImportReport) : List String :=
  ["✅ Imported into " ++ r.target.text,
    "   copied files:     " ++ toString r.copied.length,
    "   converted fonts:  " ++ toString r.converted.length,
    "   animation config: " ++ toString r.animations.length,
    "   artifacts:        " ++ toString r.compiled.stored.length] ++
  r.compiled.diagnostics.map fun d => "   ⚠️  " ++ d.text

def errorLines (r : ImportReport) : List String :=
  r.compiled.skipped.map fun s => "❌ Skipped " ++ s.path.text ++ ": " ++ s.reason

end ImportReport

namespace Command

/-- Text of lines that each end in a line feed. -/
def unlines (lines : List String) : String := .join (lines.map (· ++ "\n"))

/-- The options of a command, read from its file or the usual ones. -/
def options (disk : Disk) (c : Command) : Except Failure Options :=
  match c.options? with
  | some path => disk.readJson Options.decode? path
  | none => .ok {}

def runWith (disk : Disk) (c : Command) (options : Options) : Outcome :=
  match ImportReport.ofProject disk c.project c.assets options with
  | (.error failure, disk) =>
    { code := 1, errors := unlines ["❌ Import failed: " ++ failure.message], disk }
  | (.ok report, disk) =>
    { code := if report.compiled.isSuccess then 0 else 1
      output := unlines report.outputLines
      errors := unlines report.errorLines
      disk }

/-- Runs a command line on a disk. -/
def run (args : List String) (disk : Disk) : Outcome :=
  match parse args with
  | .error fault => { code := 2, errors := unlines [fault.message], disk }
  | .ok c =>
    match c.options disk with
    | .error failure => { code := 1, errors := unlines ["❌ " ++ failure.message], disk }
    | .ok options => runWith disk c options

end Command

end MarkupScene
