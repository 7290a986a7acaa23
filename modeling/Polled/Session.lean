import Polled.Generation
import Polled.Invocation
import Polled.Output
import Polled.Report

/-!
Carrying out a command line over a file system.
-/

namespace Polled

def programVersion : String := "hang10c 0.1.0"

/-- What a session leaves behind: its exit code, what it prints, remarks for people, and the report of an
error. -/
structure SessionResult where
  exitCode : Nat
  printed : String
  remarks : List String
  report : Option Report

/-- What happened in a task, and how it ended: with closing remarks or with an error in some sources. -/
structure TaskResult where
  log : List Event
  outcome : Except (Sources × CompileError) (List String)

namespace TaskResult

def failed (sources : Sources) (log : List Event) (e : CompileError) : TaskResult :=
  ⟨log, .error (sources, e)⟩

/-- Events are shown first, then what the task has to say at its end. -/
def session (r : TaskResult) (v : Verbosity) : SessionResult :=
  let shown := (r.log.filter (Event.isShown v)).map Event.line
  match r.outcome with
  | .ok remarks => ⟨0, "", shown ++ remarks, none⟩
  | .error (sources, e) => ⟨1, "", shown, some (e.report sources)⟩

end TaskResult

variable {m : Type → Type} [Monad m]

/-- A directory has a manifest, and anything else is taken for a source file. -/
def planFor (fs : FileSystem m) (path : Path) : m (Except CompileError BuildPlan) := do
  if ← fs.isDirectory path then
    let manifest := path.file manifestFile
    if ← fs.isFile manifest then
      BuildPlan.load fs path
    else
      return .error (.manifest (.absent path.text) manifest.text)
  else
    return BuildPlan.ofFile path

def BuildPlan.compile (b : BuildPlan) (fs : FileSystem m) : m (Attempt Program) :=
  Polled.compile (fs.modules b.sourceDir) b.entry

def runBuild (fs : FileSystem m) (path : Path) (outDir : Option Path) (outputs : List OutputForm) :
    m TaskResult := do
  match ← planFor fs path with
  | .error e => return .failed .empty [] e
  | .ok plan =>
    let plan := plan.override outDir outputs
    let a ← plan.compile fs
    match a.outcome with
    | .error e => return .failed a.sources a.log e
    | .ok p =>
      let d ← fs.deliver p plan.outDir plan.outputs
      let log := a.log ++ d.moved.map fun path => .outputWritten path.text
      match d.outcome with
      | .error e => return .failed a.sources log e
      | .ok () => return ⟨log, .ok (d.moved.map fun path => "wrote " ++ path.text)⟩

def runCheck (fs : FileSystem m) (path : Path) : m TaskResult := do
  match ← planFor fs path with
  | .error e => return .failed .empty [] e
  | .ok plan =>
    let a ← plan.compile fs
    match a.outcome with
    | .error e => return .failed a.sources a.log e
    | .ok p =>
      let generated := (p.routines.filter fun f => !f.isNative).length
      return ⟨a.log, .ok [s!"ok: {generated} function(s) generated from `{plan.entry}`"]⟩

def Task.run (fs : FileSystem m) : Task → m TaskResult
  | .build path outDir outputs => runBuild fs path outDir outputs
  | .check path => runCheck fs path

def helpText : Option TaskName → String
  | none =>
    "Generate resumable C activations from hang10 sources

Usage: hang10c [OPTIONS] <COMMAND>

Commands:
  build  Generate C (or IR) for a source file or a project directory
  check  Check that a source file or project generates without writing anything
  help   Print this message or the help of the given subcommand(s)

Options:
  -v, --verbose...  Increase log verbosity (-v info, -vv debug, -vvv trace)
  -h, --help        Print help
  -V, --version     Print version
"
  | some .build =>
    "Generate C (or IR) for a source file or a project directory

Usage: hang10c build [OPTIONS] [PATH]

Arguments:
  [PATH]  A `.ht` file or a directory containing hang10.toml [default: .]

Options:
  -o, --out-dir <OUT_DIR>  Output directory (overrides the manifest)
      --emit <EMIT>        Output formats (overrides the manifest) [possible values: c, ir]
  -v, --verbose...         Increase log verbosity (-v info, -vv debug, -vvv trace)
  -h, --help               Print help
"
  | some .check =>
    "Check that a source file or project generates without writing anything

Usage: hang10c check [OPTIONS] <PATH>

Arguments:
  <PATH>  A `.ht` file or a directory containing hang10.toml

Options:
  -v, --verbose...  Increase log verbosity (-v info, -vv debug, -vvv trace)
  -h, --help        Print help
"

def usageExitCode : Nat := 2

def Invocation.run (fs : FileSystem m) : Invocation → m SessionResult
  | .refused => return ⟨usageExitCode, "", [], none⟩
  | .version => return ⟨0, programVersion ++ "\n", [], none⟩
  | .help task => return ⟨0, helpText task, [], none⟩
  | .perform verbosity task => return (← task.run fs).session (.ofCount verbosity)

end Polled
