import Polled.BuildPlan

/-!
What a command line asks for.

Options may stand before or after the task, and a cluster of short ones behind a single dash. Behind `--`
every argument is a path.
-/

namespace Polled

inductive Task where
  | build (path : Path) (outDir : Option Path) (outputs : List OutputForm)
  | check (path : Path)
  deriving DecidableEq, Repr

inductive TaskName where
  | build
  | check
  deriving DecidableEq, Repr

def TaskName.ofName? : String → Option TaskName
  | "build" => some .build
  | "check" => some .check
  | _ => none

inductive Invocation where
  | perform (verbosity : Nat) (task : Task)
  | version
  | help (task : Option TaskName)
  /-- The command line makes no sense. -/
  | refused
  deriving DecidableEq, Repr

inductive Argument where
  | separator
  | long (name : String) (value : Option String)
  | short (letters : List Char)
  | plain (text : String)
  deriving DecidableEq, Repr

/-- A single dash is a plain argument. -/
def Argument.ofText (s : String) : Argument :=
  match s.toList with
  | ['-', '-'] => .separator
  | '-' :: '-' :: rest =>
    let value := match rest.dropWhile (· != '=') with
      | _ :: value => some (String.ofList value)
      | [] => none
    .long (String.ofList (rest.takeWhile (· != '='))) value
  | '-' :: c :: rest => .short (c :: rest)
  | _ => .plain s

/-- The arguments of a task as far as they are read. -/
structure TaskDraft where
  verbosity : Nat
  path : Option Path
  outDir : Option Path
  outputs : List OutputForm
  deriving DecidableEq, Repr

namespace TaskDraft

def start : TaskDraft := ⟨0, none, none, []⟩

def more (d : TaskDraft) : TaskDraft := { d with verbosity := d.verbosity + 1 }

/-- A path is given once and is not empty. -/
def setPath (d : TaskDraft) (s : String) : Option TaskDraft :=
  if d.path.isSome || s.isEmpty then none else some { d with path := some ⟨s⟩ }

def setOutDir (d : TaskDraft) (s : String) : Option TaskDraft :=
  if d.outDir.isSome || s.isEmpty then none else some { d with outDir := some ⟨s⟩ }

def addOutput (d : TaskDraft) (s : String) : Option TaskDraft :=
  (OutputForm.ofName? s).map fun f => { d with outputs := d.outputs ++ [f] }

def valued? (task : TaskName) (name : String) : Option (TaskDraft → String → Option TaskDraft) :=
  match task, name with
  | .build, "out-dir" => some setOutDir
  | .build, "emit" => some addOutput
  | _, _ => none

inductive Cluster where
  | done (d : TaskDraft)
  | help
  | refused
  /-- The last letter takes the next argument. -/
  | awaiting (d : TaskDraft)

def cluster (task : TaskName) (d : TaskDraft) : List Char → Cluster
  | [] => .done d
  | 'v' :: rest => cluster task d.more rest
  | 'h' :: _ => .help
  | 'o' :: rest =>
    match task, rest with
    | .check, _ => .refused
    | .build, [] => .awaiting d
    | .build, c :: rest =>
      match d.setOutDir (String.ofList (if c == '=' then rest else c :: rest)) with
      | some d => .done d
      | none => .refused
  | _ :: _ => .refused

/-- The value of an option may be any argument that does not look like an option. -/
def isValue (s : String) : Bool :=
  match Argument.ofText s with
  | .plain _ => true
  | _ => false

def finish (task : TaskName) (outer : Nat) (d : TaskDraft) : Invocation :=
  let verbosity := if d.verbosity = 0 then outer else d.verbosity
  match task, d.path with
  | .build, path => .perform verbosity (.build (path.getD ⟨"."⟩) d.outDir d.outputs)
  | .check, some path => .perform verbosity (.check path)
  | .check, none => .refused

def readPaths (d : TaskDraft) : List String → Option TaskDraft
  | [] => some d
  | s :: rest => (d.setPath s).bind (readPaths · rest)

/-- Reads the arguments of a task. An option whose value is still to come is kept in `waiting`. -/
def read (task : TaskName) (outer : Nat) :
    (waiting : Option (TaskDraft → String → Option TaskDraft)) → TaskDraft → List String → Invocation
  | none, d, [] => d.finish task outer
  | some _, _, [] => .refused
  | some set, d, s :: rest =>
    if isValue s then
      match set d s with
      | some d => read task outer none d rest
      | none => .refused
    else .refused
  | none, d, s :: rest =>
    match Argument.ofText s with
    | .separator =>
      match d.readPaths rest with
      | some d => d.finish task outer
      | none => .refused
    | .plain s =>
      match d.setPath s with
      | some d => read task outer none d rest
      | none => .refused
    | .long "verbose" none => read task outer none d.more rest
    | .long "help" none => .help (some task)
    | .long name value =>
      match valued? task name, value with
      | some set, some v =>
        match set d v with
        | some d => read task outer none d rest
        | none => .refused
      | some set, none => read task outer (some set) d rest
      | none, _ => .refused
    | .short letters =>
      match cluster task d letters with
      | .done d => read task outer none d rest
      | .awaiting d => read task outer (some setOutDir) d rest
      | .help => .help (some task)
      | .refused => .refused

end TaskDraft

namespace Invocation

/-- Short options before the task: how often more is to be reported, or what is asked for instead of a
task. -/
def leading (verbosity : Nat) : List Char → Except Invocation Nat
  | [] => .ok verbosity
  | 'v' :: rest => leading (verbosity + 1) rest
  | 'V' :: _ => .error .version
  | 'h' :: _ => .error (.help none)
  | _ :: _ => .error .refused

def helpTopic : List String → Invocation
  | [] => .help none
  | [s] =>
    match TaskName.ofName? s with
    | some task => .help (some task)
    | none => if s == "help" then .help none else .refused
  | _ => .refused

/-- Reads a command line. Reporting asked for behind the task counts instead of what is asked for before
it. -/
def read (verbosity : Nat) : List String → Invocation
  | [] => .refused
  | s :: rest =>
    match Argument.ofText s with
    | .separator => .refused
    | .long "verbose" none => read (verbosity + 1) rest
    | .long "version" none => .version
    | .long "help" none => .help none
    | .long _ _ => .refused
    | .short letters =>
      match leading verbosity letters with
      | .ok verbosity => read verbosity rest
      | .error other => other
    | .plain s =>
      match TaskName.ofName? s with
      | some task => TaskDraft.read task verbosity none .start rest
      | none => if s == "help" then helpTopic rest else .refused

def ofArguments (args : List String) : Invocation := read 0 args

end Invocation

end Polled
