import StaticPromotion.Command.Batch
import StaticPromotion.CommandLine.Arguments

/-!
# Commands

* `Command.run`      refactors a file, or the files below a directory that the settings select;
* `Command.explain`  shows for every candidate of a file whether it can be made static, and if not, why;
* `Command.execute`  does what the words of a command line ask for;
* `CommandFault`     what a command does not deal with itself.
-/

namespace StaticPromotion

inductive CommandFault where
  | settings (e : SettingsError)
  | filePattern (e : FileTree.PatternError)
  /-- a pattern to exclude has no part -/
  | emptyPattern
  | unreadableUnit (f : Fault)
deriving Repr

def CommandFault.message : CommandFault → String
  | .settings e => e.message?.getD "the settings are not text, or no table of values of the right types"
  | .filePattern .absolute => "the file pattern must be relative"
  | .filePattern .doubleStar => "a double star must be a whole part of the file pattern"
  | .emptyPattern => "a pattern to exclude is empty"
  | .unreadableUnit f => f.text

namespace Command

open CommandLine

def notFound (p : Path) : Command CommandFault Nat := do
  say .error s!"Input not found: {p.toText}"
  return 1

/-! ## running -/

def overrides (a : RunArguments) : Overrides where
  strict := if a.strict then some (.bool true) else none
  checkOnly := if a.check then some (.bool true) else none
  exclude := a.exclude.map .text
  jsonReport := a.jsonReport

/-- the selected files that are not excluded, in the order of their paths; none if a pattern to exclude is empty -/
def keepIncluded? (t : FileTree) (settings : Settings) (base : Path) :
    List Path → Option (List Path)
  | [] => some []
  | p :: rest =>
    if t.isFile p then
      match settings.isExcluded? p base with
      | none => none
      | some true => keepIncluded? t settings base rest
      | some false => (keepIncluded? t settings base rest).map (p :: ·)
    else keepIncluded? t settings base rest

def sources (t : FileTree) (settings : Settings) (base : Path) : Except CommandFault (List Path) := do
  let selected ← (t.selectBelow base settings.filePattern).mapError .filePattern
  match keepIncluded? t settings base selected with
  | some files => return files
  | none => throw .emptyPattern

/-- the job for a single file; a directory as its destination takes the file under its own name -/
def fileJob (t : FileTree) (a : RunArguments) : Job where
  input := a.path
  dest := a.out.map fun out => if t.isDir out then out.child a.path.name else out
  trace := a.jsonTrace

/-- the job for a file below a directory -/
def memberJob (a : RunArguments) (input relative : Path) : Job where
  input
  dest := a.out.map fun out => out.join relative
  trace := a.jsonTrace.map fun dir => dir.join (relative.withSuffix ".trace.json")

/-- names and jobs -/
def jobs (a : RunArguments) (files : List Path) : List (String × Job) :=
  files.map fun p =>
    let relative := (p.relativeTo? a.path).getD p
    (relative.toText, memberJob a p relative)

def processAll {ε : Type} (tools : Tools) (mode : Mode) : List (String × Job) → Command ε Batch
  | [] => return []
  | (name, job) :: rest => do
    let result ← job.process tools mode
    return (name, result) :: (← processAll tools mode rest)

def finish {ε : Type} (settings : Settings) (b : Batch) : Command ε Nat := do
  b.summarize settings.checkOnly
  if let some p := settings.jsonReport then b.report p
  return b.exitCode settings.checkOnly

def runWith (tools : Tools) (a : RunArguments) (settings : Settings) : Command CommandFault Nat := do
  let t := (← get).files
  let mode : Mode := { strict := settings.strict, checkOnly := settings.checkOnly }
  if t.isFile a.path then
    finish settings (← processAll tools mode [(a.path.name, fileJob t a)])
  else
    match sources t settings a.path with
    | .error fault => throw fault
    | .ok [] =>
      say .warning s!"No files matching '{settings.filePattern}' found in {a.path.toText}"
      return 0
    | .ok files =>
      say .info s!"Processing {files.length} files from {a.path.toText}..."
      finish settings (← processAll tools mode (jobs a files))

def run (tools : Tools) (a : RunArguments) : Command CommandFault Nat := do
  let t := (← get).files
  if !t.exists? a.path then notFound a.path
  else
    let start := if t.isDir a.path then a.path else a.path.parent
    match Settings.load t tools.readTable start (overrides a) with
    | .ok settings => runWith tools a settings
    | .error e =>
      match e.message? with
      | some message =>
        say .error message
        return 1
      | none => throw (.settings e)

/-! ## explaining -/

def displayName : String :=
  "\"private\" and \"final\" methods that don't access instance data should be \"static\""

def description : String :=
  "Non-overridable methods (private or final) that don't access instance data can be static " ++
    "to prevent any misunderstanding about the contract of the method."

/-- a candidate with its outcome -/
structure Explanation where
  line : Nat
  texts : List String
deriving DecidableEq, Repr

/-- by line, then text by text -/
def Explanation.before (a b : Explanation) : Bool :=
  if a.line = b.line then Path.listBefore a.texts b.texts else a.line < b.line

def explanations (r : RunResult) : List Explanation :=
  let promoted := r.promoted.map fun m =>
    ({ line := m.line, texts := [m.owner, m.name, "[success]static[/success]", ""] } : Explanation)
  let retained := r.retained.map fun m =>
    ({ line := m.line, texts := [m.owner, m.name, "[warning]instance[/warning]", m.reason] } :
      Explanation)
  (promoted ++ retained).mergeSort Explanation.before

def showExplanations {ε : Type} (p : Path) (r : RunResult) : Command ε Unit := do
  display (.text s!"[bold]{displayName}[/bold]")
  display (.text s!"[info]{description}[/info]\n")
  match explanations r with
  | [] => display (.text s!"No private or final instance methods in {marked p}.")
  | rows =>
    display (.table {
      title := p.toText
      columns := ["Line", "Class", "Method", "Outcome", "Reason"]
      rows := rows.map fun e => toString e.line :: e.texts })

def explain (tools : Tools) (p : Path) : Command CommandFault Nat := do
  match (← get).files.lookup p with
  | .file _ bytes =>
    match FileTree.textOf bytes with
    | .error f =>
      say .error s!"Failed to read {p.toText}: {f.message}"
      return 1
    | .ok code =>
      match Refactoring.run true code (tools.parse code) with
      | .error fault => throw (.unreadableUnit fault)
      | .ok (result, journal) =>
        showLog tools.verbose journal.log.toList
        if result.success then
          showExplanations p result
          return 0
        else
          say .error ("; ".intercalate result.errors)
          return 1
  | _ => notFound p

/-! ## command lines -/

def execute (tools : Tools) (words : List String) : Command CommandFault Nat :=
  match Request.read words with
  | .error reason => return reason.exitCode
  | .ok request =>
    let tools := { tools with verbose := request.verbose }
    match request.invocation with
    | .run a => run tools a
    | .explain p => explain tools p

end Command

end StaticPromotion
