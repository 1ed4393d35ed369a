import StaticPromotion.Command.Console
import StaticPromotion.Refactoring

/-!
# Refactoring files

A job is a file to be refactored, with the places for its new text and for its trace. Without a place for the text the file
itself is replaced, and only if a method was promoted. What a job makes of the bytes of its file is a matter of those bytes
alone; a file that cannot be read as text, or a place that cannot be written, makes the job fail and no other.

* `Job.refactor`      the result for the bytes of a file;
* `Job.process`       the whole job;
* `Batch`             the results of jobs by name, in order;
* `Batch.summarize`   shows what became of the files;
* `Batch.document`    the report;
* `Batch.exitCode`    1 if a file failed or, when only checking, would change.
-/

namespace StaticPromotion

inductive JobError where
  | file (e : FileError)
  | fault (f : Fault)
deriving DecidableEq, Repr

def JobError.message : JobError → String
  | .file e => e.message
  | .fault f => f.text

/-- what to do with files -/
structure Mode where
  strict : Bool := false
  checkOnly : Bool := false
deriving Repr

structure Job where
  input : Path
  dest : Option Path := none
  trace : Option Path := none
deriving Repr

namespace Job

def refactor (tools : Tools) (mode : Mode) (bytes : List UInt8) :
    Except Fault (RunResult × Journal) := do
  let code ← (FileTree.textOf bytes).mapError .undecodable
  Refactoring.run mode.strict code (tools.parse code)

def failed (e : JobError) : RunResult :=
  { success := false, errors := [e.message] }

/-- writes a file below directories that are made if needed -/
def save (p : Path) (text : String) : Command FileError Unit :=
  Command.change (FileTree.writeBelow p (Utf8.encode text))

/-- notes where a trace went -/
def noteTrace {ε : Type} (p : Path) : Command ε Unit :=
  modify fun s =>
    match s.files.lookup p with
    | .file place _ => { s with traces := s.traces ++ [place] }
    | _ => s

def saveTrace (p : Path) (trace : Trace) : Command JobError Unit :=
  let saved : Command FileError Unit := do
    save p trace.document.render
    noteTrace p
    Command.say .info s!"Trace saved to {Command.marked p}"
  saved.recover fun e => Command.say .error s!"Failed to write trace: {e.message}"

def methodCount (r : RunResult) : String :=
  s!"({r.promoted.length} method(s))"

/-- replaces the file, or writes the new text to its place -/
def saveText (job : Job) (r : RunResult) : Command FileError Unit := do
  match job.dest with
  | some dest =>
    save dest r.code
    Command.say .success s!"Refactored: {Command.marked job.input} -> {Command.marked dest}"
  | none =>
    if r.changed then
      Command.change (FileTree.write job.input (Utf8.encode r.code))
      Command.say .success s!"Refactored: {Command.marked job.input} {methodCount r}"

def read (p : Path) : Command JobError (List UInt8) := do
  match (← get).files.lookup p with
  | .file _ bytes => return bytes
  | .directory _ => throw (.file (.isDirectory p))
  | .blocked => throw (.file (.notDirectory p))
  | .absent _ | .noWay => throw (.file (.missing p))

def attempt (tools : Tools) (mode : Mode) (job : Job) : Command JobError RunResult := do
  let (result, journal) ←
    match refactor tools mode (← read job.input) with
    | .ok done => pure done
    | .error fault => throw (.fault fault)
  Command.showLog tools.verbose journal.log.toList
  if let some trace := job.trace then saveTrace trace result.trace
  if mode.checkOnly then
    if result.changed then
      Command.say .info s!"Would change: {Command.marked job.input} {methodCount result}"
  else if result.success then
    (job.saveText result).recover fun e => throw (.file e)
  return result

def process {ε : Type} (tools : Tools) (mode : Mode) (job : Job) : Command ε RunResult :=
  (job.attempt tools mode).recover fun e => do
    Command.say .error s!"Failed to process {job.input.toText}: {e.message}"
    return failed e

end Job

/-! ## batches -/

abbrev Batch := List (String × RunResult)

namespace Batch

def count (b : Batch) (test : RunResult → Bool) : Nat :=
  (b.filter fun entry => test entry.2).length

def promotedCount (b : Batch) : Nat :=
  b.foldl (fun total entry => total + entry.2.promoted.length) 0

/-- nothing to report: no error and no change -/
def isQuiet (r : RunResult) : Bool :=
  r.success && !r.hasErrors && !r.changed

def status (r : RunResult) : String :=
  if !r.success then "❌ Failed" else if r.hasErrors then "⚠️ Skipped" else "✏️ Changed"

def row (entry : String × RunResult) : List String :=
  let (name, r) := entry
  [name, status r, toString r.promoted.length, "; ".intercalate r.errors]

def table (b : Batch) : ShownTable where
  title := "Staticizer Report"
  columns := ["File", "Status", "Promoted", "Issues"]
  rows := (b.filter fun entry => !isQuiet entry.2).map row

def summarize {ε : Type} (b : Batch) (checkOnly : Bool) : Command ε Unit := do
  let total := b.length
  let changed := b.count fun r => r.success && r.changed
  let failures := b.count fun r => !r.success || r.hasErrors
  let verb := if checkOnly then "would change" else "changed"
  if failures = 0 && changed = 0 then
    Command.say .success s!"Batch Complete: {total} file(s) checked, nothing to change."
  else
    Command.display (.table b.table)
    Command.display (.text (s!"\n[bold]Summary:[/bold] {changed}/{total} file(s) {verb}, " ++
      s!"{b.promotedCount} method(s), {failures} with issues."))

def resultDocument (r : RunResult) : Document :=
  .object [("success", .bool r.success), ("changed", .bool r.changed), ("errors", .texts r.errors),
    ("promoted", .list (r.promoted.map fun m =>
      .object [("owner", .text m.owner), ("name", .text m.name), ("line", .number m.line)])),
    ("retained", .list (r.retained.map fun m =>
      .object [("owner", .text m.owner), ("name", .text m.name), ("line", .number m.line),
        ("reason", .text m.reason)]))]

def document (b : Batch) : Document :=
  .object [("files", .object (b.map fun entry => (entry.1, resultDocument entry.2))),
    ("summary", .object [("files", .number b.length), ("changed", .number (b.count RunResult.changed)),
      ("failed", .number (b.count fun r => !r.success)), ("promoted", .number b.promotedCount)])]

def report {ε : Type} (b : Batch) (p : Path) : Command ε Unit :=
  let saved : Command FileError Unit := do
    Job.save p b.document.render
    Command.say .info s!"Report saved to {Command.marked p}"
  saved.recover fun e => Command.say .error s!"Failed to write report: {e.message}"

def exitCode (b : Batch) (checkOnly : Bool) : Nat :=
  if b.any fun entry => !entry.2.success then 1
  else if checkOnly && b.any fun entry => entry.2.changed then 1
  else 0

end Batch

end StaticPromotion
