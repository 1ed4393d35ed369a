import StaticPromotion.Analysis
import StaticPromotion.Splice

/-!
# Refactoring one unit

A run checks the tree, builds the table, analyzes it and changes the text. It fails closed: a text with syntax errors, or a
fault in a later stage, leaves the text as it was and is reported as an error; under `strict` the run also counts as failed.
The text around a syntax error must be decodable, though: a fault there is the caller's.

* `RunResult`        the text, the errors, the methods promoted and retained, and the trace;
* `Refactoring.run`  the whole run, with its log.
-/

namespace StaticPromotion

structure PromotedMethod where
  owner : String
  name : String
  line : Nat
deriving DecidableEq, Repr

structure RetainedMethod where
  owner : String
  name : String
  line : Nat
  reason : String
deriving DecidableEq, Repr

structure RunResult where
  code : String := ""
  errors : List String := []
  success : Bool := true
  promoted : List PromotedMethod := []
  retained : List RetainedMethod := []
  trace : Trace := {}

namespace RunResult

def hasErrors (r : RunResult) : Bool :=
  !r.errors.isEmpty

def changed (r : RunResult) : Bool :=
  !r.promoted.isEmpty

/-- the text, or under `strict` the message of a failed run -/
def codeOrMessage (r : RunResult) : Except String String :=
  if r.success then .ok r.code
  else .error ("Refactoring failed: " ++ "; ".intercalate r.errors)

end RunResult

namespace Refactoring

/-! ## failing closed -/

def failure (strict : Bool) (code message : String) (j : Journal) : RunResult × Journal :=
  let j := (j.record (.warning message)).closePhases
  if strict then
    ({ code, errors := [message], success := false, trace := j.trace }, j.write .error message)
  else
    ({ code, errors := [s!"{message}; file left unchanged"], trace := j.trace },
      j.write .warning message)

/-! ## the stages after parsing -/

structure Stages where
  analysis : Analysis
  table : Table
  code : String

/-- runs the analysis on a journal of its own caller -/
def analyzeStage (t : Table) : Journaled Analysis := fun j =>
  match t.analyze.run { scopes := t.scopes, journal := j } with
  | .ok _ st => .ok st.analysis st.journal
  | .error fault st => .error fault st.journal

def stages (source : SourceUnit) : Journaled Stages := do
  modify (·.startPhase "Indexing" "Classes, members and scopes")
  let table ←
    match Table.ofSource source with
    | .ok table => pure table
    | .error fault => throw fault
  modify (·.endPhase)
  modify (·.startPhase "Analysis" s!"{table.classes.size} class scope(s)")
  let analysis ← analyzeStage table
  modify (·.endPhase)
  modify (·.startPhase "Rewriting" s!"{analysis.promoted.length} method(s)")
  let code ← table.promote analysis.promoted
  modify (·.endPhase)
  return { analysis, table, code }

def success (s : Stages) (j : Journal) : RunResult × Journal :=
  let t := s.table
  let j := j.endPhase
  let result : RunResult := {
    code := s.code
    promoted := s.analysis.promoted.map fun m =>
      { owner := t.displayName m.owner, name := (t.method m).name, line := (t.method m).line }
    retained := s.analysis.retained.map fun o =>
      { owner := t.displayName o.method.owner, name := (t.method o.method).name
        line := (t.method o.method).line, reason := o.decision.reason t }
    trace := j.trace }
  (result, j)

/-! ## the run -/

def shownBool (b : Bool) : String :=
  if b then "True" else "False"

/-- the journal when parsing starts -/
def opening (strict : Bool) : Journal :=
  (({} : Journal).startPhase "Staticizer Pipeline" s!"strict={shownBool strict}").startPhase
    "Parsing" "Java source -> syntax tree"

def run (strict : Bool) (code : String) (tree : ParseTree) : Except Fault (RunResult × Journal) :=
  match (SourceUnit.ofText code tree).check with
  | .error (.syntaxError e) =>
    .ok (failure strict code s!"Parse Error: {e.message}" (opening strict))
  | .error fault => .error fault
  | .ok source =>
    match (stages source).run (opening strict).endPhase with
    | .ok done j => .ok (success done j)
    | .error fault j =>
      .ok (failure strict code fault.internalMessage (j.debug "Internal error"))

/-- the analysis alone; a syntax error is the caller's -/
def analyze (code : String) (tree : ParseTree) : Except Fault (Table × Analysis) := do
  let source ← (SourceUnit.ofText code tree).check
  let table ← Table.ofSource source
  match table.analyze.run { scopes := table.scopes } with
  | .ok _ st => return (table, st.analysis)
  | .error fault _ => throw fault

end Refactoring

end StaticPromotion
