import StaticPromotion.CommandLine.Words
import StaticPromotion.Files.Path

/-!
# Arguments

The tool has two commands. Options in front of the command are for all commands; the words after it are the command's own.

* `Request`        what the words ask for: a command with its arguments, and whether to show details;
* `Request.read`   reads the words, or says why there is nothing to do;
* `NoRequest`      help, the version, or a misuse; `NoRequest.exitCode` is 0 for what was asked for and 2 for a misuse.
-/

namespace StaticPromotion.CommandLine

structure RunArguments where
  path : Path
  out : Option Path := none
  check : Bool := false
  strict : Bool := false
  exclude : List String := []
  jsonReport : Option Path := none
  jsonTrace : Option Path := none
deriving Repr

inductive Invocation where
  | run (arguments : RunArguments)
  | explain (path : Path)
deriving Repr

structure Request where
  verbose : Bool := false
  invocation : Invocation
deriving Repr

inductive NoRequest where
  | help
  | version
  | misused (e : UsageError)
deriving DecidableEq, Repr

def NoRequest.exitCode : NoRequest → Nat
  | .help | .version => 0
  | .misused _ => 2

/-! ## the options -/

inductive Key where
  | help
  | version
  | verbose
  | out
  | check
  | strict
  | exclude
  | jsonReport
  | jsonTrace
deriving DecidableEq, Repr

def helpRule : OptionRule Key :=
  { names := ["-h", "--help"], key := .help, ends := true }

def generalRules : List (OptionRule Key) :=
  [helpRule,
    { names := ["--version"], key := .version, ends := true },
    { names := ["-v", "--verbose"], key := .verbose }]

def runRules : List (OptionRule Key) :=
  [helpRule,
    { names := ["--out"], key := .out, arity := .one },
    { names := ["--check"], key := .check },
    { names := ["--strict"], key := .strict },
    { names := ["--exclude"], key := .exclude, arity := .many },
    { names := ["--json-report"], key := .jsonReport, arity := .one },
    { names := ["--json-trace"], key := .jsonTrace, arity := .one }]

def explainRules : List (OptionRule Key) :=
  [helpRule]

def NoRequest.ofHalt : Halt Key → NoRequest
  | .asked .version => .version
  | .asked _ => .help
  | .misused e => .misused e

/-! ## reading -/

def readWords (rules : List (OptionRule Key)) (words : List String) :
    Except NoRequest (List (Word Key)) :=
  (Word.readAll rules words).mapError .misused

def readOptions (rules : List (OptionRule Key)) (words : List (Word Key)) :
    Except NoRequest (Reading Key) :=
  (Reading.ofWords rules words).mapError .ofHalt

/-- the words after the name of a command, with the path that it needs -/
def readArguments (rules : List (OptionRule Key)) (words : List String) :
    Except NoRequest (Reading Key × Path) := do
  let r ← readOptions rules (← readWords rules words)
  match r.positional with
  | none => throw (.misused .missingArgument)
  | some path => return (r, Path.ofText path)

def RunArguments.ofReading (r : Reading Key) (path : Path) : RunArguments where
  path
  out := (r.valueOf? .out).map Path.ofText
  check := r.has .check
  strict := r.has .strict
  exclude := r.valuesOf .exclude
  jsonReport := (r.valueOf? .jsonReport).map Path.ofText
  jsonTrace := (r.valueOf? .jsonTrace).map Path.ofText

/-- the command, and the words it leaves over -/
def Invocation.read (name : String) (words : List String) :
    Except NoRequest (Invocation × List String) :=
  match name with
  | "run" => do
    let (r, path) ← readArguments runRules words
    return (.run (.ofReading r path), r.leftOver)
  | "explain" => do
    let (r, path) ← readArguments explainRules words
    return (.explain path, r.leftOver)
  | _ => .error (.misused (.unknownCommand name))

/-- all words are looked at as general options first, and only those before the command are read so -/
def Request.read (words : List String) : Except NoRequest Request := do
  let forms ← readWords generalRules words
  let front := forms.takeWhile Word.isOption
  let general ← readOptions generalRules front
  match words.drop front.length with
  | [] => throw (.misused .missingArgument)
  | name :: rest =>
    let (invocation, leftOver) ← Invocation.read name rest
    match general.leftOver ++ leftOver with
    | [] => return { verbose := general.has .verbose, invocation }
    | words => throw (.misused (.leftOver words))

end StaticPromotion.CommandLine
