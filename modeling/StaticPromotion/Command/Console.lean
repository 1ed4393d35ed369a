import StaticPromotion.Journal
import StaticPromotion.Settings
import StaticPromotion.Syntax.SourceUnit

/-!
# What a command reads, shows and changes

* `Tools`     what a command cannot do itself: reading the syntax of a text, and the format of project files;
* `Shown`     what a command shows: a line of the log, a text or a table;
* `CommandState`   the files, and what was shown so far;
* `Command`   a step of a command. It may meet a fault; what was done and shown before stays.
-/

namespace StaticPromotion

structure Tools where
  parse : String → ParseTree
  readTable : String → Option SettingValue
  /-- whether details are shown -/
  verbose : Bool := false

structure ShownTable where
  title : String
  columns : List String
  rows : List (List String)
deriving DecidableEq, Repr

inductive Shown where
  | log (line : LogLine)
  | text (s : String)
  | table (t : ShownTable)
deriving DecidableEq, Repr

structure CommandState where
  files : FileTree := {}
  shown : Array Shown := #[]
  /-- where traces were written -/
  traces : List Location := []

abbrev Command (ε : Type) := EStateM ε CommandState

namespace Command

variable {ε : Type}

def display (item : Shown) : Command ε Unit :=
  modify fun s => { s with shown := s.shown.push item }

/-- the sign in front of a command's own messages -/
def sign : LogLevel → String
  | .debug => ""
  | .info => "ℹ️  "
  | .success => "✅ "
  | .warning => "⚠️  "
  | .error => "❌ "

def say (level : LogLevel) (message : String) : Command ε Unit :=
  display (.log ⟨level, sign level ++ message⟩)

/-- the log of a run; its details are shown on demand -/
def showLog (verbose : Bool) (log : List LogLine) : Command ε Unit :=
  modify fun s => { s with
    shown := s.shown ++ (log.filter fun line => verbose || line.level != .debug).map Shown.log }

def change (c : FileChange) : Command FileError Unit := fun s =>
  match c.run s.files with
  | .ok _ files => .ok () { s with files }
  | .error e files => .error e { s with files }

/-- goes on after an error -/
def recover {α δ : Type} (c : Command δ α) (handle : δ → Command ε α) : Command ε α := fun s =>
  match c.run s with
  | .ok a s => .ok a s
  | .error e s => handle e s

/-- a path as it is shown in messages -/
def marked (p : Path) : String :=
  s!"[path]{p.toText}[/path]"

end Command

end StaticPromotion
