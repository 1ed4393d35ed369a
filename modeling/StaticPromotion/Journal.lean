import StaticPromotion.Trace

/-!
# What a run leaves behind: its trace and its log

* `LogLine`     a message with its level;
* `Journal`     a trace and a log, both only ever extended;
* `Journaled`   a step that extends the journal, and may meet an error; what was recorded before the error stays.
-/

namespace StaticPromotion

inductive LogLevel where
  | debug
  | info
  | success
  | warning
  | error
deriving DecidableEq, Repr

def LogLevel.label : LogLevel → String
  | .debug => "DEBUG"
  | .info => "INFO"
  | .success => "SUCCESS"
  | .warning => "WARNING"
  | .error => "ERROR"

structure LogLine where
  level : LogLevel
  message : String
deriving DecidableEq, Repr

structure Journal where
  trace : Trace := {}
  log : Array LogLine := #[]
deriving Inhabited

namespace Journal

def write (j : Journal) (level : LogLevel) (message : String) : Journal :=
  { j with log := j.log.push ⟨level, message⟩ }

def debug (j : Journal) (message : String) : Journal :=
  j.write .debug message

def record (j : Journal) (event : Event) : Journal :=
  { j with trace := j.trace.record event }

def startPhase (j : Journal) (name : String) (detail : String := "") : Journal :=
  { j with trace := j.trace.startPhase name detail }

def endPhase (j : Journal) : Journal :=
  { j with trace := j.trace.endPhase }

def closePhases (j : Journal) : Journal :=
  { j with trace := j.trace.closePhases }

end Journal

end StaticPromotion
