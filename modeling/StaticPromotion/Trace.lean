import StaticPromotion.Document

/-!
# The trace of a run

A trace is a list of entries in the order they were recorded. Phases nest: an entry's parent is the place of the
innermost phase open when it was recorded, and the parent of a phase's end is that phase.

* `Event`              what an entry says; `Event.label`, `Event.description` and `Event.metadata` are its texts;
* `startPhase`, `endPhase`, `closePhases`, `record`    the four ways a trace grows. Ending a phase when none is open
                       changes nothing, and closing ends every open phase, innermost first.
-/

namespace StaticPromotion

/-! ## events -/

inductive Event where
  | phaseStart (name detail : String)
  | phaseEnd
  | inspection (method outcome detail : String)
  | resolverPass (owner : String) (index : Int) (admitted : List String)
  | mutation (method before after : String)
  | warning (message : String)
deriving DecidableEq, Repr

namespace Event

def label : Event → String
  | .phaseStart _ _ => "phase_start"
  | .phaseEnd => "phase_end"
  | .inspection _ _ _ => "inspection"
  | .resolverPass _ _ _ => "resolver_pass"
  | .mutation _ _ _ => "source_mutation"
  | .warning _ => "analysis_warning"

def description : Event → String
  | .phaseStart name _ => name
  | .phaseEnd => "End Phase"
  | .inspection method _ _ => s!"Inspecting '{method}'"
  | .resolverPass owner index _ => s!"Resolver pass {index} on {owner}"
  | .mutation method _ _ => s!"Made '{method}' static"
  | .warning message => message

def metadata : Event → Document
  | .phaseStart _ detail => .object [("detail", .text detail)]
  | .phaseEnd => .object []
  | .inspection _ outcome detail => .object [("outcome", .text outcome), ("detail", .text detail)]
  | .resolverPass owner index admitted =>
    .object [("owner", .text owner), ("admitted", .texts admitted), ("pass", .number index)]
  | .mutation _ before after => .object [("before", .text before), ("after", .text after)]
  | .warning _ => .object [("level", .text "warning")]

end Event

structure Entry where
  event : Event
  /-- the place of the parent in the trace -/
  parent : Option Nat
deriving DecidableEq, Repr

def Entry.document (e : Entry) : Document :=
  .object [("type", .text e.event.label), ("description", .text e.event.description),
    ("parent", match e.parent with | none => .null | some place => .number place),
    ("metadata", e.event.metadata)]

/-! ## traces -/

structure Trace where
  entries : Array Entry := #[]
  /-- the places of the phases that are open, innermost first -/
  openPhases : List Nat := []
deriving Inhabited

namespace Trace

def add (t : Trace) (event : Event) (parent : Option Nat) : Trace :=
  { t with entries := t.entries.push ⟨event, parent⟩ }

def record (t : Trace) (event : Event) : Trace :=
  t.add event t.openPhases.head?

def startPhase (t : Trace) (name : String) (detail : String := "") : Trace :=
  let started := t.record (.phaseStart name detail)
  { started with openPhases := t.entries.size :: t.openPhases }

def endPhase (t : Trace) : Trace :=
  match t.openPhases with
  | [] => t
  | phase :: outer => { t.add .phaseEnd (some phase) with openPhases := outer }

def closePhases (t : Trace) : Trace :=
  t.openPhases.foldl (fun closing _ => closing.endPhase) t

def document (t : Trace) : Document :=
  .list (t.entries.toList.map Entry.document)

end Trace

end StaticPromotion
