import StaticPromotion.Journal
import StaticPromotion.Table
import StaticPromotion.Text.Blank

/-!
# Putting the word into the text

A method becomes static by a splice: after the last keyword of its modifier list, or after the list if it has none; without
a list, in front of the declaration's first named part. Every other byte stays. Splices are applied from the back, so that
the offsets of those still to come stay right; of two at one offset, the one given first is applied first, and ends up behind.

* `Splice`            an offset and the text that goes there;
* `Table.spliceFor`   the splice of a method; a static method, or one without a declaration, has none;
* `Splice.insert`     one splice on some bytes; `Splice.insertAll` all of them;
* `Table.promote`     the new text, with an event for each splice.
-/

namespace StaticPromotion

structure Splice where
  offset : Nat
  text : String
deriving DecidableEq, Repr

/-- after a modifier -/
def Splice.behind : String := " static"

/-- in front of a type -/
def Splice.before : String := "static "

/-! ## where the word goes -/

def Table.spliceFor (t : Table) (id : MethodId) : Option Splice :=
  let m := t.method id
  if m.isStatic then none
  else
    m.node.map fun node =>
      match m.modifiersNode with
      | some list =>
        match (list.children.filter fun c => isModifierWord c.kind).getLast? with
        | some word => ⟨word.stop, Splice.behind⟩
        | none => ⟨list.stop, Splice.behind⟩
      | none => ⟨(node.namedChildren.head?.getD node).start, Splice.before⟩

/-! ## bytes -/

namespace Splice

def insertAt (bytes : List UInt8) (offset : Nat) (text : String) : List UInt8 :=
  bytes.take offset ++ Utf8.encode text ++ bytes.drop offset

def insert (s : Splice) (bytes : List UInt8) : List UInt8 :=
  insertAt bytes s.offset s.text

/-- in the order of application -/
def ordered {α : Type} (splices : List (Splice × α)) : List (Splice × α) :=
  splices.mergeSort fun a b => b.1.offset ≤ a.1.offset

def insertAll (bytes : List UInt8) (splices : List Splice) : List UInt8 :=
  ((ordered (splices.map (·, ()))).map (·.1)).foldl (fun bytes s => s.insert bytes) bytes

/-- a cut `distance` bytes into `length` bytes; a cut in front of them counts from their end -/
def cut (length : Nat) (distance : Int) : Nat :=
  if 0 ≤ distance then distance.toNat else (length + distance).toNat

end Splice

/-! ## the new text -/

abbrev Journaled := EStateM Fault Journal

namespace Table

def decodeOrThrow (bytes : List UInt8) : Journaled String :=
  match Utf8.decode bytes with
  | .ok text => pure text
  | .error f => throw (.undecodable f)

/-- the modifier list of a method before and after a splice -/
def describe (t : Table) (m : MethodId) (s : Splice) : Journaled (String × String) := do
  match (t.method m).modifiersNode with
  | none => return ("", String.ofList (Text.strip s.text.toList))
  | some list =>
    let bytes := t.source.slice list.start list.stop
    let place := Splice.cut bytes.length ((s.offset : Int) - list.start)
    let before ← decodeOrThrow bytes
    return (before, ← decodeOrThrow (Splice.insertAt bytes place s.text))

/-- one splice, recorded -/
def applySplice (t : Table) (bytes : List UInt8) (s : Splice × MethodId) :
    Journaled (List UInt8) := do
  let (before, after) ← t.describe s.2 s.1
  let name := t.qualifiedName s.2
  modify (·.record (.mutation name before after))
  modify (·.debug s!"Made {name} static at byte {s.1.offset}")
  return s.1.insert bytes

def splices (t : Table) (methods : List MethodId) : List (Splice × MethodId) :=
  methods.filterMap fun m => (t.spliceFor m).map (·, m)

def promote (t : Table) (methods : List MethodId) : Journaled String := do
  let bytes ← (Splice.ordered (t.splices methods)).foldlM t.applySplice t.source.bytes.toList
  decodeOrThrow bytes

end Table

end StaticPromotion
