import StaticPromotion.Settings.Value

/-!
# The section of a project file

A project file has sections, each under a line with its name in brackets. Of the tool's own section every line is read: it is
blank, a comment, or a key with a value, which is a truth value, a whole number, a quoted text without escapes, or a list of
such values on one line. All other sections are passed over.

* `Section.lines`   the lines of a section;
* `Section.value?`  the value that a text stands for;
* `Section.read?`   the section as a table; none if a line cannot be read.
-/

namespace StaticPromotion.Section

def trimmed (s : String) : String :=
  String.ofList (Text.strip s.toList)

def isHeader (line : String) : Bool :=
  line.toList.head? = some '['

/-- the lines between a header and the next one -/
def lines (header : String) (all : List String) : List String :=
  ((all.map trimmed).dropWhile (· != header)).drop 1 |>.takeWhile fun line => !isHeader line

/-- cuts a text at the separators outside quotes -/
def pieces (isSeparator : Char → Bool) : Option Char → List Char → List (List Char)
  | _, [] => [[]]
  | quote, c :: rest =>
    if quote.isNone && isSeparator c then [] :: pieces isSeparator none rest
    else
      let after := match quote with
        | some q => if c = q then none else some q
        | none => if c = '"' || c = '\'' then some c else none
      match pieces isSeparator after rest with
      | [] => [[c]]
      | piece :: others => (c :: piece) :: others

/-- the text of a line before a comment -/
def uncommented (line : String) : List Char :=
  (pieces (· == '#') none line.toList).headD []

/-- the text between two quotes of a kind, without escapes -/
def quotedText? (cs : List Char) : Option String :=
  match cs with
  | q :: rest =>
    let inside := rest.dropLast
    if (q = '"' || q = '\'') && rest.getLast? = some q && !inside.contains q && !inside.contains '\\' then
      some (String.ofList inside)
    else none
  | [] => none

def scalar? (cs : List Char) : Option SettingValue :=
  let cs := Text.strip cs
  let text := String.ofList cs
  if text = "true" then some (.bool true)
  else if text = "false" then some (.bool false)
  else
    match quotedText? cs with
    | some s => some (.text s)
    | none => text.toInt?.map .number

def value? (cs : List Char) : Option SettingValue :=
  match Text.strip cs with
  | '[' :: rest =>
    if rest.getLast? = some ']' then
      let items := (pieces (· == ',') none rest.dropLast).filter fun item => !(Text.strip item).isEmpty
      (items.mapM scalar?).map .list
    else none
  | other => scalar? other

def entry? (line : String) : Option (List (String × SettingValue)) :=
  let cs := Text.strip (uncommented line)
  if cs.isEmpty then some []
  else
    match cs.dropWhile (· != '=') with
    | [] => none
    | _ :: value =>
      let name := String.ofList (Text.strip (cs.takeWhile (· != '=')))
      (value? value).map fun v => [(name, v)]

def read? (header : String) (text : String) : Option SettingValue := do
  let entries ← (lines header (text.splitOn "\n")).mapM entry?
  return .table entries.flatten

end StaticPromotion.Section
