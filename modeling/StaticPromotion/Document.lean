import StaticPromotion.Text.Quoted

/-!
# Structured reports

`Document` is the data that reports and traces are made of: objects with their members in order, lists, texts, whole
numbers, truth values and the absent value. `Document.render` writes it with one item a line, two spaces of indentation a
level, and every character outside ASCII by its UTF-16 units.
-/

namespace StaticPromotion

inductive Document where
  | null
  | bool (b : Bool)
  | number (n : Int)
  | text (s : String)
  | list (items : List Document)
  | object (members : List (String × Document))
deriving Inhabited

namespace Document

def texts (items : List String) : Document :=
  .list (items.map .text)

/-! ## writing -/

/-- a code point as UTF-16 units, each written as `\u` and four digits -/
def escapeUnits (code : Nat) : List Char :=
  let unit (n : Nat) := '\\' :: 'u' :: Text.hexDigits 4 n
  if code < 0x10000 then unit code
  else unit (0xD800 + (code - 0x10000) / 0x400) ++ unit (0xDC00 + (code - 0x10000) % 0x400)

def escapeChar (c : Char) : List Char :=
  if c == '"' || c == '\\' then ['\\', c]
  else if c == '\n' then ['\\', 'n']
  else if c == '\r' then ['\\', 'r']
  else if c == '\t' then ['\\', 't']
  else if c == '\x08' then ['\\', 'b']
  else if c == '\x0c' then ['\\', 'f']
  else if 0x20 ≤ c.toNat && c.toNat < 0x7F then [c]
  else escapeUnits c.toNat

def writeText (s : String) : String :=
  String.ofList ('"' :: s.toList.flatMap escapeChar ++ ['"'])

def newline (depth : Nat) : String :=
  String.ofList ('\n' :: List.replicate (2 * depth) ' ')

mutual

def renderAt (depth : Nat) : Document → String
  | .null => "null"
  | .bool b => if b then "true" else "false"
  | .number n => toString n
  | .text s => writeText s
  | .list [] => "[]"
  | .list items => "[" ++ renderItems depth items ++ newline depth ++ "]"
  | .object [] => "\x7b\x7d"
  | .object members => "\x7b" ++ renderMembers depth members ++ newline depth ++ "\x7d"

def renderItems (depth : Nat) : List Document → String
  | [] => ""
  | [item] => newline (depth + 1) ++ renderAt (depth + 1) item
  | item :: rest =>
    newline (depth + 1) ++ renderAt (depth + 1) item ++ "," ++ renderItems depth rest

def renderMembers (depth : Nat) : List (String × Document) → String
  | [] => ""
  | [(name, value)] =>
    newline (depth + 1) ++ writeText name ++ ": " ++ renderAt (depth + 1) value
  | (name, value) :: rest =>
    newline (depth + 1) ++ writeText name ++ ": " ++ renderAt (depth + 1) value ++ "," ++
      renderMembers depth rest

end

def render (d : Document) : String :=
  d.renderAt 0

end Document

end StaticPromotion
