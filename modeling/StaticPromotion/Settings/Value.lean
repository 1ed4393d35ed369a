import StaticPromotion.Text.Blank

/-!
# Values of settings

A project file holds values of any type. Each reader below accepts what can be understood as the type that a setting has, and
otherwise says what is wrong with the value.

* `SettingValue`          a value in a project file;
* `SettingValue.toBool`   truth values are read generously: also whole numbers zero and one, and some words in any case;
* `SettingValue.toText`   only a text is a text;
* `SettingValue.toPattern`   a text that is not blank, without the blanks around it;
* `SettingValue.items?`   what a loop over the value yields.
-/

namespace StaticPromotion

inductive SettingValue where
  | text (s : String)
  | number (n : Int)
  /-- `mantissa` over ten to the power `places` -/
  | decimal (mantissa : Int) (places : Nat)
  | bool (b : Bool)
  | list (items : List SettingValue)
  | table (members : List (String × SettingValue))
deriving Inhabited

inductive InvalidKind where
  | boolParsing
  | boolType
  | stringType
  | blankPattern
deriving DecidableEq, Repr

def InvalidKind.label : InvalidKind → String
  | .boolParsing => "bool_parsing"
  | .boolType => "bool_type"
  | .stringType => "string_type"
  | .blankPattern => "value_error"

/-- a field, or an item of a list in a field, that is not as it should be -/
structure Invalid where
  field : String
  item : Option Nat := none
  kind : InvalidKind
deriving DecidableEq, Repr

namespace SettingValue

def trueWords : List String := ["1", "on", "t", "true", "y", "yes"]

def falseWords : List String := ["0", "off", "f", "false", "n", "no"]

def wholeToBool (n : Int) : Except InvalidKind Bool :=
  if n = 0 then .ok false else if n = 1 then .ok true else .error .boolParsing

def toBool : SettingValue → Except InvalidKind Bool
  | .bool b => .ok b
  | .number n => wholeToBool n
  | .decimal mantissa places =>
    let unit := Int.ofNat (Nat.pow 10 places)
    if mantissa % unit = 0 then wholeToBool (mantissa / unit) else .error .boolType
  | .text s =>
    let word := String.ofList (s.toList.map Char.toLower)
    if trueWords.contains word then .ok true
    else if falseWords.contains word then .ok false
    else .error .boolParsing
  | .list _ | .table _ => .error .boolType

def toText : SettingValue → Except InvalidKind String
  | .text s => .ok s
  | _ => .error .stringType

/-- a pattern for names, without the blanks around it -/
def toPattern (v : SettingValue) : Except InvalidKind String := do
  let pattern := String.ofList (Text.strip (← v.toText).toList)
  if pattern = "" then throw .blankPattern else return pattern

/-- what a loop over the value yields: the items, the characters of a text, or the keys of a table -/
def items? : SettingValue → Option (List SettingValue)
  | .list items => some items
  | .text s => some (s.toList.map fun c => .text (String.ofList [c]))
  | .table members => some (members.map fun m => .text m.1)
  | _ => none

def isEmptyText : SettingValue → Bool
  | .text s => s == ""
  | _ => false

def member? (v : SettingValue) (name : String) : Option SettingValue :=
  match v with
  | .table members => members.lookup name
  | _ => none

end SettingValue

end StaticPromotion
