/-!
# Words of a command line

Every word of a command line has a form, found from the word and the options there are, and the words are then read from left
to right. An option may be shortened to any beginning that no other option shares, may carry its value after an equals sign,
and options of one letter may be written together. Options of one letter take no value.

* `OptionRule`    an option: its names, how many values it takes, and whether it ends the reading;
* `Word.read`     the form of one word;
* `Word.readAll`  the forms of all words: after a separator nothing is an option;
* `Reading.step`  what a word does to the reading: the first plain word that no option takes is the positional argument, and
                  whatever has no place is left over;
* `Halt`          why a reading ends early: an option asked for it, or the words were misused.
-/

namespace StaticPromotion.CommandLine

variable {κ : Type}

/-! ## options -/

inductive Arity where
  | flag
  | one
  | many
deriving DecidableEq, Repr

structure OptionRule (κ : Type) where
  names : List String
  key : κ
  arity : Arity := .flag
  /-- whether the reading ends when the option is taken -/
  ends : Bool := false

inductive UsageError where
  | ambiguous (word : String)
  | unexpectedValue (name value : String)
  | missingValue (name : String)
  | missingArgument
  | unknownCommand (name : String)
  | leftOver (words : List String)
deriving DecidableEq, Repr

def UsageError.message : UsageError → String
  | .ambiguous word => s!"ambiguous option: {word}"
  | .unexpectedValue name value => s!"option {name} takes no value: {value}"
  | .missingValue name => s!"option {name} needs a value"
  | .missingArgument => "an argument is missing"
  | .unknownCommand name => s!"unknown command: {name}"
  | .leftOver words => "unrecognized arguments: " ++ " ".intercalate words

inductive Halt (κ : Type) where
  | asked (key : κ)
  | misused (e : UsageError)

def named? (rules : List (OptionRule κ)) (name : String) : Option (OptionRule κ) :=
  rules.find? fun rule => rule.names.contains name

/-- the names that begin so -/
def completions (rules : List (OptionRule κ)) (start : String) : List (String × OptionRule κ) :=
  rules.flatMap fun rule =>
    (rule.names.filter fun name => start.toList.isPrefixOf name.toList).map fun name => (name, rule)

/-! ## the form of a word -/

def separator : String := "--"

/-- a value in the same word as its option; `joined` if an equals sign stands between -/
structure Attached where
  text : List Char
  joined : Bool
deriving DecidableEq, Repr

inductive Word (κ : Type) where
  | separator
  | plain (text : String)
  | known (name : String) (rule : OptionRule κ) (value : Option Attached)
  | unknown (text : String)

/-- the part before the first equals sign and, if there is one, the part after it -/
def splitAtEquals (cs : List Char) : List Char × Option (List Char) :=
  (cs.takeWhile (· != '='),
    match cs.dropWhile (· != '=') with
    | [] => none
    | _ :: value => some value)

/-- digits, or a point with digits after it -/
def isNumeral (cs : List Char) : Bool :=
  match cs.dropWhile Char.isDigit with
  | [] => !cs.isEmpty
  | '.' :: places => !places.isEmpty && places.all Char.isDigit
  | _ => false

/-- a word with a leading dash that is no option: negative numbers and words with a space are plain -/
def Word.dashed (cs : List Char) : Word κ :=
  let text := String.ofList ('-' :: cs)
  if isNumeral cs || cs.contains ' ' then .plain text else .unknown text

/-- a word with one leading dash -/
def Word.short (rules : List (OptionRule κ)) (letter : Char) (rest : List Char) : Word κ :=
  let name := String.ofList ['-', letter]
  match named? rules name with
  | some rule => .known name rule (some ⟨rest, false⟩)
  | none => .dashed (letter :: rest)

/-- a word with two leading dashes -/
def Word.long (rules : List (OptionRule κ)) (name : List Char) (value : Option (List Char))
    (rest : List Char) : Except UsageError (Word κ) :=
  match completions rules (String.ofList name) with
  | [] => .ok (.dashed rest)
  | [(full, rule)] => .ok (.known full rule (value.map fun text => ⟨text, true⟩))
  | _ => .error (.ambiguous (String.ofList ('-' :: rest)))

def Word.read (rules : List (OptionRule κ)) (word : String) : Except UsageError (Word κ) :=
  match word.toList, named? rules word with
  | '-' :: _, some rule => .ok (.known word rule none)
  | '-' :: letter :: rest, none =>
    let (name, value) := splitAtEquals ('-' :: letter :: rest)
    match value, named? rules (String.ofList name) with
    | some text, some rule => .ok (.known (String.ofList name) rule (some ⟨text, true⟩))
    | _, _ =>
      if letter = '-' then Word.long rules name value (letter :: rest)
      else .ok (Word.short rules letter rest)
  | _, _ => .ok (.plain word)

def Word.readAll (rules : List (OptionRule κ)) : List String → Except UsageError (List (Word κ))
  | [] => .ok []
  | word :: rest =>
    if word = CommandLine.separator then .ok (.separator :: rest.map .plain)
    else do return (← Word.read rules word) :: (← readAll rules rest)

def Word.isOption : Word κ → Bool
  | .known _ _ _ | .unknown _ => true
  | .separator | .plain _ => false

/-! ## the reading -/

/-- what the words read so far wait for -/
inductive Waiting (κ : Type) where
  | nothing
  /-- the last word was the positional argument, and a separator after it means nothing -/
  | afterPositional
  | value (name : String) (rule : OptionRule κ)
  | values

structure Reading (κ : Type) where
  given : List (κ × List String) := []
  positional : Option String := none
  leftOver : List String := []
  waiting : Waiting κ := .nothing

namespace Reading

def leave (r : Reading κ) (word : String) : Reading κ :=
  { r with leftOver := r.leftOver ++ [word], waiting := .nothing }

/-- takes an option with its values -/
def give (r : Reading κ) (rule : OptionRule κ) (values : List String) :
    Except (Halt κ) (Reading κ) :=
  if rule.ends then .error (.asked rule.key)
  else .ok { r with given := r.given ++ [(rule.key, values)], waiting := .nothing }

/-- adds a value to the option taken last -/
def extendLast (value : String) : List (κ × List String) → List (κ × List String)
  | [] => []
  | [(key, values)] => [(key, values ++ [value])]
  | entry :: rest => entry :: extendLast value rest

/-- the options of the letters written together, and what follows the last known one; a value cannot follow -/
def bundle (rules : List (OptionRule κ)) :
    List Char → Except UsageError (List (OptionRule κ) × Option String)
  | [] => .ok ([], none)
  | letter :: rest =>
    let name := String.ofList ['-', letter]
    match named? rules name with
    | none => .ok ([], some (String.ofList ('-' :: letter :: rest)))
    | some rule =>
      if rest.head? = some '=' || rest.head? = some '-' then
        .error (.unexpectedValue name (String.ofList rest))
      else do
        let (others, extra) ← bundle rules rest
        return (rule :: others, extra)

/-- an option of one letter, with more letters in its word -/
def takeBundle (rules : List (OptionRule κ)) (r : Reading κ) (name : String) (rule : OptionRule κ)
    (value : Attached) : Except (Halt κ) (Reading κ) :=
  if value.joined || value.text.head? = some '-' then
    .error (.misused (.unexpectedValue name (String.ofList value.text)))
  else
    match bundle rules value.text with
    | .error e => .error (.misused e)
    | .ok (others, extra) => do
      let r := (extra.map r.leave).getD r
      (rule :: others).foldlM (fun r rule => r.give rule []) r

/-- an option with a value in its word -/
def takeAttached (rules : List (OptionRule κ)) (r : Reading κ) (name : String) (rule : OptionRule κ)
    (value : Attached) : Except (Halt κ) (Reading κ) :=
  let text := String.ofList value.text
  match rule.arity with
  | .flag =>
    if name.length = 2 && text != "" then r.takeBundle rules name rule value
    else .error (.misused (.unexpectedValue name text))
  | .one | .many => r.give rule [text]

/-- an option whose values are the words after it -/
def takeBare (r : Reading κ) (name : String) (rule : OptionRule κ) :
    Except (Halt κ) (Reading κ) :=
  match rule.arity with
  | .flag => r.give rule []
  | .one => .ok { r with waiting := .value name rule }
  | .many => do return { (← r.give rule []) with waiting := .values }

def takePlain (r : Reading κ) (text : String) : Except (Halt κ) (Reading κ) :=
  match r.waiting, r.positional with
  | .value _ rule, _ => r.give rule [text]
  | .values, _ => .ok { r with given := extendLast text r.given }
  | _, none => .ok { r with positional := some text, waiting := .afterPositional }
  | _, some _ => .ok (r.leave text)

def takeSeparator (r : Reading κ) : Reading κ :=
  match r.waiting, r.positional with
  | .afterPositional, _ | _, none => { r with waiting := .nothing }
  | _, some _ => r.leave separator

def step (rules : List (OptionRule κ)) (r : Reading κ) (word : Word κ) :
    Except (Halt κ) (Reading κ) :=
  match r.waiting, word with
  | _, .plain text => r.takePlain text
  | .value name _, _ => .error (.misused (.missingValue name))
  | _, .separator => .ok r.takeSeparator
  | _, .unknown text => .ok (r.leave text)
  | _, .known name rule (some value) => r.takeAttached rules name rule value
  | _, .known name rule none => r.takeBare name rule

def ofWords (rules : List (OptionRule κ)) (words : List (Word κ)) : Except (Halt κ) (Reading κ) := do
  let r ← words.foldlM (step rules) {}
  match r.waiting with
  | .value name _ => .error (.misused (.missingValue name))
  | _ => return r

/-! ## what was read -/

variable [DecidableEq κ]

def has (r : Reading κ) (key : κ) : Bool :=
  r.given.any fun entry => entry.1 = key

/-- the values of an option; the last time it was given counts -/
def valuesOf (r : Reading κ) (key : κ) : List String :=
  ((r.given.filter fun entry => entry.1 = key).getLast?.map (·.2)).getD []

def valueOf? (r : Reading κ) (key : κ) : Option String :=
  (r.valuesOf key).head?

end Reading

end StaticPromotion.CommandLine
