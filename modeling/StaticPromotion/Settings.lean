import StaticPromotion.Files.Tree
import StaticPromotion.Settings.Value

/-!
# Settings

Settings come from a table in the nearest project file at or above a directory, and from overrides, which win.

* `RawSettings.merge`   file and overrides together: the patterns to exclude are those of the file followed by those given, and
                        a report path in the file is relative to the file's directory;
* `Settings.validate`   settings, or all that is wrong with their values, field by field;
* `Settings.load`       the search for the file, the merge and the validation;
* `Settings.isExcluded?`   whether a path, relative to a directory if it lies below it, fits a pattern to exclude.
-/

namespace StaticPromotion

/-! ## settings -/

structure Settings where
  strict : Bool := false
  filePattern : String := "*.java"
  exclude : List String := []
  checkOnly : Bool := false
  jsonReport : Option Path := none
deriving Repr

inductive SettingsError where
  /-- the project file is not readable as one -/
  | unreadable (path : Path)
  /-- the project file is not text -/
  | undecodable
  | invalid (errors : List Invalid)
  /-- the tool's table, or the table around it, is none -/
  | notTable
  /-- the patterns to exclude cannot be listed, or the report path is no text -/
  | wrongType
deriving Repr

/-- the messages of the errors that a user can mend in the file -/
def SettingsError.message? : SettingsError → Option String
  | .unreadable p => some s!"Cannot read {p.toText}"
  | .invalid _ => some "Invalid [tool.staticizer] configuration"
  | .undecodable | .notTable | .wrongType => none

/-- what the caller asks for -/
structure Overrides where
  strict : Option SettingValue := none
  filePattern : Option SettingValue := none
  exclude : List SettingValue := []
  checkOnly : Option SettingValue := none
  jsonReport : Option Path := none

/-- settings before validation -/
structure RawSettings where
  strict : SettingValue
  filePattern : SettingValue
  exclude : List SettingValue
  checkOnly : SettingValue
  jsonReport : Option Path

/-- the tool's table in a project file, with the file's directory -/
structure ProjectFile where
  table : SettingValue := .table []
  directory : Option Path := none

/-! ## merging -/

def reportPath (file : ProjectFile) : SettingValue → Except SettingsError Path
  | .text s =>
    let p := Path.ofText s
    .ok (match file.directory with
      | some directory => directory.join p
      | none => p)
  | _ => .error .wrongType

def RawSettings.merge (file : ProjectFile) (wanted : Overrides) : Except SettingsError RawSettings := do
  let field (name : String) (other : SettingValue) := (file.table.member? name).getD other
  match file.table with
  | .table _ => pure ()
  | _ => throw .notTable
  let fromFile ←
    match (field "exclude" (.list [])).items? with
    | some items => pure items
    | none => throw .wrongType
  let jsonReport ←
    match wanted.jsonReport, file.table.member? "json_report" with
    | some p, _ => pure (some p)
    | none, some v => some <$> reportPath file v
    | none, none => pure none
  return {
    strict := wanted.strict.getD (field "strict_mode" (.bool false))
    filePattern := (wanted.filePattern.filter fun v => !v.isEmptyText).getD
      (field "file_glob" (.text "*.java"))
    exclude := fromFile ++ wanted.exclude
    checkOnly := wanted.checkOnly.getD (field "check_only" (.bool false))
    jsonReport }

/-! ## validation -/

def failureOf {α : Type} (field : String) (item : Option Nat) : Except InvalidKind α → List Invalid
  | .ok _ => []
  | .error kind => [{ field, item, kind }]

def excludeFailures (items : List SettingValue) : List Invalid :=
  items.zipIdx.flatMap fun item => failureOf "exclude" (some item.2) item.1.toText

/-- all that is wrong, in the order of the fields -/
def RawSettings.failures (raw : RawSettings) : List Invalid :=
  failureOf "strict_mode" none raw.strict.toBool ++
    failureOf "file_glob" none raw.filePattern.toPattern ++
    excludeFailures raw.exclude ++
    failureOf "check_only" none raw.checkOnly.toBool

def Settings.validate (raw : RawSettings) : Except SettingsError Settings :=
  match raw.strict.toBool, raw.filePattern.toPattern, raw.exclude.mapM SettingValue.toText,
      raw.checkOnly.toBool with
  | .ok strict, .ok filePattern, .ok exclude, .ok checkOnly =>
    .ok { strict, filePattern, exclude, checkOnly, jsonReport := raw.jsonReport }
  | _, _, _, _ => .error (.invalid raw.failures)

/-! ## the search -/

def projectFileName : String := "pyproject.toml"

def toolName : String := "staticizer"

/-- a directory and those above it -/
def ancestry : List String → List (List String)
  | [] => [[]]
  | name :: rest => (ancestry rest).map (name :: ·) ++ [[]]

/-- the tool's table in the content of a project file -/
def toolTable (content : SettingValue) : Except SettingsError SettingValue :=
  match content.member? "tool" with
  | none => .ok (.table [])
  | some (.table members) => .ok ((members.lookup toolName).getD (.table []))
  | some _ => .error .notTable

/-- reads the nearest project file; `readTable` is the reader of the file's format -/
def findProjectFile (t : FileTree) (readTable : String → Option SettingValue)
    (start : Path) : Except SettingsError ProjectFile :=
  let candidates := (ancestry (t.resolve start).names).map fun names : List String =>
    ({ root := "/", names } : Path)
  let found := candidates.findSome? fun directory =>
    match t.lookup (directory.child projectFileName) with
    | .file _ bytes => some (directory, bytes)
    | _ => none
  match found with
  | none => .ok {}
  | some (directory, bytes) =>
    match Utf8.decode bytes with
    | .error _ => .error .undecodable
    | .ok text =>
      match readTable text with
      | none => .error (.unreadable (directory.child projectFileName))
      | some content => do return { table := ← toolTable content, directory := some directory }

def Settings.load (t : FileTree) (readTable : String → Option SettingValue) (start : Path)
    (wanted : Overrides) : Except SettingsError Settings := do
  Settings.validate (← RawSettings.merge (← findProjectFile t readTable start) wanted)

/-! ## exclusion -/

/-- whether one of the patterns fits; none if an empty pattern is reached before -/
def fitsAny? (p : Path) : List String → Option Bool
  | [] => some false
  | pattern :: rest =>
    match p.fits? pattern with
    | none => none
    | some true => some true
    | some false => fitsAny? p rest

def Settings.isExcluded? (s : Settings) (p base : Path) : Option Bool :=
  fitsAny? ((p.relativeTo? base).getD p) s.exclude

end StaticPromotion
