import StaticPromotion.Settings

/-!
# What loading settings comes to

The nearest project file decides. If there is none, or if its content is laid out as it should be, then settings are loaded whose
patterns to exclude are those of the file and then those of the caller, or all that is wrong with the values is reported. The
content is taken apart before it is checked, though. So a value in the place of a table, and patterns or a report path of some
types, end a load with an error that is not reported, as bytes that are not text do; and a text or a table in the place of the
list of patterns is taken for a list.

* `FileTree.Nearest`         the project file that is read;
* `SettingValue.settings`    the tool's settings in the content of a project file, `SettingValue.patterns` the patterns in them;
* `ProjectFile.inForce`      the values that a file and a caller give together, before they are checked;
* `RawSettings.Documented`   the settings that such values stand for, or a report of all that is wrong with them;
* `Settings.load_outcome`    what a load comes to, for every tree of files, every content and all that a caller may give.
-/

namespace StaticPromotion

variable {items : List SettingValue}

/-! ## the nearest project file -/

/-- a directory and those around it, from the inside out -/
def FileTree.directories (t : FileTree) (start : Path) : List Path :=
  (ancestry (t.resolve start).names).map fun names => { root := "/", names }

/-- the project file in `dir` is read: no directory before it has one -/
def FileTree.Nearest (t : FileTree) (start dir : Path) (bytes : List UInt8) : Prop :=
  ∃ nearer farther, t.directories start = nearer ++ dir :: farther ∧
    (∀ d ∈ nearer, t.isFile (d.child projectFileName) = false) ∧
    ∃ place, t.lookup (dir.child projectFileName) = .file place bytes

section
variable {t : FileTree} {readTable : String → Option SettingValue} {start dir : Path} {bytes : List UInt8}

theorem findProjectFile_of_nearest (h : t.Nearest start dir bytes) :
    (∀ f, Utf8.decode bytes = .error f → findProjectFile t readTable start = .error .undecodable) ∧
    ∀ text, Utf8.decode bytes = .ok text →
      (readTable text = none →
        findProjectFile t readTable start = .error (.unreadable (dir.child projectFileName))) ∧
      ∀ content, readTable text = some content → findProjectFile t readTable start =
        (toolTable content).map fun table => { table, directory := some dir } := by
  obtain ⟨nearer, farther, hsplit, hnearer, place, hfile⟩ := h
  unfold FileTree.directories at hsplit
  unfold findProjectFile
  simp only [hsplit, List.findSome?_append, List.findSome?_cons, hfile]
  rw [List.findSome?_eq_none_iff.mpr]
  · constructor
    · intro f hdecode
      simp [hdecode]
    · intro text hdecode
      simp only [hdecode, Option.none_or]
      constructor
      · intro hread
        simp [hread]
      · intro content hread
        simp only [hread]
        cases toolTable content <;> rfl
  · intro d hd
    have hnone := hnearer d hd
    unfold FileTree.isFile at hnone
    split at hnone <;> simp_all

theorem findProjectFile_of_none (h : ∀ dir bytes, ¬ t.Nearest start dir bytes) :
    findProjectFile t readTable start = .ok {} := by
  unfold findProjectFile
  dsimp only
  split
  · rfl
  · rename_i dir bytes hfound
    obtain ⟨nearer, d, farther, hsplit, hd, hnearer⟩ := List.findSome?_eq_some_iff.mp hfound
    refine absurd ⟨nearer, farther, ?_, ?_, ?_⟩ (h dir bytes)
    · split at hd <;> simp_all [FileTree.directories]
    · intro near hnear
      have hnone := hnearer near hnear
      unfold FileTree.isFile
      split at hnone <;> simp_all
    · split at hd <;> simp_all

end

/-! ## the settings in a file -/

namespace SettingValue

def isTable : SettingValue → Bool
  | .table _ => true
  | _ => false

def isText : SettingValue → Bool
  | .text _ => true
  | _ => false

def memberOr (table : SettingValue) (name : String) (other : SettingValue) : SettingValue :=
  (table.member? name).getD other

/-- the settings of all tools in the content of a project file -/
def tools (content : SettingValue) : SettingValue :=
  content.memberOr "tool" (.table [])

def settings (content : SettingValue) : SettingValue :=
  content.tools.memberOr toolName (.table [])

/-- the patterns to exclude in the tool's settings -/
def patterns (table : SettingValue) : SettingValue :=
  table.memberOr "exclude" (.list [])

end SettingValue

theorem toolTable_eq (content : SettingValue) :
    toolTable content = if content.tools.isTable then .ok content.settings else .error .notTable := by
  unfold toolTable SettingValue.settings SettingValue.tools SettingValue.memberOr
  cases content.member? "tool" with
  | none => rfl
  | some v => cases v <;> rfl

/-- a report path in the settings is a text, unless the caller gives another path -/
def SettingValue.ReportFits (table : SettingValue) (wanted : Overrides) : Prop :=
  wanted.jsonReport = none → ∀ v, table.member? "json_report" = some v → v.isText = true

/-- the values that a file and a caller give together; `items` are the patterns of the file -/
def ProjectFile.inForce (file : ProjectFile) (items : List SettingValue) (wanted : Overrides) : RawSettings where
  strict := wanted.strict.getD (file.table.memberOr "strict_mode" (.bool false))
  filePattern := (wanted.filePattern.filter fun v => !v.isEmptyText).getD
    (file.table.memberOr "file_glob" (.text "*.java"))
  exclude := items ++ wanted.exclude
  checkOnly := wanted.checkOnly.getD (file.table.memberOr "check_only" (.bool false))
  jsonReport := wanted.jsonReport.or
    ((file.table.member? "json_report").bind fun v => (reportPath file v).toOption)

section
variable {file : ProjectFile} {wanted : Overrides}

theorem merge_of_not_table (h : file.table.isTable = false) :
    RawSettings.merge file wanted = .error .notTable := by
  unfold RawSettings.merge
  cases htable : file.table with
  | table members => simp [htable, SettingValue.isTable] at h
  | _ => rfl

theorem merge_of_no_items (htable : file.table.isTable = true) (h : file.table.patterns.items? = none) :
    RawSettings.merge file wanted = .error .wrongType := by
  unfold SettingValue.patterns SettingValue.memberOr at h
  unfold RawSettings.merge
  cases hmembers : file.table with
  | table members =>
    rw [hmembers] at h
    simp only [h]
    rfl
  | _ => simp [hmembers, SettingValue.isTable] at htable

theorem merge_of_items (htable : file.table.isTable = true) (h : file.table.patterns.items? = some items) :
    (file.table.ReportFits wanted → RawSettings.merge file wanted = .ok (file.inForce items wanted)) ∧
    (¬ file.table.ReportFits wanted → RawSettings.merge file wanted = .error .wrongType) := by
  unfold SettingValue.patterns SettingValue.memberOr at h
  unfold RawSettings.merge ProjectFile.inForce SettingValue.memberOr SettingValue.ReportFits
  cases hmembers : file.table with
  | table members =>
    rw [hmembers] at h
    simp only [h]
    cases hwanted : wanted.jsonReport with
    | some p => exact ⟨fun _ => rfl, fun hfits => absurd (by simp) hfits⟩
    | none =>
      cases hreport : (SettingValue.table members).member? "json_report" with
      | none => exact ⟨fun _ => rfl, fun hfits => absurd (by simp) hfits⟩
      | some v => cases v <;> simp [SettingValue.isText] <;> rfl
  | _ => simp [hmembers, SettingValue.isTable] at htable

end

/-! ## validation -/

namespace RawSettings

variable {e : Invalid}

/-- what is wrong with a value -/
inductive Fault (raw : RawSettings) : Invalid → Prop
  | strict {kind : InvalidKind} (h : raw.strict.toBool = .error kind) :
    raw.Fault { field := "strict_mode", item := none, kind }
  | filePattern {kind : InvalidKind} (h : raw.filePattern.toPattern = .error kind) :
    raw.Fault { field := "file_glob", item := none, kind }
  | exclude {i : Nat} {v : SettingValue} {kind : InvalidKind} (hv : raw.exclude[i]? = some v)
      (h : v.toText = .error kind) : raw.Fault { field := "exclude", item := some i, kind }
  | checkOnly {kind : InvalidKind} (h : raw.checkOnly.toBool = .error kind) :
    raw.Fault { field := "check_only", item := none, kind }

/-- the settings that the values stand for -/
structure Gives (raw : RawSettings) (s : Settings) : Prop where
  strict : raw.strict.toBool = .ok s.strict
  filePattern : raw.filePattern.toPattern = .ok s.filePattern
  exclude : raw.exclude = s.exclude.map .text
  checkOnly : raw.checkOnly.toBool = .ok s.checkOnly
  jsonReport : raw.jsonReport = s.jsonReport

def Documented (raw : RawSettings) (outcome : Except SettingsError Settings) : Prop :=
  (∃ s, outcome = .ok s ∧ raw.Gives s) ∨
    ∃ errors, outcome = .error (.invalid errors) ∧ errors ≠ [] ∧ ∀ e, e ∈ errors ↔ raw.Fault e

theorem mem_failureOf {α : Type} {field : String} {item : Option Nat} {result : Except InvalidKind α} :
    e ∈ failureOf field item result ↔ ∃ kind, result = .error kind ∧ e = { field, item, kind } := by
  cases result <;> simp [failureOf]

theorem mem_excludeFailures :
    e ∈ excludeFailures items ↔
      ∃ i v kind, items[i]? = some v ∧ v.toText = .error kind ∧ e = { field := "exclude", item := some i, kind } := by
  unfold excludeFailures
  simp only [List.mem_flatMap, mem_failureOf, Prod.exists, List.mem_zipIdx_iff_getElem?]
  grind

theorem mem_failures {raw : RawSettings} : e ∈ raw.failures ↔ raw.Fault e := by
  unfold failures
  simp only [List.mem_append, mem_failureOf, mem_excludeFailures]
  constructor
  · rintro (((⟨kind, h, rfl⟩ | ⟨kind, h, rfl⟩) | ⟨i, v, kind, hv, h, rfl⟩) | ⟨kind, h, rfl⟩)
    · exact .strict h
    · exact .filePattern h
    · exact .exclude hv h
    · exact .checkOnly h
  · rintro (h | h | ⟨hv, h⟩ | h)
    · exact .inl (.inl (.inl ⟨_, h, rfl⟩))
    · exact .inl (.inl (.inr ⟨_, h, rfl⟩))
    · exact .inl (.inr ⟨_, _, _, hv, h, rfl⟩)
    · exact .inr ⟨_, h, rfl⟩

theorem mapM_toText (items : List SettingValue) :
    (∃ texts, items.mapM SettingValue.toText = .ok texts ∧ items = texts.map .text) ∨
      ∃ kind, items.mapM SettingValue.toText = .error kind ∧ ∃ v ∈ items, v.toText = .error kind := by
  induction items with
  | nil => exact .inl ⟨[], rfl, rfl⟩
  | cons v rest ih =>
    rw [List.mapM_cons]
    cases v with
    | text s =>
      obtain ⟨texts, hrest, htexts⟩ | ⟨kind, hrest, bad, hbad, hkind⟩ := ih
      · exact .inl ⟨s :: texts, by rw [hrest]; rfl, by rw [htexts]; rfl⟩
      · exact .inr ⟨kind, by rw [hrest]; rfl, bad, .tail _ hbad, hkind⟩
    | _ => exact .inr ⟨.stringType, rfl, _, .head _, rfl⟩

theorem documented_of_fault {raw : RawSettings} (h : raw.Fault e) :
    raw.Documented (.error (.invalid raw.failures)) :=
  .inr ⟨raw.failures, rfl, List.ne_nil_of_mem (mem_failures.mpr h), fun _ => mem_failures⟩

theorem documented_validate (raw : RawSettings) : raw.Documented (Settings.validate raw) := by
  unfold Settings.validate
  cases hstrict : raw.strict.toBool with
  | error kind => exact documented_of_fault (.strict hstrict)
  | ok strict =>
    cases hpattern : raw.filePattern.toPattern with
    | error kind => exact documented_of_fault (.filePattern hpattern)
    | ok filePattern =>
      obtain ⟨texts, hmap, hexclude⟩ | ⟨kind, hmap, v, hv, hkind⟩ := mapM_toText raw.exclude
      · rw [hmap]
        cases hcheck : raw.checkOnly.toBool with
        | error kind => exact documented_of_fault (.checkOnly hcheck)
        | ok checkOnly => exact .inl ⟨_, rfl, hstrict, hpattern, hexclude, hcheck, rfl⟩
      · rw [hmap]
        obtain ⟨i, hi⟩ := List.mem_iff_getElem?.mp hv
        exact documented_of_fault (.exclude hi hkind)

end RawSettings

/-! ## loading -/

/-- the content of a project file can be taken apart: `items` are its patterns to exclude -/
structure SettingValue.LaidOut (content : SettingValue) (wanted : Overrides) (items : List SettingValue) : Prop where
  tools : content.tools.isTable = true
  settings : content.settings.isTable = true
  patterns : content.settings.patterns.items? = some items
  report : content.settings.ReportFits wanted

section
variable {t : FileTree} {readTable : String → Option SettingValue} {start : Path} {wanted : Overrides}

theorem load_of_file {file : ProjectFile} (hfile : findProjectFile t readTable start = .ok file)
    (htable : file.table.isTable = true) (hitems : file.table.patterns.items? = some items)
    (hreport : file.table.ReportFits wanted) :
    (file.inForce items wanted).Documented (Settings.load t readTable start wanted) := by
  have hload : Settings.load t readTable start wanted = Settings.validate (file.inForce items wanted) := by
    unfold Settings.load
    rw [hfile]
    change RawSettings.merge file wanted >>= Settings.validate = _
    rw [(merge_of_items htable hitems).1 hreport]
    rfl
  rw [hload]
  exact RawSettings.documented_validate _

/-- content that cannot be taken apart ends a load, and the error has no message -/
theorem load_of_not_laidOut {content : SettingValue} {directory : Option Path}
    (hfile : findProjectFile t readTable start = (toolTable content).map fun table => { table, directory })
    (h : ∀ items, ¬ content.LaidOut wanted items) :
    ∃ e, Settings.load t readTable start wanted = .error e ∧ e.message? = none ∧
      (e = .notTable ↔ ¬ (content.tools.isTable = true ∧ content.settings.isTable = true)) ∧
      (e = .wrongType ↔ content.tools.isTable = true ∧ content.settings.isTable = true) := by
  unfold Settings.load
  rw [hfile, toolTable_eq]
  cases htools : content.tools.isTable with
  | false => exact ⟨.notTable, rfl, rfl, by simp, by simp⟩
  | true =>
    cases hsettings : content.settings.isTable with
    | false =>
      refine ⟨.notTable, ?_, rfl, by simp, by simp⟩
      change RawSettings.merge _ wanted >>= Settings.validate = _
      rw [merge_of_not_table hsettings]
      rfl
    | true =>
      refine ⟨.wrongType, ?_, rfl, by simp, by simp⟩
      change RawSettings.merge _ wanted >>= Settings.validate = _
      cases hitems : content.settings.patterns.items? with
      | none =>
        rw [merge_of_no_items hsettings hitems]
        rfl
      | some items =>
        rw [(merge_of_items hsettings hitems).2 fun hreport => h items ⟨htools, hsettings, hitems, hreport⟩]
        rfl

end

theorem Settings.load_outcome (t : FileTree) (readTable : String → Option SettingValue) (start : Path)
    (wanted : Overrides) :
    ((∀ dir bytes, ¬ t.Nearest start dir bytes) →
      (({} : ProjectFile).inForce [] wanted).Documented (Settings.load t readTable start wanted)) ∧
    ∀ dir bytes, t.Nearest start dir bytes →
      (∀ f, Utf8.decode bytes = .error f → Settings.load t readTable start wanted = .error .undecodable) ∧
      ∀ text, Utf8.decode bytes = .ok text →
        (readTable text = none →
          Settings.load t readTable start wanted = .error (.unreadable (dir.child projectFileName))) ∧
        ∀ content, readTable text = some content →
          (∀ items, content.LaidOut wanted items →
            (ProjectFile.inForce { table := content.settings, directory := some dir } items wanted).Documented
              (Settings.load t readTable start wanted)) ∧
          ((∀ items, ¬ content.LaidOut wanted items) →
            ∃ e, Settings.load t readTable start wanted = .error e ∧ e.message? = none ∧
              (e = .notTable ↔ ¬ (content.tools.isTable = true ∧ content.settings.isTable = true)) ∧
              (e = .wrongType ↔ content.tools.isTable = true ∧ content.settings.isTable = true)) := by
  constructor
  · intro hnone
    apply load_of_file (findProjectFile_of_none hnone) rfl rfl
    intro _ v hv
    cases hv
  · intro dir bytes hnear
    obtain ⟨hbytes, hdecoded⟩ := findProjectFile_of_nearest hnear
    constructor
    · intro f hdecode
      unfold Settings.load
      rw [hbytes f hdecode]
      rfl
    · intro text hdecode
      obtain ⟨hmalformed, hread⟩ := hdecoded text hdecode
      constructor
      · intro h
        unfold Settings.load
        rw [hmalformed h]
        rfl
      · intro content h
        refine ⟨?_, load_of_not_laidOut (hread content h)⟩
        intro items hlaid
        refine load_of_file ?_ hlaid.settings hlaid.patterns hlaid.report
        rw [hread content h, toolTable_eq, hlaid.tools]
        rfl

/-- a project file of these bytes in the directory `a` of a tree -/
def FileTree.project (bytes : List UInt8) : FileTree where
  dirs := [["a"], ["a", "b"]]
  files := [(["a", "pyproject.toml"], bytes)]

/-- content with these settings of the tool -/
def SettingValue.ofSettings (table : SettingValue) : SettingValue :=
  .table [("tool", .table [(toolName, table)])]

/-- settings with one pattern to exclude -/
def SettingValue.onePattern : SettingValue :=
  .table [("exclude", .list [.text "x"])]

theorem Settings.project_outcome :
    (FileTree.project []).Nearest (Path.ofText "a/b") (Path.ofText "/a") [] ∧
    SettingValue.onePattern.ofSettings.LaidOut { exclude := [.text "y"] } [.text "x"] ∧
    RawSettings.Documented
      (ProjectFile.inForce { table := .onePattern, directory := some (Path.ofText "/a") } [.text "x"]
        { exclude := [.text "y"] })
      (Settings.load (.project []) (fun _ => some SettingValue.onePattern.ofSettings) (Path.ofText "a/b")
        { exclude := [.text "y"] }) := by
  have hnear : (FileTree.project []).Nearest (Path.ofText "a/b") (Path.ofText "/a") [] :=
    ⟨[Path.ofText "/a/b"], [Path.ofText "/"], by decide +kernel, by decide +kernel,
      ["a", "pyproject.toml"], rfl⟩
  have hlaid : SettingValue.onePattern.ofSettings.LaidOut { exclude := [.text "y"] } [.text "x"] := by
    refine ⟨rfl, rfl, rfl, ?_⟩
    intro _ v hv
    cases hv
  exact ⟨hnear, hlaid, ((((Settings.load_outcome _ _ _ _).2 _ _ hnear).2 "" rfl).2 _ rfl).1 _ hlaid⟩

/-- A value in the place of a table, patterns that cannot be listed, and bytes that are not text are not reported. A text is taken
for its characters. -/
theorem Settings.wrong_types_unreported :
    Settings.load (.project []) (fun _ => some (.table [("tool", .number 1)])) (Path.ofText "a") {} = .error .notTable ∧
    Settings.load (.project []) (fun _ => some (.ofSettings (.number 1))) (Path.ofText "a") {} = .error .notTable ∧
    Settings.load (.project []) (fun _ => some (.ofSettings (.table [("exclude", .number 5)]))) (Path.ofText "a") {} =
      .error .wrongType ∧
    Settings.load (.project []) (fun _ => some (.ofSettings (.table [("json_report", .number 5)]))) (Path.ofText "a") {} =
      .error .wrongType ∧
    Settings.load (.project []) (fun _ => some (.ofSettings (.table [("exclude", .text "ab")]))) (Path.ofText "a") {} =
      .ok { exclude := ["a", "b"] } ∧
    Settings.load (.project [255]) (fun _ => none) (Path.ofText "a") {} = .error .undecodable := by
  refine ⟨rfl, rfl, rfl, rfl, rfl, rfl⟩

end StaticPromotion
