import StaticPromotion.Proofs.Batches
import StaticPromotion.Proofs.Rewriting

/-!
# The bytes of a file that is replaced

A file is read as text, with every line end made a line feed, and what is written is that text with the new words in it. So
a run that replaces a file keeps all its other bytes exactly if the file has no carriage return.

* `FileTree.unifyLineEnds_eq`   a text without a carriage return stays as it is;
* `Utf8.mem_encode_iff`         the byte of a carriage return stands for nothing else;
* `Splice.Weaves.mem_of_mem`, `Splice.Weaves.mem_cases`   which bytes there are after weaving;
* `Job.rewritten`               what a changed file was read as, and what was written;
* `Command.replaced_bytes`      the bytes of the sources after a run that replaces files.
-/

namespace StaticPromotion

variable {b : UInt8}

/-! ## carriage returns -/

theorem FileTree.not_mem_unifyLineEnds (cs : List Char) : '\r' ∉ unifyLineEnds cs := by
  fun_induction unifyLineEnds cs with
  | case1 rest ih => simpa using ih
  | case2 rest _ ih => simpa using ih
  | case3 c rest _ hc ih =>
    rw [List.mem_cons, not_or]
    exact ⟨fun heq => hc heq.symm, ih⟩
  | case4 => exact List.not_mem_nil

theorem FileTree.unifyLineEnds_eq {cs : List Char} (h : '\r' ∉ cs) : unifyLineEnds cs = cs := by
  fun_induction unifyLineEnds cs with
  | case1 rest => exact absurd List.mem_cons_self h
  | case2 rest => exact absurd List.mem_cons_self h
  | case3 c rest _ _ ih => rw [ih fun hmem => h (List.mem_cons_of_mem _ hmem)]
  | case4 => rfl

namespace Utf8

def carriageReturn : UInt8 := 13

theorem carriageReturn_ne {n : Nat} (hlow : 128 ≤ n) (hhigh : n < 256) :
    carriageReturn ≠ UInt8.ofNat n := by
  intro heq
  have hbyte : carriageReturn.toNat = n % 2 ^ 8 := by rw [heq, UInt8.toNat_ofNat']
  have hthirteen : carriageReturn.toNat = 13 := rfl
  omega

/-- all bytes of a character that takes more than one are above 127 -/
theorem mem_encodeChar_iff (c : Char) : carriageReturn ∈ String.utf8EncodeChar c ↔ c = '\r' := by
  constructor
  · intro h
    rw [String.utf8EncodeChar] at h
    split at h
    · have hbyte : carriageReturn.toNat = c.val.toNat % 2 ^ 8 := by
        rw [List.mem_singleton.mp h, UInt8.toNat_ofNat']
      have hthirteen : carriageReturn.toNat = 13 := rfl
      exact Char.ext (UInt32.toNat_inj.mp (show c.val.toNat = 13 by omega))
    · exfalso
      split at h
      · simp only [List.mem_cons, List.not_mem_nil, or_false] at h
        rcases h with h | h <;> exact carriageReturn_ne (by omega) (by omega) h
      split at h
      · simp only [List.mem_cons, List.not_mem_nil, or_false] at h
        rcases h with h | h | h <;> exact carriageReturn_ne (by omega) (by omega) h
      · simp only [List.mem_cons, List.not_mem_nil, or_false] at h
        rcases h with h | h | h | h <;> exact carriageReturn_ne (by omega) (by omega) h
  · rintro rfl
    decide

theorem mem_encode_iff (cs : List Char) : carriageReturn ∈ encode (String.ofList cs) ↔ '\r' ∈ cs := by
  rw [encode_ofList, List.mem_flatMap]
  constructor
  · rintro ⟨c, hc, hmem⟩
    exact (mem_encodeChar_iff c).mp hmem ▸ hc
  · exact fun h => ⟨'\r', h, (mem_encodeChar_iff _).mpr rfl⟩

end Utf8

/-! ## the bytes after weaving -/

theorem Splice.mem_intercalate {word : List UInt8} {parts : List (List UInt8)} :
    (b ∈ parts.flatten → b ∈ word.intercalate parts) ∧
      (b ∈ word.intercalate parts → b ∈ word ∨ b ∈ parts.flatten) := by
  induction parts with
  | nil => exact ⟨id, .inr⟩
  | cons part rest ih =>
    cases rest with
    | nil =>
      rw [List.intercalate_singleton, List.flatten_singleton]
      exact ⟨id, .inr⟩
    | cons next rest =>
      rw [List.intercalate_cons_cons, List.flatten_cons, List.mem_append, List.mem_append,
        List.mem_append]
      exact ⟨fun h => h.imp .inl ih.1, fun h => by
        rcases h with (hpart | hword) | hrest
        · exact .inr (.inl hpart)
        · exact .inl hword
        · exact (ih.2 hrest).imp_right .inr⟩

theorem Splice.Weaves.mem_of_mem {word bytes out : List UInt8} {cuts : List Nat}
    (h : Splice.Weaves word cuts bytes out) (hb : b ∈ bytes) : b ∈ out := by
  obtain ⟨parts, rfl, -, rfl⟩ := h
  exact mem_intercalate.1 hb

theorem Splice.Weaves.mem_cases {word bytes out : List UInt8} {cuts : List Nat}
    (h : Splice.Weaves word cuts bytes out) (hb : b ∈ out) : b ∈ word ∨ b ∈ bytes := by
  obtain ⟨parts, rfl, -, rfl⟩ := h
  exact mem_intercalate.2 hb

/-! ## what is written -/

theorem Job.rewritten {tools : Tools} {mode : Mode} {bytes : List UInt8}
    (h : settled tools mode bytes ≠ bytes) :
    ∃ cs r j, Utf8.decodeChars bytes = .ok cs ∧
      Refactoring.run mode.strict (String.ofList (FileTree.unifyLineEnds cs))
        (tools.parse (String.ofList (FileTree.unifyLineEnds cs))) = .ok (r, j) ∧
      r.changed = true ∧ settled tools mode bytes = Utf8.encode r.code := by
  have hsaved : mode.checkOnly = false ∧ (outcome tools mode bytes).success = true ∧
      (outcome tools mode bytes).changed = true ∧
        settled tools mode bytes = Utf8.encode (outcome tools mode bytes).code := by
    rw [settled] at h ⊢
    split at h
    next hcond =>
      rw [if_pos hcond]
      simp only [Bool.and_eq_true, Bool.not_eq_true'] at hcond
      exact ⟨hcond.1.1, hcond.1.2, hcond.2, rfl⟩
    next => exact absurd rfl h
  obtain ⟨-, hsuccess, hchanged, hsettled⟩ := hsaved
  cases hdone : refactor tools mode bytes with
  | error fault =>
    rw [outcome_of_error hdone] at hsuccess
    cases hsuccess
  | ok done =>
    rw [outcome_of_ok hdone] at hchanged hsettled
    obtain ⟨r, j⟩ := done
    obtain ⟨code, hcode, hrun⟩ := Run.of_except_bind hdone
    unfold FileTree.textOf at hcode
    cases hchars : Utf8.decodeChars bytes with
    | error fault =>
      rw [hchars] at hcode
      cases hcode
    | ok cs =>
      rw [hchars] at hcode
      cases hcode
      exact ⟨cs, r, j, rfl, hrun, hchanged, hsettled⟩

namespace Command

open CommandLine

theorem WellPlaced.bytesAt_of_run {tools : Tools} {a : RunArguments} {settings : Settings}
    {s s' : CommandState} {work : List (String × Job)} {exitCode : Nat}
    (h : WellPlaced tools a settings s work) (inPlace : a.out = none)
    (hrun : run tools a s = .ok exitCode s') :
    ∀ entry ∈ work, s'.files.bytesAt entry.2.input =
      Job.settled tools (modeOf settings) (s.files.bytesAt entry.2.input) := by
  obtain ⟨s₁, s₂, -, hrun', -, -, hkept, -⟩ := h.run_spec (.inl inPlace)
  cases hrun.symm.trans hrun'
  exact fun entry hentry => (hkept entry hentry).trans (if_pos inPlace)

/-- What a run without another place for the new texts leaves of a file that it changes: the text of the file with the new
words behind keywords, all line ends being line feeds. These are the old bytes with the new words between them exactly if
no carriage return was among them. -/
theorem replaced_bytes {tools : Tools} {a : RunArguments} {settings : Settings} {s : CommandState}
    {work : List (String × Job)} (placed : WellPlaced tools a settings s work) (inPlace : a.out = none)
    (within : ∀ code, ∀ n ∈ (tools.parse code).root.preorder, n.stop ≤ (Utf8.encode code).length) :
    ∃ exitCode s', run tools a s = .ok exitCode s' ∧ ∀ entry ∈ work,
      let old := s.files.bytesAt entry.2.input
      let new := s'.files.bytesAt entry.2.input
      new ≠ old → ∃ (cs : List Char) (t : Table) (st : AnalysisState) (j₀ : Journal) (cuts : List Nat),
        let code := String.ofList (FileTree.unifyLineEnds cs)
        Utf8.decodeChars old = .ok cs ∧
        Table.ofSource (.ofText code (tools.parse code)) = .ok t ∧
        t.analyze { scopes := t.scopes, journal := j₀ } = .ok () st ∧
        (cuts.map some).Perm (st.analysis.promoted.map fun m => (t.lastKeyword? m).map (·.stop)) ∧
        Splice.Weaves (Utf8.encode " static") cuts (Utf8.encode code) new ∧
        (Utf8.carriageReturn ∉ old → Splice.Weaves (Utf8.encode " static") cuts old new) ∧
        (Utf8.carriageReturn ∈ old → ∀ cuts', ¬ Splice.Weaves (Utf8.encode " static") cuts' old new) := by
  obtain ⟨s₁, s', -, hrun, -⟩ := placed.run_spec (.inl inPlace)
  refine ⟨_, s', hrun, ?_⟩
  intro entry hentry old new hne
  have hsettled : new = Job.settled tools (modeOf settings) old :=
    placed.bytesAt_of_run inPlace hrun entry hentry
  rw [hsettled] at hne ⊢
  obtain ⟨cs, r, j, hchars, hresult, hchanged, hwritten⟩ := Job.rewritten hne
  obtain ⟨t, st, j₀, cuts, hbuilt, hanalyzed, -, hcuts, hwoven⟩ :=
    Refactoring.cuts_of_run hresult (Refactoring.errors_of_changed hresult hchanged) (within _)
  have hold : Utf8.encode (String.ofList cs) = old :=
    Utf8.encode_of_decode (by rw [Utf8.decode, hchars]; rfl)
  refine ⟨cs, t, st, j₀, cuts, hchars, hbuilt, hanalyzed, hcuts, hwritten ▸ hwoven, fun hnone => ?_,
    fun hsome cuts' hwoven' => ?_⟩
  · rw [← hold, Utf8.mem_encode_iff] at hnone
    rw [FileTree.unifyLineEnds_eq hnone, hold] at hwoven
    exact hwritten ▸ hwoven
  · -- the carriage return would have to be in the new words or in the unified text
    have hnew := hwoven'.mem_of_mem hsome
    rw [hwritten] at hnew
    rcases hwoven.mem_cases hnew with hword | htext
    · exact absurd hword (by decide +kernel)
    · rw [Utf8.mem_encode_iff] at htext
      exact FileTree.not_mem_unifyLineEnds cs htext

/-! ### two files that differ in one line end -/

def linesText : String := "class A \x7b\nprivate void f() \x7b \x7d \x7d"

def linesRewritten : String := "class A \x7b\nprivate static void f() \x7b \x7d \x7d"

def linesTools : Tools where
  parse code :=
    if code = linesText then
      { root := ⟨"program", true, false, 0, 32, none, [
          ⟨"class_declaration", true, false, 0, 32, none, [
            ⟨"identifier", true, false, 6, 7, some "name", []⟩,
            ⟨"class_body", true, false, 8, 32, some "body", [
              ⟨"method_declaration", true, false, 10, 30, none, [
                ⟨"modifiers", true, false, 10, 17, none, [
                  ⟨"private", false, false, 10, 17, none, []⟩]⟩,
                ⟨"void_type", true, false, 18, 22, some "type", []⟩,
                ⟨"identifier", true, false, 23, 24, some "name", []⟩,
                ⟨"formal_parameters", true, false, 24, 26, some "parameters", []⟩,
                ⟨"block", true, false, 27, 30, some "body", []⟩]⟩]⟩]⟩]⟩ }
    else { root := ⟨"program", true, false, 0, 0, none, []⟩ }
  readTable _ := none

def linesState : CommandState where
  files :=
    { dirs := [["d"]]
      files := [(["d", "A.java"], Utf8.encode linesText),
        (["d", "B.java"], Utf8.encode "class A \x7b\r\nprivate void f() \x7b \x7d \x7d")] }

def linesArguments : RunArguments where
  path := { names := ["d"] }

def linesSources : List Path :=
  [{ names := ["d", "A.java"] }, { names := ["d", "B.java"] }]

theorem lines_placed :
    WellPlaced linesTools linesArguments {} linesState (jobs linesArguments linesSources) := by
  have hloaded : Settings.load linesState.files linesTools.readTable
      (if linesState.files.isDir linesArguments.path then linesArguments.path
        else linesArguments.path.parent) (overrides linesArguments) = .ok {} := rfl
  have hsources : sources linesState.files {} linesArguments.path = .ok linesSources :=
    sources_of_select [.marks "*.java"] rfl (by decide +kernel) (by decide +kernel)
      (by decide +kernel)
  have hwork : workOf linesState.files {} linesArguments = .ok (jobs linesArguments linesSources) := by
    rw [workOf, hsources]
    rfl
  exact ⟨by decide +kernel, hloaded, hwork, by decide +kernel, by decide +kernel⟩

theorem lines_run {exitCode : Nat} {s' : CommandState}
    (h : run linesTools linesArguments linesState = .ok exitCode s') :
    s'.files.bytesAt { names := ["d", "A.java"] } = Utf8.encode linesRewritten ∧
      s'.files.bytesAt { names := ["d", "B.java"] } = Utf8.encode linesRewritten := by
  have hsettled : (linesSources.map fun p =>
      Job.settled linesTools (modeOf {}) (linesState.files.bytesAt p)) =
        [Utf8.encode linesRewritten, Utf8.encode linesRewritten] := by
    simp only [linesSources, List.map_cons, List.map_nil, Job.settled, Job.outcome, Job.refactor,
      Refactoring.run, Refactoring.stages, Table.promote, Splice.ordered_eq]
    decide +kernel
  rw [linesSources, List.map_cons, List.map_cons, List.map_nil, List.cons_eq_cons, List.cons_eq_cons]
    at hsettled
  have hkept := lines_placed.bytesAt_of_run rfl h
  simp only [jobs, linesSources, List.map_cons, List.map_nil, List.forall_mem_cons, memberJob,
    hsettled.1, hsettled.2.1] at hkept
  exact ⟨hkept.1, hkept.2.1⟩

theorem lines_within (code : String) :
    ∀ n ∈ (linesTools.parse code).root.preorder, n.stop ≤ (Utf8.encode code).length := by
  unfold linesTools
  dsimp only
  split
  next h =>
    rw [h]
    decide +kernel
  next =>
    intro n hn
    cases List.mem_singleton.mp hn
    exact Nat.zero_le _

/-- with line feeds alone, nothing but the new word is new -/
theorem lineFeeds_replaced_bytes :
    ∃ exitCode s', run linesTools linesArguments linesState = .ok exitCode s' ∧
      s'.files.bytesAt { names := ["d", "A.java"] } = Utf8.encode linesRewritten ∧
      ∃ cuts, Splice.Weaves (Utf8.encode " static") cuts (Utf8.encode linesText)
        (s'.files.bytesAt { names := ["d", "A.java"] }) := by
  obtain ⟨exitCode, s', hrun, hreplaced⟩ := replaced_bytes lines_placed rfl lines_within
  have hnew := (lines_run hrun).1
  have hold : linesState.files.bytesAt { names := ["d", "A.java"] } = Utf8.encode linesText := by
    decide +kernel
  simp only [jobs, linesSources, List.map_cons, List.map_nil, List.forall_mem_cons, memberJob, hnew,
    hold] at hreplaced
  obtain ⟨_, _, _, _, cuts, _, _, _, _, _, hwoven, _⟩ := hreplaced.1 (by decide +kernel)
  refine ⟨exitCode, s', hrun, hnew, cuts, ?_⟩
  rw [hnew]
  exact hwoven (by decide +kernel)

/-- a carriage return is lost, so the new bytes are not the old ones with new words between them -/
theorem carriage_return_lost :
    ∃ exitCode s', run linesTools linesArguments linesState = .ok exitCode s' ∧
      s'.files.bytesAt { names := ["d", "B.java"] } = Utf8.encode linesRewritten ∧
      ∀ cuts, ¬ Splice.Weaves (Utf8.encode " static") cuts
        (linesState.files.bytesAt { names := ["d", "B.java"] })
        (s'.files.bytesAt { names := ["d", "B.java"] }) := by
  obtain ⟨-, s', -, hrun, -⟩ := lines_placed.run_spec (.inl rfl)
  have hnew := (lines_run hrun).2
  refine ⟨_, s', hrun, hnew, fun cuts hwoven => ?_⟩
  have hmem : Utf8.carriageReturn ∈ linesState.files.bytesAt { names := ["d", "B.java"] } := by
    decide +kernel
  have hlost := hwoven.mem_of_mem hmem
  rw [hnew] at hlost
  exact absurd hlost (by decide +kernel)

end Command

end StaticPromotion
