import StaticPromotion.Command.Console
import StaticPromotion.Proofs.Runs

/-!
# What changes of files leave alone

A change of the tree makes directories where nothing stands, and makes or replaces files. So a directory stays one, a file
stays one, and a path that leads to a file leads to it ever after.

* `FileTree.placeOf`      where a path leads, by its names alone;
* `FileTree.Changes`      from one tree to a later one, with the places where files may differ. `refl`, `trans`, `mono`;
* `Changes.lookup_file`   a path to a file keeps its place;
* `FileTree.Limited`      a change that may replace only the files of some paths;
* `FileTree.lookup_of_writeBelow`   what is written is there;
* `Command.Limited`       the same for a step of a command, composed by `bind` and `recover`.
-/

namespace StaticPromotion

variable {c : FileChange} {u : Unit}

namespace FileTree

variable {t t' t'' : FileTree} {free free' : Location → Prop} {p : Path} {place : Location}
  {bytes : List UInt8} {names : List String}

/-! ## places -/

def placeOf (t : FileTree) (p : Path) : Location :=
  (t.resolve p).names

def step (place : Location) (name : String) : Location :=
  if name = ".." then place.dropLast else place ++ [name]

theorem follow_up (t : FileTree) (dir : Location) (rest : List String) :
    t.follow dir (".." :: rest) = t.follow dir.dropLast rest := by
  rw [follow.eq_def]
  exact if_pos rfl

section
variable {dir : Location} {name : String} (hname : name ≠ "..")
include hname

theorem follow_dir (hdir : t.isDirAt (dir ++ [name]) = true) (rest : List String) :
    t.follow dir (name :: rest) = t.follow (dir ++ [name]) rest := by
  rw [follow.eq_def]
  exact (if_neg hname).trans (if_pos hdir)

theorem follow_to_file (hdir : t.isDirAt (dir ++ [name]) = false)
    (hfile : t.fileAt? (dir ++ [name]) = some bytes) :
    t.follow dir [name] = .file (dir ++ [name]) bytes := by
  rw [follow.eq_def]
  dsimp only
  rw [if_neg hname, hdir, if_neg Bool.false_ne_true, hfile]

end

/-- names that lead to a place where there is no directory, but perhaps a file -/
theorem follow_found {dir : Location} {found : Option (List UInt8)}
    (h : t.follow dir names = found.elim (.absent place) (.file place)) :
    names.foldl step dir = place ∧ t.isDirAt place = false ∧ t.fileAt? place = found := by
  fun_induction FileTree.follow t dir names with
  | case2 dir rest ih =>
    rw [List.foldl_cons, step, if_pos rfl]
    exact ih h
  | case3 dir name rest hup _ ih =>
    rw [List.foldl_cons, step, if_neg hup]
    exact ih h
  | case4 dir name hup hdir _ hfound | case6 dir name hup hdir hfound =>
    cases found <;> cases h
    rw [List.foldl_cons, step, if_neg hup]
    exact ⟨rfl, Bool.eq_false_iff.mpr hdir, hfound⟩
  | _ => cases found <;> cases h

theorem lookup_file (h : t.lookup p = .file place bytes) :
    t.placeOf p = place ∧ t.isDirAt place = false ∧ t.fileAt? place = some bytes :=
  follow_found (show t.follow _ _ = (some bytes).elim _ (.file place) from h)

theorem lookup_absent (h : t.lookup p = .absent place) :
    t.placeOf p = place ∧ t.isDirAt place = false ∧ t.fileAt? place = none :=
  follow_found (show t.follow _ _ = Option.elim none _ (.file place) from h)

/-! ## later trees -/

structure Changes (free : Location → Prop) (t t' : FileTree) : Prop where
  cwd : t'.cwd = t.cwd
  dirs : ∀ l, t.isDirAt l = true → t'.isDirAt l = true
  kept : ∀ l bytes, t.isDirAt l = false → t.fileAt? l = some bytes →
    t'.isDirAt l = false ∧ ∃ bytes', t'.fileAt? l = some bytes'
  files : ∀ l, ¬ free l → t'.fileAt? l = t.fileAt? l

namespace Changes

theorem refl (free : Location → Prop) (t : FileTree) : Changes free t t :=
  ⟨rfl, fun _ h => h, fun _ bytes hdir h => ⟨hdir, bytes, h⟩, fun _ _ => rfl⟩

theorem trans (h : Changes free t t') (h' : Changes free t' t'') : Changes free t t'' where
  cwd := h'.cwd.trans h.cwd
  dirs l hl := h'.dirs l (h.dirs l hl)
  kept l bytes hdir hl := by
    obtain ⟨hdir', bytes', hl'⟩ := h.kept l bytes hdir hl
    exact h'.kept l bytes' hdir' hl'
  files l hl := (h'.files l hl).trans (h.files l hl)

theorem mono (h : Changes free t t') (hle : ∀ l, free l → free' l) : Changes free' t t' :=
  { h with files := fun l hl => h.files l fun hfree => hl (hle l hfree) }

theorem placeOf_eq (h : Changes free t t') (p : Path) : t'.placeOf p = t.placeOf p := by
  rw [placeOf, placeOf, resolve, resolve, h.cwd]

theorem follow_file (h : Changes free t t') {dir : Location}
    (hfollow : t.follow dir names = .file place bytes) :
    ∃ bytes', t'.follow dir names = .file place bytes' := by
  fun_induction FileTree.follow t dir names with
  | case1 => cases hfollow
  | case2 dir rest ih =>
    rw [follow_up]
    exact ih hfollow
  | case3 dir name rest hup hdir ih =>
    rw [follow_dir hup (h.dirs _ hdir)]
    exact ih hfollow
  | case4 dir name hup hdir found hfound =>
    cases hfollow
    obtain ⟨hdir', bytes', hfound'⟩ := h.kept _ _ (Bool.eq_false_iff.mpr hdir) hfound
    exact ⟨bytes', follow_to_file hup hdir' hfound'⟩
  | _ => cases hfollow

theorem lookup_file (h : Changes free t t') (hlookup : t.lookup p = .file place bytes) :
    ∃ bytes', t'.lookup p = .file place bytes' := by
  rw [lookup, h.cwd]
  exact h.follow_file hlookup

theorem lookup_eq (h : Changes free t t') (hlookup : t.lookup p = .file place bytes)
    (hfree : ¬ free place) : t'.lookup p = .file place bytes := by
  obtain ⟨bytes', hlookup'⟩ := h.lookup_file hlookup
  have hsame := h.files place hfree
  rw [(FileTree.lookup_file hlookup').2.2, (FileTree.lookup_file hlookup).2.2] at hsame
  cases hsame
  exact hlookup'

end Changes

/-! ## one change -/

theorem lookup_map_put (files : List (Location × List UInt8)) (place : Location)
    (bytes : List UInt8) (l : Location) :
    (files.map fun f => if f.1 = place then (place, bytes) else f).lookup l =
      if l = place then (files.lookup l).map fun _ => bytes else files.lookup l := by
  induction files with
  | nil => simp
  | cons f files ih =>
    obtain ⟨l', bytes'⟩ := f
    by_cases hl : l = l'
    · subst hl
      by_cases hplace : l = place <;> simp [hplace]
    · have hne : (l == l') = false := beq_false_of_ne hl
      by_cases hplace : l' = place
      · subst hplace
        simp [List.lookup_cons, hne, ih, hl]
      · simp [List.lookup_cons, hne, ih, hplace]

theorem fileAt?_putFile (t : FileTree) (place : Location) (bytes : List UInt8) (l : Location) :
    (t.putFile place bytes).fileAt? l = if l = place then some bytes else t.fileAt? l := by
  rw [putFile]
  by_cases hsome : (t.fileAt? place).isSome = true
  · obtain ⟨old, hold⟩ := Option.isSome_iff_exists.mp hsome
    rw [if_pos hsome, fileAt?, lookup_map_put]
    by_cases hl : l = place
    · subst hl
      rw [if_pos rfl, if_pos rfl, show t.files.lookup l = some old from hold]
      rfl
    · rw [if_neg hl, if_neg hl, fileAt?]
  · have hnone : t.files.lookup place = none := Option.not_isSome_iff_eq_none.mp hsome
    rw [if_neg hsome, fileAt?, List.lookup_append]
    by_cases hl : l = place
    · subst hl
      rw [if_pos rfl, hnone]
      simp
    · rw [if_neg hl, fileAt?, List.lookup_cons, beq_false_of_ne hl]
      simp

theorem changes_putFile (t : FileTree) (place : Location) (bytes : List UInt8) :
    Changes (· = place) t (t.putFile place bytes) where
  cwd := by rw [putFile]; split <;> rfl
  dirs l hl := by rw [putFile]; split <;> exact hl
  kept l old hdir hl := by
    refine ⟨by rw [putFile]; split <;> exact hdir, ?_⟩
    rw [fileAt?_putFile]
    split
    · exact ⟨bytes, rfl⟩
    · exact ⟨old, hl⟩
  files l hl := by rw [fileAt?_putFile, if_neg hl]

theorem changes_addDir (h : t.fileAt? place = none) : Changes (fun _ => False) t (t.addDir place) where
  cwd := rfl
  dirs l hl := by
    simp only [isDirAt, addDir, Bool.or_eq_true, List.contains_eq_mem, decide_eq_true_eq,
      List.mem_append] at hl ⊢
    exact hl.imp_right .inl
  kept l old hdir hl := by
    refine ⟨?_, old, hl⟩
    have hne : l ≠ place := fun heq => by rw [heq, h] at hl; cases hl
    simp only [isDirAt, addDir, Bool.or_eq_false_iff, List.contains_eq_mem, decide_eq_false_iff_not,
      List.mem_append, List.mem_singleton, not_or] at hdir ⊢
    exact ⟨hdir.1, hdir.2, hne⟩
  files _ _ := rfl

/-- putting a file where a path leads keeps the way to it -/
theorem lookup_putFile (h : (∃ old, t.lookup p = .file place old) ∨ t.lookup p = .absent place)
    (bytes : List UInt8) : (t.putFile place bytes).lookup p = .file place bytes := by
  have hdirs : ∀ l, (t.putFile place bytes).isDirAt l = t.isDirAt l := by
    intro l
    rw [putFile]
    split <;> rfl
  have hcwd : (t.putFile place bytes).cwd = t.cwd := (changes_putFile t place bytes).cwd
  rw [lookup] at h ⊢
  rw [hcwd]
  generalize (if p.isAbsolute then [] else t.cwd) = dir at h ⊢
  generalize p.names = names at h ⊢
  fun_induction FileTree.follow t dir names with
  | case1 => rcases h with ⟨_, h⟩ | h <;> cases h
  | case2 dir rest ih =>
    rw [follow_up]
    exact ih h
  | case3 dir name rest hup hdir ih =>
    rw [follow_dir hup ((hdirs _).trans hdir)]
    exact ih h
  | case4 dir name hup hdir found hfound =>
    rcases h with ⟨_, h⟩ | h <;> cases h
    exact follow_to_file hup ((hdirs _).trans (Bool.eq_false_iff.mpr hdir)) (by simp [fileAt?_putFile])
  | case5 => rcases h with ⟨_, h⟩ | h <;> cases h
  | case6 dir name hup hdir hfound =>
    rcases h with ⟨_, h⟩ | h <;> cases h
    exact follow_to_file hup ((hdirs _).trans (Bool.eq_false_iff.mpr hdir)) (by simp [fileAt?_putFile])
  | case7 => rcases h with ⟨_, h⟩ | h <;> cases h

/-! ## changes that replace only some files -/

/-- the places of some paths -/
def Among (t : FileTree) (paths : List Path) (l : Location) : Prop :=
  ∃ p ∈ paths, t.placeOf p = l

theorem Changes.among_eq (h : Changes free t t') (paths : List Path) : t'.Among paths = t.Among paths := by
  funext l
  simp only [Among, h.placeOf_eq]

theorem Among.mono {paths paths' : List Path} (hle : ∀ p ∈ paths, p ∈ paths') {l : Location}
    (h : t.Among paths l) : t.Among paths' l := by
  obtain ⟨p, hp, rfl⟩ := h
  exact ⟨p, hle p hp, rfl⟩

def Limited (paths : List Path) (c : FileChange) : Prop :=
  ∀ t, Changes (t.Among paths) t (Run.after (c t))

theorem Limited.mono {paths paths' : List Path} (h : Limited paths c) (hle : ∀ p ∈ paths, p ∈ paths') :
    Limited paths' c :=
  fun t => (h t).mono fun _ => Among.mono hle

theorem Limited.seq {paths : List Path} {c' : FileChange} (h : Limited paths c) (h' : Limited paths c') :
    Limited paths (do c; c') := by
  intro t
  have hfirst := h t
  cases hc : c t with
  | ok _ t₁ =>
    rw [hc, Run.after_ok] at hfirst
    rw [Run.bind_of_ok hc]
    have hsecond := h' t₁
    rw [hfirst.among_eq] at hsecond
    exact hfirst.trans hsecond
  | error e t₁ =>
    rw [hc, Run.after_error] at hfirst
    rw [Run.bind_of_error hc]
    exact hfirst

theorem makeDir_cases (p : Path) (t : FileTree) :
    (∃ place, t.lookup p = .absent place ∧ makeDir p t = .ok () (t.addDir place)) ∨
      Run.after (makeDir p t) = t := by
  rw [makeDir, Run.get_bind]
  cases hlookup : t.lookup p with
  | absent place => exact .inl ⟨place, rfl, rfl⟩
  | _ => exact .inr rfl

theorem limited_makeDir (p : Path) : Limited [] (makeDir p) := by
  intro t
  rcases makeDir_cases p t with ⟨place, hlookup, hmade⟩ | hsame
  · rw [hmade]
    exact (changes_addDir (lookup_absent hlookup).2.2).mono fun _ h => h.elim
  · rw [hsame]
    exact .refl _ _

theorem limited_makeDirsWithin (depth : Nat) (p : Path) : Limited [] (makeDirsWithin depth p) := by
  induction depth generalizing p with
  | zero => exact limited_makeDir p
  | succ depth ih =>
    intro t
    rw [makeDirsWithin, Run.get_bind]
    cases t.lookup p with
    | noWay => exact (ih p.parent).seq (limited_makeDir p) t
    | _ => exact limited_makeDir p t

theorem write_cases (p : Path) (bytes : List UInt8) (t : FileTree) :
    (∃ place, ((∃ old, t.lookup p = .file place old) ∨ t.lookup p = .absent place) ∧
        write p bytes t = .ok () (t.putFile place bytes)) ∨
      ∃ e, write p bytes t = .error e t := by
  rw [write, Run.get_bind]
  cases hlookup : t.lookup p with
  | file place old => exact .inl ⟨place, .inl ⟨old, rfl⟩, rfl⟩
  | absent place => exact .inl ⟨place, .inr rfl, rfl⟩
  | _ => exact .inr ⟨_, rfl⟩

theorem limited_write (p : Path) (bytes : List UInt8) : Limited [p] (write p bytes) := by
  intro t
  rcases write_cases p bytes t with ⟨place, hlookup, hwritten⟩ | ⟨e, hfailed⟩
  · rw [hwritten]
    refine (changes_putFile t place bytes).mono ?_
    rintro _ rfl
    refine ⟨p, List.mem_singleton_self p, ?_⟩
    rcases hlookup with ⟨old, hlookup⟩ | hlookup
    · exact (lookup_file hlookup).1
    · exact (lookup_absent hlookup).1
  · rw [hfailed]
    exact .refl _ _

theorem limited_writeBelow (p : Path) (bytes : List UInt8) : Limited [p] (writeBelow p bytes) :=
  ((limited_makeDirsWithin _ _).mono (fun _ h => absurd h List.not_mem_nil)).seq (limited_write p bytes)

theorem lookup_of_write (h : write p bytes t = .ok u t') : ∃ place, t'.lookup p = .file place bytes := by
  rcases write_cases p bytes t with ⟨place, hlookup, hwritten⟩ | ⟨e, hfailed⟩
  · cases hwritten.symm.trans h
    exact ⟨place, lookup_putFile hlookup bytes⟩
  · cases hfailed.symm.trans h

theorem lookup_of_writeBelow (h : writeBelow p bytes t = .ok u t') :
    ∃ place, t'.lookup p = .file place bytes := by
  obtain ⟨_, t₁, _, hwritten⟩ := Run.of_bind_ok h
  exact lookup_of_write hwritten

end FileTree

/-! ## steps of a command -/

namespace Command

variable {ε δ α β : Type} {paths paths' : List Path} {handle : δ → Command ε α} {x : Command δ α}
  {s : CommandState}

/-- a step that may replace only the files of some paths, whether it meets a fault or not -/
def Limited (paths : List Path) (x : Command ε α) : Prop :=
  ∀ s, FileTree.Changes (s.files.Among paths) s.files (Run.after (x s)).files

theorem limited_of_files {x : Command ε α} (h : ∀ s, (Run.after (x s)).files = s.files) : Limited paths x := by
  intro s
  rw [h]
  exact .refl _ _

theorem limited_pure (a : α) : Limited paths (pure a : Command ε α) := limited_of_files fun _ => rfl

theorem limited_say (level : LogLevel) (message : String) :
    Limited paths (say level message : Command ε Unit) :=
  limited_of_files fun _ => rfl

theorem limited_showLog (verbose : Bool) (log : List LogLine) :
    Limited paths (showLog verbose log : Command ε Unit) :=
  limited_of_files fun _ => rfl

theorem Limited.bind {x : Command ε α} {f : α → Command ε β} (hx : Limited paths x)
    (hf : ∀ a, Limited paths (f a)) : Limited paths (x >>= f) := by
  intro s
  have hfirst := hx s
  cases hstep : x s with
  | ok a s₁ =>
    rw [hstep, Run.after_ok] at hfirst
    rw [Run.bind_of_ok hstep]
    have hsecond := hf a s₁
    rw [hfirst.among_eq] at hsecond
    exact hfirst.trans hsecond
  | error e s₁ =>
    rw [hstep, Run.after_error] at hfirst
    rw [Run.bind_of_error hstep]
    exact hfirst

theorem recover_of_ok {s₁ : CommandState} {a : α} (h : x s = .ok a s₁) : x.recover handle s = .ok a s₁ := by
  rw [recover, EStateM.run, h]

theorem recover_of_error {s₁ : CommandState} {e : δ} (h : x s = .error e s₁) :
    x.recover handle s = handle e s₁ := by
  rw [recover, EStateM.run, h]

theorem recover_returns (h : ∀ e s, ∃ a s', handle e s = .ok a s') (s : CommandState) :
    ∃ a s', x.recover handle s = .ok a s' := by
  cases hstep : x s with
  | ok a s₁ => exact ⟨a, s₁, recover_of_ok hstep⟩
  | error e s₁ =>
    rw [recover_of_error hstep]
    exact h e s₁

theorem Limited.recover (hx : Limited paths x) (hhandle : ∀ e, Limited paths (handle e)) :
    Limited paths (x.recover handle) := by
  intro s
  have hfirst := hx s
  cases hstep : x s with
  | ok a s₁ =>
    rw [hstep, Run.after_ok] at hfirst
    rw [recover_of_ok hstep]
    exact hfirst
  | error e s₁ =>
    rw [hstep, Run.after_error] at hfirst
    rw [recover_of_error hstep]
    have hsecond := hhandle e s₁
    rw [hfirst.among_eq] at hsecond
    exact hfirst.trans hsecond

theorem change_of_ok {t : FileTree} (h : c s.files = .ok u t) :
    change c s = .ok () { s with files := t } := by
  rw [change, EStateM.run, h]

theorem change_of_error {e : FileError} {t : FileTree} (h : c s.files = .error e t) :
    change c s = .error e { s with files := t } := by
  rw [change, EStateM.run, h]

theorem Limited.change (h : FileTree.Limited paths c) : Limited paths (change c) := by
  intro s
  have hfiles := h s.files
  cases hc : c s.files with
  | ok _ files =>
    rw [hc] at hfiles
    rw [change_of_ok hc]
    exact hfiles
  | error e files =>
    rw [hc] at hfiles
    rw [change_of_error hc]
    exact hfiles

end Command

end StaticPromotion
