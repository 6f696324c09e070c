/-
Marginalia.Proofs.Program — runs whose settings cannot be loaded.

Whatever keeps the settings from being loaded is a `LoadError`
(`Settings.exists_of_load_eq_error`), and no scan follows. A run ends with code
1 and one notice only if the error counts as invalid settings; any other error
ends it without a code (`run_of_load_error`). A settings file that exists but
cannot be opened is of the second kind (`Program.run_of_denied`), so that a
missing file is reported and a denied one is not. The notice is shown unless
the threshold is above that of errors.
-/
import Mathlib
import Marginalia.Program

namespace Marginalia

/-! ## 1. Loading -/

/-- Whether a notice says that the settings cannot be used. -/
def Notice.isInvalidSettings : Notice → Bool
  | .invalidSettings _ => true
  | _ => false

namespace Settings

variable {disk : Disk} {path : Option Text}

theorem readFile_eq_error {file : Text} {f : Fault} (h : (readFile disk file).result = .error f) :
    ∃ e, f = .load e := by
  simp only [readFile] at h
  cases hfile : ofFile disk file with
  | ok settings =>
    rw [hfile] at h
    cases h
  | error e =>
    rw [hfile] at h
    exact ⟨e, (Except.error.inj h).symm⟩

/-- Settings are the default ones, or those of a file, or the path does not exist. -/
theorem load_cases (disk : Disk) (path : Option Text) :
    (∃ directory, load disk path = ⟨[.noSettingsFile directory], .ok {}⟩) ∨
      (∃ file, load disk path = readFile disk file) ∨
      ∃ candidate, load disk path = .failed (.load (.missing candidate)) := by
  unfold load
  extract_lets candidate
  split
  next =>
    split
    next => exact .inl ⟨_, rfl⟩
    next file _ => exact .inr (.inl ⟨file, rfl⟩)
  next =>
    split
    next => exact .inr (.inl ⟨candidate, rfl⟩)
    next => exact .inr (.inr ⟨candidate, rfl⟩)

/-- No other fault keeps the settings from being loaded. -/
theorem exists_of_load_eq_error {f : Fault} (h : (load disk path).result = .error f) :
    ∃ e, f = .load e := by
  rcases load_cases disk path with ⟨directory, hload⟩ | ⟨file, hload⟩ | ⟨candidate, hload⟩
  · rw [hload] at h
    cases h
  · rw [hload] at h
    exact readFile_eq_error h
  · rw [hload] at h
    exact ⟨_, (Except.error.inj h).symm⟩

theorem isInvalidSettings_of_load {n : Notice} (h : n ∈ (load disk path).notices) :
    n.isInvalidSettings = false := by
  rcases load_cases disk path with ⟨directory, hload⟩ | ⟨file, hload⟩ | ⟨candidate, hload⟩
  · rw [hload] at h
    obtain rfl := List.mem_singleton.mp h
    rfl
  · rw [hload] at h
    obtain rfl := List.mem_singleton.mp h
    rfl
  · rw [hload] at h
    cases h

/-- A file that exists and is no directory is opened, and what comes of that is the result. -/
theorem load_of_read_error {file : Text} {error : DiskError} (hfile : file ≠ [])
    (hdirectory : disk.isDirectory (disk.absolute file) = false)
    (hpath : disk.hasPath (disk.absolute file) = true)
    (hread : disk.read (disk.absolute file) = .error error) :
    (load disk (some file)).result = .error (.load (.disk (disk.absolute file) error)) := by
  obtain ⟨c, rest, rfl⟩ := List.exists_cons_of_ne_nil hfile
  have hofFile : ofFile disk (disk.absolute (c :: rest))
      = .error (.disk (disk.absolute (c :: rest)) error) := by rw [ofFile, hread]
  simp only [load, hdirectory, hpath, readFile, hofFile]
  rfl

end Settings

/-! ## 2. Runs -/

namespace Program

variable {s : Surroundings} {words : List Text} {o : Options}

theorem isInvalidSettings_of_checkLocale {locale : Text} {n : Notice}
    (h : n ∈ (checkLocale locale).notices) : n.isInvalidSettings = false := by
  simp only [checkLocale, Outcome.report] at h
  split at h
  next => cases h
  next =>
    obtain rfl := List.mem_singleton.mp h
    rfl

/-- What is reported before it is known whether the settings can be used. -/
def loadNotices (s : Surroundings) (o : Options) : List Notice :=
  (checkLocale s.locale).notices ++ (Settings.load s.disk (some o.config)).notices

theorem filter_loadNotices (s : Surroundings) (o : Options) (rank : Nat) :
    ((loadNotices s o).filter (·.isShownAt rank)).filter (·.isInvalidSettings) = [] := by
  refine List.filter_eq_nil_iff.mpr fun n hn => ?_
  have hn := (List.mem_filter.mp hn).1
  rw [Bool.not_eq_true]
  exact (List.mem_append.mp hn).elim isInvalidSettings_of_checkLocale
    Settings.isInvalidSettings_of_load

/-- A run whose settings are invalid. -/
theorem perform_of_isInvalid {e : LoadError}
    (hload : (Settings.load s.disk (some o.config)).result = .error (.load e))
    (he : e.isInvalid = true) :
    perform s o = ⟨loadNotices s o ++ [.invalidSettings e.message], .ok { code := 1 }⟩ := by
  simp [perform, Outcome.andThen, checkLocale, Outcome.report, hload, he, loadNotices]

/-- A run whose settings cannot be read at all. -/
theorem perform_of_not_isInvalid {e : LoadError}
    (hload : (Settings.load s.disk (some o.config)).result = .error (.load e))
    (he : e.isInvalid = false) : perform s o = ⟨loadNotices s o, .error (.load e)⟩ := by
  simp [perform, Outcome.andThen, checkLocale, Outcome.report, hload, he, loadNotices,
    Outcome.failed]

theorem filter_shownAt_invalidSettings (rank : Nat) (reason : Text) :
    ([Notice.invalidSettings reason].filter (·.isShownAt rank)).filter (·.isInvalidSettings)
      = if rank ≤ Level.error.rank then [.invalidSettings reason] else [] := by
  by_cases hrank : rank ≤ Level.error.rank
  · have hshown : (Notice.invalidSettings reason).isShownAt rank = true := decide_eq_true hrank
    rw [if_pos hrank, List.filter_cons_of_pos hshown]
    rfl
  · have hshown : (Notice.invalidSettings reason).isShownAt rank = false := decide_eq_false hrank
    rw [if_neg hrank, List.filter_cons_of_neg (by rw [hshown]; exact Bool.false_ne_true)]
    rfl

theorem run_eq_perform (hwords : Options.read words = .ok o) :
    run s words = (perform s o).shownAt o.threshold.rank := by
  simp only [run, hwords]

/-- **How a run ends whose settings cannot be loaded.** Invalid settings give code 1, no output, and
one notice unless the threshold hides errors; of any other cause the run gives no code, and says
nothing. -/
theorem run_of_load_error {f : Fault} (hwords : Options.read words = .ok o)
    (hload : (Settings.load s.disk (some o.config)).result = .error f) :
    ∃ e, f = .load e ∧
      (e.isInvalid = true → (run s words).result = .ok { code := 1 } ∧
        (run s words).notices.filter (·.isInvalidSettings)
          = if o.threshold.rank ≤ Level.error.rank then [.invalidSettings e.message] else []) ∧
      (e.isInvalid = false → (run s words).result = .error (.load e) ∧
        (run s words).notices.filter (·.isInvalidSettings) = []) := by
  obtain ⟨e, rfl⟩ := Settings.exists_of_load_eq_error hload
  refine ⟨e, rfl, fun he => ?_, fun he => ?_⟩
  · rw [run_eq_perform hwords, perform_of_isInvalid hload he]
    refine ⟨rfl, ?_⟩
    rw [Outcome.shownAt, List.filter_append, List.filter_append, filter_loadNotices,
      filter_shownAt_invalidSettings, List.nil_append]
  · rw [run_eq_perform hwords, perform_of_not_isInvalid hload he]
    exact ⟨rfl, filter_loadNotices s o _⟩

/-- A settings file that exists but cannot be opened ends the run without a code. -/
theorem run_of_denied (hwords : Options.read words = .ok o) (hconfig : o.config ≠ [])
    (hdirectory : s.disk.isDirectory (s.disk.absolute o.config) = false)
    (hpath : s.disk.hasPath (s.disk.absolute o.config) = true)
    (hdenied : s.disk.denies (s.disk.absolute o.config) = true) :
    (run s words).result = .error (.load (.disk (s.disk.absolute o.config) .denied)) := by
  have hread : s.disk.read (s.disk.absolute o.config) = .error .denied := by
    rw [Disk.read, if_pos hdenied]
  have hload := Settings.load_of_read_error hconfig hdirectory hpath hread
  rw [run_eq_perform hwords, perform_of_not_isInvalid hload rfl]
  rfl

/-- One settings file, which cannot be opened. -/
def lockedSettings : Surroundings where
  disk := {
    root := [("w".toList, .directory [("c.yaml".toList, .file "exclude: []\n".toUTF8.toList)])]
    denied := ["/w/c.yaml".toList] }

/-- A path that does not exist is reported. -/
theorem run_missing_settings :
    Options.read ["-c".toList, "/w/d.yaml".toList] = .ok { config := "/w/d.yaml".toList } ∧
      (Settings.load lockedSettings.disk (some "/w/d.yaml".toList)).result
        = .error (.load (.missing "/w/d.yaml".toList)) ∧
      (run lockedSettings ["-c".toList, "/w/d.yaml".toList]).result = .ok { code := 1 } ∧
      (run lockedSettings ["-c".toList, "/w/d.yaml".toList]).notices.filter (·.isInvalidSettings)
        = [.invalidSettings "Config file not found: /w/d.yaml".toList] := by
  have hwords : Options.read ["-c".toList, "/w/d.yaml".toList]
      = .ok { config := "/w/d.yaml".toList } := by cbv
  have hload : (Settings.load lockedSettings.disk (some "/w/d.yaml".toList)).result
      = .error (.load (.missing "/w/d.yaml".toList)) := by cbv
  obtain ⟨e, he, hinvalid, -⟩ := run_of_load_error hwords hload
  obtain rfl := Fault.load.inj he
  exact ⟨hwords, hload, hinvalid rfl⟩

/-- A file that cannot be opened is not reported. -/
theorem run_locked_settings :
    Options.read ["-c".toList, "/w/c.yaml".toList] = .ok { config := "/w/c.yaml".toList } ∧
      (Settings.load lockedSettings.disk (some "/w/c.yaml".toList)).result
        = .error (.load (.disk "/w/c.yaml".toList .denied)) ∧
      (run lockedSettings ["-c".toList, "/w/c.yaml".toList]).result
        = .error (.load (.disk "/w/c.yaml".toList .denied)) ∧
      (run lockedSettings ["-c".toList, "/w/c.yaml".toList]).notices = [] := by
  refine ⟨by cbv, by cbv, by cbv, by cbv⟩

end Program

end Marginalia
