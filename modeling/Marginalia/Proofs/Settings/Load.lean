/-
Marginalia.Proofs.Settings.Load — what comes of a settings file that can be read.

A path stands for a settings file (`fileFor?`), and the file holds a YAML value
(`Holds`). Whether loading succeeds, and with which settings, is then decided by
the value and the place of the file. The place is an absolute path however it
was found, since it starts from the working directory or from a path that was
completed by it; so is the directory that it lies in, and with it every root
(`isAbsolute_of_mem_roots`). From there on the working directory has no part in
it.

What keeps a file from being read as YAML is not treated here.
-/
import Mathlib
import Marginalia.Proofs.Path.Normal
import Marginalia.Proofs.Settings.Values
import Marginalia.Settings.Load

namespace Marginalia

/-! ## 1. The directory of a path -/

namespace Path

theorem parent_isPrefix (path : Text) : parent path <+: path := by
  have hhead : path.dropEndWhile (· ≠ '/') <+: path := List.rdropWhile_prefix _ _
  unfold parent
  dsimp only
  split
  next => exact hhead
  next => exact (List.rdropWhile_prefix _ _).trans hhead

theorem parent_ne_nil {path : Text} (h : '/' ∈ path) : parent path ≠ [] := by
  unfold parent
  dsimp only
  split
  next =>
    intro hnil
    have hplain := List.rdropWhile_eq_nil_iff.mp hnil '/' h
    simp at hplain
  next hsome =>
    intro hnil
    exact hsome (List.all_eq_true.mpr (List.rdropWhile_eq_nil_iff.mp hnil))

theorem isAbsolute_parent {path : Text} (h : isAbsolute path = true) :
    isAbsolute (parent path) = true := by
  have hhead : path.head? = some '/' := by simpa [isAbsolute] using h
  have hslash : '/' ∈ path := List.mem_of_mem_head? hhead
  obtain ⟨rest, hrest⟩ := parent_isPrefix path
  obtain ⟨c, directory, hdirectory⟩ := List.exists_cons_of_ne_nil (parent_ne_nil hslash)
  rw [← hrest, hdirectory] at hhead
  rw [hdirectory]
  simpa [isAbsolute] using hhead

end Path

namespace Settings

variable {disk : Disk} {path : Option Text} {file : Text} {v : Yaml.Value}

/-! ## 2. The settings file -/

/-- Where settings are looked for: at a path, or in the working directory if there is none. -/
def lookedAt (disk : Disk) : Option Text → Text
  | none | some [] => disk.cwd
  | some path => disk.absolute path

/-- The settings file that a path stands for, if there is one. -/
def fileFor? (disk : Disk) (path : Option Text) : Option Text :=
  if disk.isDirectory (lookedAt disk path) then fileIn? disk (lookedAt disk path)
  else if disk.hasPath (lookedAt disk path) then some (lookedAt disk path)
  else none

theorem load_of_fileFor? (h : fileFor? disk path = some file) :
    load disk path = readFile disk file := by
  unfold load
  extract_lets candidate
  have hcandidate : lookedAt disk path = candidate := rfl
  rw [fileFor?, hcandidate] at h
  split at h
  next hdirectory => rw [if_pos hdirectory, h]
  next hdirectory =>
    split at h
    next hpath =>
      obtain rfl := Option.some.inj h
      rw [if_neg hdirectory, if_pos hpath]
    next => cases h

theorem isAbsolute_lookedAt (hcwd : Path.isAbsolute disk.cwd = true) (path : Option Text) :
    Path.isAbsolute (lookedAt disk path) = true := by
  unfold lookedAt
  split
  next => exact hcwd
  next => exact hcwd
  next path _ => exact Path.isAbsolute_absolute hcwd path

/-- The place of a settings file is an absolute path, however the file was named. -/
theorem isAbsolute_of_fileFor? (hcwd : Path.isAbsolute disk.cwd = true)
    (h : fileFor? disk path = some file) : Path.isAbsolute file = true := by
  have hlookedAt := isAbsolute_lookedAt hcwd path
  unfold fileFor? at h
  split at h
  next =>
    obtain ⟨name, _, rfl⟩ := List.mem_map.mp (List.mem_of_find?_eq_some h)
    exact Path.isAbsolute_join hlookedAt name
  next =>
    split at h
    next => exact Option.some.inj h ▸ hlookedAt
    next => cases h

/-- Whether a file can be read and holds a YAML value. The value may be looked at more deeply than
reading does. -/
def Holds (disk : Disk) (file : Text) (v : Yaml.Value) : Prop :=
  ∃ bytes text deep, disk.read file = .ok bytes ∧ Utf8.decodeStream bytes = .ok text ∧
    depth ≤ deep ∧ Yaml.read deep (Utf8.universalNewlines text) = .ok v

/-! ## 3. Loading -/

/-- A text that holds a value at some depth holds one at any other, and the deeper one says what the
other says. -/
theorem exists_read_depth {deep : Nat} {text : Text} (hdeep : depth ≤ deep)
    (h : Yaml.read deep text = .ok v) (file : Text) :
    ∃ v', Yaml.read depth text = .ok v' ∧ ofValue file v = ofValue file v' := by
  unfold Yaml.read at h ⊢
  cases htokens : Yaml.Graph.ofTokens? (Yaml.tokensOf text) with
  | error e =>
    rw [htokens] at h
    cases h
  | ok graph =>
    rw [htokens] at h
    cases graph with
    | none =>
      cases h
      exact ⟨_, rfl, rfl⟩
    | some g =>
      cases hcheck : g.check with
      | error e =>
        simp only [bind, Except.bind, hcheck] at h
        cases h
      | ok g' =>
        simp only [bind, Except.bind, pure, Except.pure, hcheck] at h ⊢
        obtain rfl := Except.ok.inj h
        obtain ⟨more, rfl⟩ := Nat.exists_eq_add_of_le hdeep
        exact ⟨_, rfl, ofValue_value file g' more g'.root⟩

/-- What comes of a settings file is what its value says. -/
theorem result_of_holds (hfile : fileFor? disk path = some file) (hholds : Holds disk file v) :
    (load disk path).result = (ofValue file v).mapError fun e => .load (.settings file e) := by
  obtain ⟨bytes, text, deep, hread, hdecode, hdeep, hvalue⟩ := hholds
  obtain ⟨v', hv', hsame⟩ := exists_read_depth hdeep hvalue file
  rw [load_of_fileFor? hfile, readFile, ofFile, hread]
  dsimp only
  rw [hdecode]
  dsimp only
  rw [ofText, hv', hsame]
  dsimp only
  cases ofValue file v' <;> rfl

/-- Every configured root is an absolute path. -/
theorem isAbsolute_of_mem_roots (hfile : Path.isAbsolute file = true) {s : Settings}
    (h : Says file v s) : ∀ root ∈ s.roots, Path.isAbsolute root = true := by
  obtain ⟨texts, _, hroots⟩ := h.roots
  intro root hroot
  rw [hroots] at hroot
  obtain ⟨given, _, rfl⟩ := List.mem_map.mp hroot
  split
  next habsolute => exact habsolute
  next =>
    exact Path.isAbsolute_normalise (Path.isAbsolute_join (Path.isAbsolute_parent hfile) given)

/-- **Settings are loaded from well-formed values only, and in normal form.** Of a file that can be
read, loading gives settings exactly if its value is well-formed, and those that the value says;
else it reports something that is wrong with the value. All roots are absolute paths, and the same
comes of the same value in the same place, whatever the working directory is. -/
theorem load_of_holds (hcwd : Path.isAbsolute disk.cwd = true) (hfile : fileFor? disk path = some file)
    (hholds : Holds disk file v) :
    Path.isAbsolute file = true ∧
      ((∃ s, (load disk path).result = .ok s) ↔ WellFormed v) ∧
      (∀ s, (load disk path).result = .ok s ↔ Says file v s) ∧
      (¬WellFormed v →
        ∃ e, (load disk path).result = .error (.load (.settings file e)) ∧ Wrong v e) ∧
      (∀ s, Says file v s → ∀ root ∈ s.roots, Path.isAbsolute root = true) ∧
      ∀ disk' path', fileFor? disk' path' = some file → Holds disk' file v →
        (load disk' path').result = (load disk path).result := by
  have hresult := result_of_holds hfile hholds
  have hmeant : ∀ s, (load disk path).result = .ok s ↔ Says file v s := by
    intro s
    rw [hresult, ← ofValue_eq_ok_iff]
    cases ofValue file v <;> simp [Except.mapError]
  have hplace := isAbsolute_of_fileFor? hcwd hfile
  refine ⟨hplace, ?accepted, hmeant, ?refused, fun s => isAbsolute_of_mem_roots hplace, ?same⟩
  case accepted =>
    simp only [hmeant]
    exact exists_says_iff
  case refused =>
    intro hv
    rcases ofValue_cases file v with ⟨s, _, hs⟩ | ⟨e, he, hwrong⟩
    · exact absurd hs.wellFormed hv
    · exact ⟨e, by rw [hresult, he]; rfl, hwrong⟩
  case same =>
    intro disk' path' hfile' hholds'
    rw [hresult, result_of_holds hfile' hholds']

/-- A settings file with roots of both kinds, and with texts that are blank or have blank ends. -/
def paddedText : Text :=
  "roots: [src, /abs/../x, ' ']\nexclude: ' *.js '\nfileExtensions:\n- ts\n- ''\n".toList

/-- A directory with this file in it. -/
def paddedDisk : Disk where
  root := [("w".toList, .directory [("conf".toList, .directory [
    ("comment-explorer.yml".toList, .file (Utf8.encode paddedText))])])]
  cwd := "/w".toList

/-- What the file says. -/
def paddedSettings : Settings where
  fileExtensions := ["ts".toList]
  exclude := ["*.js".toList]
  roots := ["/w/conf/src".toList, "/abs/../x".toList]

theorem load_of_holds_padded :
    Path.isAbsolute paddedDisk.cwd = true ∧
      fileFor? paddedDisk (some "conf".toList) = some "/w/conf/comment-explorer.yml".toList ∧
      ∃ v, Holds paddedDisk "/w/conf/comment-explorer.yml".toList v ∧ WellFormed v ∧
        Says "/w/conf/comment-explorer.yml".toList v paddedSettings ∧
        (load paddedDisk (some "conf".toList)).result = .ok paddedSettings ∧
        ∀ root ∈ paddedSettings.roots, Path.isAbsolute root = true := by
  have hfile : fileFor? paddedDisk (some "conf".toList)
      = some "/w/conf/comment-explorer.yml".toList := by cbv
  have hread : paddedDisk.read "/w/conf/comment-explorer.yml".toList
      = .ok (Utf8.encode paddedText) := by cbv
  have hdecode : Utf8.decodeStream (Utf8.encode paddedText) = .ok paddedText := by decide +kernel
  have htext : (ofText "/w/conf/comment-explorer.yml".toList paddedText).toOption
      = some paddedSettings := by decide +kernel
  cases hv : Yaml.read depth (Utf8.universalNewlines paddedText) with
  | error e =>
    rw [ofText, hv] at htext
    cases htext
  | ok v =>
    have hholds : Holds paddedDisk "/w/conf/comment-explorer.yml".toList v :=
      ⟨_, _, depth, hread, hdecode, Nat.le_refl _, hv⟩
    have hvalue : ofValue "/w/conf/comment-explorer.yml".toList v = .ok paddedSettings := by
      rw [ofText, hv] at htext
      dsimp only at htext
      cases hof : ofValue "/w/conf/comment-explorer.yml".toList v with
      | error e =>
        rw [hof] at htext
        cases htext
      | ok s =>
        rw [hof] at htext
        exact congrArg Except.ok (Option.some.inj htext)
    have hs := ofValue_eq_ok_iff.mp hvalue
    obtain ⟨-, hwellFormed, hmeant, -, hrooted, -⟩ := load_of_holds rfl hfile hholds
    have hload := (hmeant _).mpr hs
    exact ⟨rfl, hfile, v, hholds, hwellFormed.mp ⟨_, hload⟩, hs, hload, hrooted _ hs⟩

end Settings

end Marginalia
