/-
Marginalia.Proofs.Walk.Shown — found files are shown by the path that was
matched.

The ignore rules see a file by its path from the root of the walk; a label is
worked out later, from the texts of the root and of the file. Both are the names
that led to the file (`relativeTo_join`), provided that the root is found to
contain the file at all.

That is so exactly if the absolute form of the root begins with one slash
(`contains_join_iff`). A root with two leading slashes keeps them in its absolute
form and in the paths of its files, but the deepest common path of root and file
has one; so no file lies in such a root, and each is labelled by its absolute
path.
-/
import Marginalia.Proofs.Path.Deepest
import Marginalia.Proofs.Walk.Limit

namespace Marginalia

namespace Path

/-- Among a single root, the label is the way from it or the path itself. -/
theorem label_singleton (cwd root path : Text) :
    label cwd [root] path
      = if contains (absolute cwd root) path then relativeTo (absolute cwd root) path else path := by
  unfold label deepestRoot?
  cases h : contains (absolute cwd root) path with
  | true => simp [h, longest?]
  | false => simp [h, longest?]

/-- A directory in normal form contains what names lead to from it exactly if it begins with one
slash. -/
theorem contains_join_iff {base : Text} (hbase : isAbsolute base = true)
    (hnormal : normalise base = base) {names : List Text} (hne : names ≠ [])
    (hnames : ∀ name ∈ names, isName name = true) :
    contains base (join base (ofSegments names)) = true ↔ lead base = ['/'] := by
  rcases lead_of_isAbsolute hbase with hlead | hlead
  · have hrooted : Rooted base := ⟨hbase, hnormal, hlead⟩
    have hplain := plain_of_mem_append hbase hnormal hnames
    have hsegments : (segments (join base (ofSegments names))).filter (· ≠ here)
        = segments base ++ names := by
      rw [segments_join_ofSegments base hne hnames]
      exact List.filter_eq_self.mpr fun s hs => by simpa using (hplain s hs).ne_here
    rw [contains_iff_of_isAbsolute hrooted (isAbsolute_join hbase _), hsegments]
    exact iff_of_true (List.prefix_append _ _) hlead
  · rw [contains_of_two_slashes hbase hlead, hlead]
    decide

/-- What names lead to is no relative path. -/
theorem join_ne_ofSegments {base : Text} (hbase : isAbsolute base = true) {names : List Text}
    (hnames : ∀ name ∈ names, isName name = true) :
    join base (ofSegments names) ≠ ofSegments names := by
  intro h
  have habsolute := isAbsolute_join hbase (ofSegments names)
  rw [h, isAbsolute_ofSegments fun s hs => (plain_of_isName (hnames s hs)).bare] at habsolute
  cases habsolute

/-- What names lead to from a root is labelled by the names if the absolute form of the root begins
with one slash, and by its path otherwise. -/
theorem label_join {cwd : Text} (hcwd : isAbsolute cwd = true) (root : Text) {names : List Text}
    (hne : names ≠ []) (hnames : ∀ name ∈ names, isName name = true) :
    label cwd [root] (join (absolute cwd root) (ofSegments names))
      = if lead (absolute cwd root) = ['/'] then ofSegments names
        else join (absolute cwd root) (ofSegments names) := by
  have hbase := isAbsolute_absolute hcwd root
  have hnormal := normalise_absolute hcwd root
  rw [label_singleton, relativeTo_join hbase hnormal hne hnames]
  simp only [contains_join_iff hbase hnormal hne hnames]

end Path

/-- **A found file is labelled by the path that was matched,** exactly if the absolute form of the
root begins with one slash; otherwise the label is the path of the file. The path that was matched
is the names that lead to the file, and no rule excludes it. -/
theorem label_of_mem_enumerate {disk : Disk} {settings : Settings} {limit : Option Int}
    {root path : Text} {files : List Text} (hdisk : disk.wellFormed = true)
    (hcwd : Path.isAbsolute disk.cwd = true)
    (hfiles : (enumerate disk settings limit root).result = .ok files) (hpath : path ∈ files) :
    (Path.label disk.cwd [root] path = Path.relativeTo (disk.absolute root) path ↔
        Path.lead (disk.absolute root) = ['/']) ∧
      (Path.lead (disk.absolute root) ≠ ['/'] → Path.label disk.cwd [root] path = path) ∧
      ∃ rules rel, settings.excludeRules = .ok rules ∧
        path = Path.join (disk.absolute root) (Path.ofSegments rel) ∧
        Path.relativeTo (disk.absolute root) path = Path.ofSegments rel ∧
        Ignore.excludes rules (Path.ofSegments rel) = false := by
  obtain ⟨rules, entries, rel, hrules, hroot, hrel, rfl⟩ :=
    eligible_of_mem_enumerate hdisk hfiles hpath
  have hne := hrel.ne_nil
  have hnames := hrel.isName (Disk.wellFormed_of_directory? hdisk hroot)
  have hbase : Path.isAbsolute (disk.absolute root) = true := Path.isAbsolute_absolute hcwd root
  have hjoin : (Scope.under disk settings rules root).pathOf rel
      = Path.join (disk.absolute root) (Path.ofSegments rel) := Scope.pathOf_eq_join hne hnames
  have hrelative : Path.relativeTo (disk.absolute root)
      (Path.join (disk.absolute root) (Path.ofSegments rel)) = Path.ofSegments rel :=
    Path.relativeTo_join hbase (Path.normalise_absolute hcwd root) hne hnames
  have hlabel : Path.label disk.cwd [root] (Path.join (disk.absolute root) (Path.ofSegments rel))
      = if Path.lead (disk.absolute root) = ['/'] then Path.ofSegments rel
        else Path.join (disk.absolute root) (Path.ofSegments rel) :=
    Path.label_join hcwd root hne hnames
  rw [hjoin, hlabel, hrelative]
  refine ⟨?_, fun hlead => if_neg hlead, rules, rel, hrules, rfl, rfl, hrel.kept⟩
  split
  next hlead => exact iff_of_true rfl hlead
  next hlead => exact iff_of_false (Path.join_ne_ofSegments hbase hnames) hlead

/-- A directory with a file, and a directory in it with another. -/
def shelf : Disk where
  root := [("w".toList, .directory [("a.py".toList, .file []),
    ("lib".toList, .directory [("b.py".toList, .file [])])])]
  cwd := "/w/lib".toList

theorem label_of_mem_enumerate_shelf :
    shelf.wellFormed = true ∧ Path.isAbsolute shelf.cwd = true ∧
      (enumerate shelf pythonSettings none "..//.".toList).result
        = .ok ["/w/a.py".toList, "/w/lib/b.py".toList] ∧
      Path.label shelf.cwd ["..//.".toList] "/w/lib/b.py".toList = "lib/b.py".toList := by
  have hdisk : shelf.wellFormed = true := rfl
  have hfiles : (enumerate shelf pythonSettings none "..//.".toList).result
      = .ok ["/w/a.py".toList, "/w/lib/b.py".toList] := by cbv
  obtain ⟨hiff, -⟩ := label_of_mem_enumerate hdisk rfl hfiles
    (List.mem_cons_of_mem _ List.mem_cons_self)
  have hlabel := hiff.mpr (by decide +kernel)
  have hrelative : Path.relativeTo (shelf.absolute "..//.".toList) "/w/lib/b.py".toList
      = "lib/b.py".toList := by decide +kernel
  exact ⟨hdisk, rfl, hfiles, hlabel.trans hrelative⟩

/-- A root with two leading slashes: its files are found, and labelled by their absolute paths. -/
theorem label_enumerated_two_slashes :
    shelf.wellFormed = true ∧ Path.isAbsolute shelf.cwd = true ∧
      (enumerate shelf pythonSettings none "//w".toList).result
        = .ok ["//w/a.py".toList, "//w/lib/b.py".toList] ∧
      Path.label shelf.cwd ["//w".toList] "//w/lib/b.py".toList = "//w/lib/b.py".toList ∧
      Path.relativeTo (shelf.absolute "//w".toList) "//w/lib/b.py".toList = "lib/b.py".toList ∧
      Path.label shelf.cwd ["//w".toList] "//w/lib/b.py".toList
        ≠ Path.relativeTo (shelf.absolute "//w".toList) "//w/lib/b.py".toList := by
  refine ⟨rfl, rfl, ?_, ?_, ?_, ?_⟩
  · cbv
  · decide +kernel
  · decide +kernel
  · decide +kernel

end Marginalia
