/-
Marginalia.Proofs.Path.Relative — the way down from a directory.

Names that are joined behind a directory in normal form are the relative path
from there to where they lead (`relativeTo_join`). So the path that is worked
out from the two texts is the trail that led to a file, and nothing of the
root shows in it.
-/
import Marginalia.Proofs.Path.Normal
import Marginalia.Proofs.Walk.Trail

namespace Marginalia

namespace Path

/-! ## 1. Segments of joined paths -/

theorem segments_append_slash (first second : Text) :
    segments (first ++ '/' :: second) = segments first ++ segments second := by
  rw [segments, List.splitOn_append_cons_self, List.filter_append, ← segments, ← segments]

theorem segments_slashed_append (directory path : Text) :
    segments (slashed directory ++ path) = segments directory ++ segments path := by
  unfold slashed
  split
  next h =>
    rcases Bool.or_eq_true _ _ |>.mp h with h | h
    · obtain rfl : directory = [] := by simpa using h
      rfl
    · -- the slash at the end of the directory is the one between the two
      obtain ⟨front, rfl⟩ := List.getLast?_eq_some_iff.mp (by simpa using h)
      have hnone : segments [] = [] := rfl
      rw [List.append_assoc, List.singleton_append, segments_append_slash, segments_append_slash,
        hnone, List.append_nil]
  next => rw [List.append_assoc, List.singleton_append, segments_append_slash]

/-- The path of what lies in a directory begins with the directory's path and a slash. -/
theorem ofSegments_append : ∀ {dir below : List Text}, dir ≠ [] → below ≠ [] →
    ofSegments (dir ++ below) = ofSegments dir ++ ['/'] ++ ofSegments below
  | [], _, hdir, _ => absurd rfl hdir
  | [name], below, _, hbelow => by
      obtain ⟨first, rest, rfl⟩ := List.exists_cons_of_ne_nil hbelow
      rw [List.singleton_append, ofSegments_cons_cons, ofSegments_singleton,
        List.append_assoc, List.singleton_append]
  | name :: next :: rest, below, _, hbelow => by
      rw [List.cons_append, List.cons_append, ofSegments_cons_cons, ← List.cons_append,
        ofSegments_append (List.cons_ne_nil _ _) hbelow, ofSegments_cons_cons]
      simp only [List.append_assoc, List.cons_append]

theorem plain_of_isName {name : Text} (h : isName name = true) : Plain name := by
  have hdots : name ≠ here ∧ name ≠ above := by
    simp only [isName, Bool.and_eq_true, decide_eq_true_eq] at h
    exact ⟨h.1.2, h.2⟩
  exact ⟨ne_nil_of_isName h, slash_not_mem_of_isName h, hdots.1, hdots.2⟩

theorem segments_join_ofSegments (base : Text) {names : List Text} (hne : names ≠ [])
    (hnames : ∀ name ∈ names, isName name = true) :
    segments (join base (ofSegments names)) = segments base ++ names := by
  rw [join_ofSegments base hne hnames, segments_slashed_append,
    segments_ofSegments fun s hs => ⟨ne_nil_of_isName (hnames s hs),
      slash_not_mem_of_isName (hnames s hs)⟩]

/-- The segments of a directory in normal form and names behind it are plain. -/
theorem plain_of_mem_append {base : Text} (hbase : isAbsolute base = true)
    (hnormal : normalise base = base) {names : List Text}
    (hnames : ∀ name ∈ names, isName name = true) : ∀ s ∈ segments base ++ names, Plain s := by
  have hstart : segments (normalise base) = resolve true (segments base) :=
    segments_normalise hbase
  intro s hs
  rcases List.mem_append.mp hs with hs | hs
  · rw [hnormal] at hstart
    rw [hstart] at hs
    exact plain_of_mem_resolve hs
  · exact plain_of_isName (hnames s hs)

/-! ## 2. Relative paths -/

/-- Names behind a directory in normal form are the relative path to where they lead. -/
theorem relativeTo_join {base : Text} (hbase : isAbsolute base = true)
    (hnormal : normalise base = base) {names : List Text} (hne : names ≠ [])
    (hnames : ∀ name ∈ names, isName name = true) :
    relativeTo base (join base (ofSegments names)) = ofSegments names := by
  have hgoal : segments (normalise (join base (ofSegments names))) = segments base ++ names := by
    rw [segments_normalise (isAbsolute_join hbase _), segments_join_ofSegments base hne hnames,
      resolve_of_plain (plain_of_mem_append hbase hnormal hnames)]
  have hshared : (commonPrefix (segments base) (segments base ++ names)).length
      = (segments base).length := by rw [commonPrefix_append]
  rw [relativeTo, hnormal, hgoal]
  simp only [hshared]
  simp [hne]

end Path

namespace Scope

/-- The relative path of what a walk finds is its trail. -/
theorem relativeTo_pathOf {s : Scope} (hroot : Path.isAbsolute s.root = true)
    (hnormal : Path.normalise s.root = s.root) {trail : List Text} (hne : trail ≠ [])
    (hnames : ∀ name ∈ trail, isName name = true) :
    Path.relativeTo s.root (s.pathOf trail) = Path.ofSegments trail := by
  rw [pathOf_eq_join hne hnames]
  exact Path.relativeTo_join hroot hnormal hne hnames

end Scope

end Marginalia
