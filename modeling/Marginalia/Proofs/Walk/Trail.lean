/-
Marginalia.Proofs.Walk.Trail — the paths of trails.

A trail is a list of names, and its path is the root with the names behind it,
slashes between them. Names hold no slash, so different trails have different
paths (`Scope.pathOf_inj`), whatever the root is.
-/
import Marginalia.Proofs.Disk.Tree
import Marginalia.Walk

namespace Marginalia

/-! ## 1. Segments -/

namespace Path

theorem ofSegments_singleton (name : Text) : ofSegments [name] = name := by
  simp [ofSegments, Text.join]

theorem ofSegments_cons_cons (name next : Text) (rest : List Text) :
    ofSegments (name :: next :: rest) = name ++ '/' :: ofSegments (next :: rest) := by
  simp [ofSegments, Text.join, List.intercalate_cons_cons]

/-- Joined names can be taken apart at the slashes. -/
theorem splitOn_ofSegments {names : List Text} (hne : names ≠ [])
    (hnames : ∀ name ∈ names, isName name = true) : (ofSegments names).splitOn '/' = names :=
  List.splitOn_intercalate '/' (fun name hname => slash_not_mem_of_isName (hnames name hname)) hne

theorem ofSegments_inj {a b : List Text} (ha : a ≠ []) (hb : b ≠ [])
    (hanames : ∀ name ∈ a, isName name = true) (hbnames : ∀ name ∈ b, isName name = true)
    (h : ofSegments a = ofSegments b) : a = b := by
  rw [← splitOn_ofSegments ha hanames, h, splitOn_ofSegments hb hbnames]

/-- A directory's path with a slash behind it, unless it is empty or has one. -/
def slashed (directory : Text) : Text :=
  if directory.isEmpty || directory.getLast? = some '/' then directory else directory ++ ['/']

theorem join_eq_slashed {directory path : Text} (hpath : isAbsolute path = false) :
    join directory path = slashed directory ++ path := by
  unfold join slashed
  rw [hpath]
  split
  next h => cases h
  next =>
    split
    next => rfl
    next => simp

theorem isAbsolute_name_append {name : Text} (hname : isName name = true) (rest : Text) :
    isAbsolute (name ++ rest) = false := by
  cases name with
  | nil => cases hname
  | cons c name =>
    have hc : c ≠ '/' := fun h => slash_not_mem_of_isName hname (h ▸ List.mem_cons_self)
    simp [isAbsolute, hc]

theorem join_name (directory : Text) {name : Text} (hname : isName name = true) :
    join directory name = slashed directory ++ name := by
  refine join_eq_slashed ?_
  rw [← List.append_nil name]
  exact isAbsolute_name_append hname []

theorem join_ofSegments (directory : Text) : ∀ {names : List Text}, names ≠ [] →
    (∀ name ∈ names, isName name = true) →
    join directory (ofSegments names) = slashed directory ++ ofSegments names
  | [], hne, _ => absurd rfl hne
  | [name], _, hnames => by
      rw [ofSegments_singleton]
      exact join_name directory (hnames name List.mem_cons_self)
  | name :: next :: rest, _, hnames => by
      refine join_eq_slashed ?_
      rw [ofSegments_cons_cons]
      exact isAbsolute_name_append (hnames name List.mem_cons_self) _

theorem slashed_append_name (start : Text) {name : Text} (hname : isName name = true) :
    slashed (start ++ name) = start ++ name ++ ['/'] := by
  have hne := ne_nil_of_isName hname
  have hlast : name.getLast? ≠ some '/' :=
    fun h => slash_not_mem_of_isName hname (List.mem_of_getLast? h)
  unfold slashed
  rw [if_neg]
  simp [hne, hlast]

/-- Joining names one after the other writes them behind the directory. -/
theorem foldl_join : ∀ {names : List Text} (directory : Text), names ≠ [] →
    (∀ name ∈ names, isName name = true) →
    names.foldl join directory = slashed directory ++ ofSegments names
  | [], _, hne, _ => absurd rfl hne
  | [name], directory, _, hnames => by
      rw [List.foldl_cons, List.foldl_nil, join_name directory (hnames name List.mem_cons_self),
        ofSegments_singleton]
  | name :: next :: rest, directory, _, hnames => by
      have hname := hnames name List.mem_cons_self
      have htail : ∀ x ∈ next :: rest, isName x = true :=
        fun x hx => hnames x (List.mem_cons_of_mem _ hx)
      rw [List.foldl_cons, foldl_join _ (List.cons_ne_nil _ _) htail, join_name directory hname,
        slashed_append_name _ hname, ofSegments_cons_cons]
      simp only [List.append_assoc, List.cons_append, List.nil_append]

end Path

/-! ## 2. Trails -/

namespace Scope

variable {s : Scope}

theorem pathOf_eq {trail : List Text} (hne : trail ≠ [])
    (hnames : ∀ name ∈ trail, isName name = true) :
    s.pathOf trail = Path.slashed s.root ++ Path.ofSegments trail :=
  Path.foldl_join s.root hne hnames

/-- A path holds only what its root, its names and the slashes hold. -/
theorem zero_not_mem_pathOf (hroot : '\x00' ∉ s.root) {trail : List Text}
    (hnames : ∀ name ∈ trail, isName name = true) : '\x00' ∉ s.pathOf trail := by
  suffices h : ∀ (names : List Text) (directory : Text), '\x00' ∉ directory →
      (∀ name ∈ names, isName name = true) → '\x00' ∉ names.foldl Path.join directory from
    h trail s.root hroot hnames
  intro names
  induction names with
  | nil => exact fun directory hdirectory _ => hdirectory
  | cons name rest ih =>
    intro directory hdirectory hnames
    have hname := hnames name List.mem_cons_self
    refine ih _ ?_ fun x hx => hnames x (List.mem_cons_of_mem _ hx)
    rw [Path.join_name directory hname, List.mem_append, not_or]
    refine ⟨?_, zero_not_mem_of_isName hname⟩
    unfold Path.slashed
    split
    next => exact hdirectory
    next => simpa using hdirectory

/-- The path of a trail is its relative path, read from the root. -/
theorem pathOf_eq_join {trail : List Text} (hne : trail ≠ [])
    (hnames : ∀ name ∈ trail, isName name = true) :
    s.pathOf trail = Path.join s.root (Path.ofSegments trail) := by
  rw [pathOf_eq hne hnames, Path.join_ofSegments s.root hne hnames]

theorem pathOf_inj {a b : List Text} (ha : a ≠ []) (hb : b ≠ [])
    (hanames : ∀ name ∈ a, isName name = true) (hbnames : ∀ name ∈ b, isName name = true)
    (h : s.pathOf a = s.pathOf b) : a = b := by
  rw [pathOf_eq ha hanames, pathOf_eq hb hbnames] at h
  exact Path.ofSegments_inj ha hb hanames hbnames (List.append_cancel_left h)

/-- Below a trail of names, too, different names lead to different paths. -/
theorem pathOf_append_inj {trail a b : List Text} (htrail : ∀ name ∈ trail, isName name = true)
    (ha : a ≠ []) (hb : b ≠ []) (hanames : ∀ name ∈ a, isName name = true)
    (hbnames : ∀ name ∈ b, isName name = true)
    (h : s.pathOf (trail ++ a) = s.pathOf (trail ++ b)) : a = b := by
  have hsplit := pathOf_inj (List.append_ne_nil_of_right_ne_nil _ ha)
    (List.append_ne_nil_of_right_ne_nil _ hb)
    (fun x hx => (List.mem_append.mp hx).elim (htrail x) (hanames x))
    (fun x hx => (List.mem_append.mp hx).elim (htrail x) (hbnames x)) h
  exact List.append_cancel_left hsplit

end Scope

end Marginalia
