/-
Marginalia.Proofs.Path.Deepest — the deepest root that contains a path.

A path is rooted if it is absolute, in normal form, and begins with one slash
only. Rooted paths are their segments: they differ if the segments differ, and
the segments are plain (`Rooted.eq_slash`, `Rooted.ext`).

* Whether a root contains a path is found by comparing the text of the deepest
  common path with that of the root. For rooted paths this is the order of
  prefixes on segments (`contains_iff`), so a directory does not contain what
  lies in one whose name only begins alike.
* The deepest root is found as the longest text. Of two roots that contain the
  same path one lies below the other, and the lower one is longer
  (`isPrefix_of_length_le`). This is the only reason why lengths of texts may
  stand for depths.
* From a root that contains a path the way leads down only
  (`relativeTo_eq_down`), and it leads back to the path (`normalise_join_down`).

The deepest root is described without a search (`IsDeepest`), and there is one
at most, so a label depends on the set of the roots only (`label_deepest`).

Two leading slashes are kept by the normal form but not by the common path. A
root with two slashes contains nothing, not even itself
(`contains_of_two_slashes`).
-/
import Marginalia.Proofs.Path.Relative

namespace Marginalia.Path

/-! ## 1. Rooted paths -/

/-- Whether a path is absolute, in normal form, and begins with one slash only. -/
structure Rooted (path : Text) : Prop where
  absolute : isAbsolute path = true
  normal : normalise path = path
  lead_eq : lead path = ['/']

namespace Rooted

variable {path other : Text}

theorem segments_eq (h : Rooted path) : resolve true (segments path) = segments path := by
  rw [← segments_normalise h.absolute, h.normal]

theorem plain (h : Rooted path) : ∀ s ∈ segments path, Plain s := by
  intro s hs
  rw [← h.segments_eq] at hs
  exact plain_of_mem_resolve hs

/-- A rooted path is a slash and its segments. -/
theorem eq_slash (h : Rooted path) : path = '/' :: ofSegments (segments path) := by
  have hform := normalise_of_isAbsolute h.absolute
  rw [h.normal, h.lead_eq, h.segments_eq] at hform
  exact hform

theorem ext (h : Rooted path) (hother : Rooted other) (hsegments : segments path = segments other) :
    path = other := by
  rw [h.eq_slash, hother.eq_slash, hsegments]

end Rooted

/-- An absolute form is rooted if it begins with one slash. -/
theorem rooted_absolute {cwd root : Text} (hcwd : isAbsolute cwd = true)
    (h : lead (absolute cwd root) = ['/']) : Rooted (absolute cwd root) where
  absolute := isAbsolute_absolute hcwd root
  normal := normalise_absolute hcwd root
  lead_eq := h

/-! ## 2. Containing -/

theorem commonPrefix_eq_left_iff {a b : List Text} : commonPrefix a b = a ↔ a <+: b := by
  constructor
  · intro h
    induction a generalizing b with
    | nil => exact List.nil_prefix
    | cons x xs ih =>
      cases b with
      | nil => cases h
      | cons y ys =>
        by_cases hxy : x = y
        · subst hxy
          rw [commonPrefix, if_pos rfl] at h
          exact List.cons_prefix_cons.mpr ⟨rfl, ih (List.tail_eq_of_cons_eq h)⟩
        · rw [commonPrefix, if_neg hxy] at h
          cases h
  · rintro ⟨rest, rfl⟩
    exact commonPrefix_append a rest

theorem isPrefix_commonPrefix : ∀ a b : List Text, commonPrefix a b <+: a
  | [], b => by cases b <;> exact List.nil_prefix
  | x :: xs, [] => List.nil_prefix
  | x :: xs, y :: ys => by
      rw [commonPrefix]
      split
      next => exact List.cons_prefix_cons.mpr ⟨rfl, isPrefix_commonPrefix xs ys⟩
      next => exact List.nil_prefix

/-- The common path of absolute paths is one slash and segments. -/
theorem common?_of_isAbsolute {a b : Text} (ha : isAbsolute a = true) (hb : isAbsolute b = true) :
    common? a b = some ('/' :: ofSegments (commonPrefix ((segments a).filter (· ≠ here))
      ((segments b).filter (· ≠ here)))) := by
  rw [common?, ha, hb, if_pos rfl, if_pos rfl]
  rfl

theorem filter_ne_here {path : Text} (h : Rooted path) :
    (segments path).filter (· ≠ here) = segments path :=
  List.filter_eq_self.mpr fun s hs => by simpa using (h.plain s hs).ne_here

/-- A rooted path contains an absolute path if its segments begin the other's, apart from `.`. -/
theorem contains_iff_of_isAbsolute {root path : Text} (hroot : Rooted root)
    (hpath : isAbsolute path = true) :
    contains root path = true ↔ segments root <+: (segments path).filter (· ≠ here) := by
  rw [contains, decide_eq_true_eq, common?_of_isAbsolute hroot.absolute hpath,
    filter_ne_here hroot, ← commonPrefix_eq_left_iff]
  generalize (segments path).filter (· ≠ here) = parts
  have hbare : ∀ s ∈ commonPrefix (segments root) parts, s ≠ [] ∧ '/' ∉ s :=
    fun s hs => (hroot.plain s ((isPrefix_commonPrefix _ _).subset hs)).bare
  constructor
  · intro h
    have hsegments := congrArg segments (Option.some.inj h)
    rwa [segments_slash, segments_ofSegments hbare] at hsegments
  · intro h
    rw [h, ← hroot.eq_slash]

theorem contains_iff {root path : Text} (hroot : Rooted root) (hpath : Rooted path) :
    contains root path = true ↔ segments root <+: segments path := by
  rw [contains_iff_of_isAbsolute hroot hpath.absolute, filter_ne_here hpath]

/-- A root that begins with two slashes contains nothing. -/
theorem contains_of_two_slashes {root path : Text} (hroot : isAbsolute root = true)
    (hlead : lead root = ['/', '/']) : contains root path = false := by
  rw [contains, decide_eq_false_iff_not]
  intro h
  by_cases hpath : isAbsolute path = true
  · rw [common?_of_isAbsolute hroot hpath] at h
    have hbare : ∀ s ∈ commonPrefix ((segments root).filter (· ≠ here))
        ((segments path).filter (· ≠ here)), s ≠ [] ∧ '/' ∉ s := fun s hs =>
      of_mem_segments (List.mem_filter.mp ((isPrefix_commonPrefix _ _).subset hs)).1
    have hone := lead_append (.inl rfl) (isAbsolute_ofSegments hbare)
    rw [List.singleton_append, Option.some.inj h, hlead] at hone
    cases hone
  · rw [common?, hroot, if_neg (Ne.symm hpath)] at h
    cases h

/-! ## 3. Depth and length -/

theorem ofSegments_ne_nil {parts : List Text} (hne : parts ≠ []) (h : ∀ s ∈ parts, Plain s) :
    ofSegments parts ≠ [] := by
  intro hnil
  have hparts := segments_ofSegments fun s hs => (h s hs).bare
  rw [hnil] at hparts
  exact hne hparts.symm

/-- What lies below has a longer path. -/
theorem length_ofSegments_lt {dir below : List Text} (hbelow : below ≠ [])
    (h : ∀ s ∈ dir ++ below, Plain s) :
    (ofSegments dir).length < (ofSegments (dir ++ below)).length := by
  have hrest : ofSegments below ≠ [] :=
    ofSegments_ne_nil hbelow fun s hs => h s (List.mem_append_right _ hs)
  have hpos := List.length_pos_iff.mpr hrest
  by_cases hdir : dir = []
  · subst hdir
    exact hpos
  · rw [ofSegments_append hdir hbelow, List.length_append, List.length_append]
    omega

/-- Of two roots that contain a path, the one that is not shorter lies in the other. -/
theorem isPrefix_of_length_le {a b path : Text} (ha : Rooted a) (hb : Rooted b)
    (hapath : segments a <+: segments path) (hbpath : segments b <+: segments path)
    (h : a.length ≤ b.length) : segments a <+: segments b := by
  rcases List.prefix_or_prefix_of_prefix hapath hbpath with hab | ⟨below, hba⟩
  · exact hab
  · by_cases hbelow : below = []
    · exact ⟨[], by rw [List.append_nil, ← hba, hbelow, List.append_nil]⟩
    · have hshorter : (ofSegments (segments b)).length < (ofSegments (segments a)).length := by
        rw [← hba]
        exact length_ofSegments_lt hbelow (hba ▸ ha.plain)
      rw [ha.eq_slash, hb.eq_slash, List.length_cons, List.length_cons] at h
      omega

/-! ## 4. The longest of some paths -/

/-- One step of the search for the longest path: of paths of one length the first is kept. -/
def longer (best : Option Text) (path : Text) : Option Text :=
  match best with
  | none => some path
  | some b => if b.length < path.length then some path else best

theorem longest?_eq_foldl (paths : List Text) : longest? paths = paths.foldl longer none := rfl

theorem exists_longer (b path : Text) : ∃ c, longer (some b) path = some c ∧
    (c = b ∨ c = path) ∧ b.length ≤ c.length ∧ path.length ≤ c.length := by
  by_cases hlt : b.length < path.length
  · exact ⟨path, by simp [longer, hlt], .inr rfl, by omega, by omega⟩
  · exact ⟨b, by simp [longer, hlt], .inl rfl, by omega, by omega⟩

/-- The search ends with one of the paths that it has met, and with none that is shorter than
another. -/
theorem foldl_longer (paths : List Text) (b : Text) : ∃ best,
    paths.foldl longer (some b) = some best ∧ best ∈ b :: paths ∧
      ∀ p ∈ b :: paths, p.length ≤ best.length := by
  induction paths generalizing b with
  | nil => exact ⟨b, rfl, List.mem_cons_self, by simp⟩
  | cons path rest ih =>
    obtain ⟨c, hc, hfrom, hb, hpath⟩ := exists_longer b path
    obtain ⟨best, hbest, hmem, hall⟩ := ih c
    have hle : c.length ≤ best.length := hall c List.mem_cons_self
    refine ⟨best, by rw [List.foldl_cons, hc, hbest], ?_, ?_⟩
    · rcases List.mem_cons.mp hmem with rfl | hmem
      · rcases hfrom with rfl | rfl <;> simp
      · simp [hmem]
    · simp only [List.forall_mem_cons]
      exact ⟨by omega, by omega, fun p hp => hall p (List.mem_cons_of_mem _ hp)⟩

theorem longest?_cases (paths : List Text) : (paths = [] ∧ longest? paths = none) ∨
    ∃ best, longest? paths = some best ∧ best ∈ paths ∧ ∀ p ∈ paths, p.length ≤ best.length := by
  cases paths with
  | nil => exact .inl ⟨rfl, rfl⟩
  | cons path rest =>
    rw [longest?_eq_foldl]
    exact .inr (foldl_longer rest path)

/-! ## 5. The deepest root -/

/-- Whether a path is the absolute form of a root that contains a file, where no other root that
contains it has more segments. -/
structure IsDeepest (cwd : Text) (roots : List Text) (path deepest : Text) : Prop where
  mem : deepest ∈ roots.map (absolute cwd)
  within : segments deepest <+: segments path
  le : ∀ root ∈ roots, segments (absolute cwd root) <+: segments path →
    (segments (absolute cwd root)).length ≤ (segments deepest).length

section

variable {cwd path : Text} {roots : List Text}

/-- There is one deepest root at most. -/
theorem IsDeepest.unique {a b : Text} (hroots : ∀ root ∈ roots, Rooted (absolute cwd root))
    (ha : IsDeepest cwd roots path a) (hb : IsDeepest cwd roots path b) : a = b := by
  obtain ⟨root, hroot, rfl⟩ := List.mem_map.mp ha.mem
  obtain ⟨other, hother, rfl⟩ := List.mem_map.mp hb.mem
  have hlength := Nat.le_antisymm (hb.le root hroot ha.within) (ha.le other hother hb.within)
  refine (hroots root hroot).ext (hroots other hother) ?_
  rcases List.prefix_or_prefix_of_prefix ha.within hb.within with h | h
  · exact h.eq_of_length hlength
  · exact (h.eq_of_length hlength.symm).symm

/-- Either no root contains the path, or the search finds the deepest that does. -/
theorem deepestRoot?_cases (hroots : ∀ root ∈ roots, Rooted (absolute cwd root))
    (hpath : Rooted path) :
    ((∀ root ∈ roots, ¬ segments (absolute cwd root) <+: segments path) ∧
        deepestRoot? cwd roots path = none) ∨
      ∃ deepest, deepestRoot? cwd roots path = some deepest ∧
        IsDeepest cwd roots path deepest := by
  have hmem : ∀ root ∈ roots, segments (absolute cwd root) <+: segments path →
      absolute cwd root ∈ (roots.map (absolute cwd)).filter (contains · path) := fun root hroot h =>
    List.mem_filter.mpr ⟨List.mem_map_of_mem hroot, (contains_iff (hroots root hroot) hpath).mpr h⟩
  rcases longest?_cases ((roots.map (absolute cwd)).filter (contains · path)) with
    ⟨hnil, hnone⟩ | ⟨deepest, hsome, hfound, hle⟩
  · refine .inl ⟨fun root hroot h => ?_, hnone⟩
    have hin := hmem root hroot h
    rw [hnil] at hin
    cases hin
  · obtain ⟨hmap, hcontains⟩ := List.mem_filter.mp hfound
    obtain ⟨root, hroot, rfl⟩ := List.mem_map.mp hmap
    have hwithin := (contains_iff (hroots root hroot) hpath).mp hcontains
    refine .inr ⟨_, hsome, hmap, hwithin, fun other hother h => ?_⟩
    exact (isPrefix_of_length_le (hroots other hother) (hroots root hroot) h hwithin
      (hle _ (hmem other hother h))).length_le

end

/-! ## 6. The way down -/

/-- The way down through segments; no segments lead to where one is. -/
def down (below : List Text) : Text := if below = [] then here else ofSegments below

theorem relativeTo_eq_down {root path : Text} (hroot : Rooted root) (hpath : Rooted path)
    {below : List Text} (h : segments path = segments root ++ below) :
    relativeTo root path = down below := by
  have hshared : (commonPrefix (segments root) (segments root ++ below)).length
      = (segments root).length := by rw [commonPrefix_append]
  rw [relativeTo, hroot.normal, hpath.normal, h]
  simp only [hshared]
  simp [down]

/-- The steps of a way down. -/
theorem splitOn_down {below : List Text} (h : ∀ s ∈ below, Plain s) :
    (down below).splitOn '/' = if below = [] then [here] else below := by
  unfold down
  split
  next => rfl
  next hne => exact List.splitOn_intercalate '/' (fun s hs => (h s hs).slash_not_mem) hne

theorem above_not_mem_splitOn_down {below : List Text} (h : ∀ s ∈ below, Plain s) :
    above ∉ (down below).splitOn '/' := by
  rw [splitOn_down h]
  split
  next => decide
  next => exact fun hmem => (h above hmem).ne_above rfl

theorem isAbsolute_down {below : List Text} (h : ∀ s ∈ below, Plain s) :
    isAbsolute (down below) = false := by
  unfold down
  split
  next => rfl
  next => exact isAbsolute_ofSegments fun s hs => (h s hs).bare

/-- The segments of a way down resolve to the segments themselves. -/
theorem resolve_append_down {parts below : List Text} (h : ∀ s ∈ parts ++ below, Plain s) :
    resolve true (parts ++ segments (down below)) = parts ++ below := by
  unfold down
  split
  next hnil =>
    subst hnil
    have hhere : segments here = [here] := rfl
    have hstay : ∀ done, push true done here = done := fun done => if_pos rfl
    rw [hhere, resolve, List.foldl_append, List.foldl_cons, List.foldl_nil, hstay, ← resolve]
    exact (resolve_of_plain (by simpa using h)).trans (List.append_nil parts).symm
  next =>
    rw [segments_ofSegments fun s hs => (h s (List.mem_append_right _ hs)).bare]
    exact resolve_of_plain h

theorem isAbsolute_append {front : Text} (hfront : front ≠ []) (back : Text) :
    isAbsolute (front ++ back) = isAbsolute front := by
  obtain ⟨c, rest, rfl⟩ := List.exists_cons_of_ne_nil hfront
  rfl

/-- What is joined behind a rooted path leaves its one leading slash. -/
theorem lead_join {root below : Text} (hroot : Rooted root) (hbelow : isAbsolute below = false) :
    lead (join root below) = ['/'] := by
  have hbody : isAbsolute (ofSegments (segments root)) = false :=
    isAbsolute_ofSegments fun s hs => (hroot.plain s hs).bare
  rw [join_eq_slashed hbelow, hroot.eq_slash]
  generalize ofSegments (segments root) = body at hbody
  by_cases hnil : body = []
  · subst hnil
    exact lead_append (.inl rfl) hbelow
  · unfold slashed
    split
    next => exact lead_append (.inl rfl) ((isAbsolute_append hnil below).trans hbody)
    next =>
      have hslash : isAbsolute (body ++ '/' :: below) = false :=
        (isAbsolute_append hnil _).trans hbody
      rw [List.append_assoc, List.singleton_append]
      exact lead_append (.inl rfl) hslash

/-- The way down from a root leads back to the path. -/
theorem normalise_join_down {root path : Text} (hroot : Rooted root) (hpath : Rooted path)
    {below : List Text} (h : segments path = segments root ++ below) :
    normalise (join root (down below)) = path := by
  have hplain : ∀ s ∈ segments root ++ below, Plain s := h ▸ hpath.plain
  have hdown : isAbsolute (down below) = false :=
    isAbsolute_down fun s hs => hplain s (List.mem_append_right _ hs)
  rw [normalise_of_isAbsolute (isAbsolute_join hroot.absolute _), lead_join hroot hdown,
    join_eq_slashed hdown, segments_slashed_append, resolve_append_down hplain, ← h]
  exact hpath.eq_slash.symm

/-! ## 7. Labels -/

section

variable {cwd path : Text} {roots : List Text}

theorem label_of_not_within (hroots : ∀ root ∈ roots, Rooted (absolute cwd root))
    (hpath : Rooted path)
    (hnone : ∀ root ∈ roots, ¬ segments (absolute cwd root) <+: segments path) :
    label cwd roots path = path := by
  rcases deepestRoot?_cases hroots hpath with ⟨-, hfind⟩ | ⟨deepest, -, hdeepest⟩
  · rw [label, hfind]
  · obtain ⟨root, hroot, rfl⟩ := List.mem_map.mp hdeepest.mem
    exact absurd hdeepest.within (hnone root hroot)

theorem label_of_isDeepest (hroots : ∀ root ∈ roots, Rooted (absolute cwd root))
    (hpath : Rooted path) {deepest : Text} (hdeepest : IsDeepest cwd roots path deepest) :
    label cwd roots path = relativeTo deepest path := by
  rcases deepestRoot?_cases hroots hpath with ⟨hnone, -⟩ | ⟨found, hfind, hfound⟩
  · obtain ⟨root, hroot, rfl⟩ := List.mem_map.mp hdeepest.mem
    exact absurd hdeepest.within (hnone root hroot)
  · rw [label, hfind, hfound.unique hroots hdeepest]

theorem IsDeepest.congr {others : List Text} (h : ∀ root, root ∈ others ↔ root ∈ roots)
    {deepest : Text} (hdeepest : IsDeepest cwd roots path deepest) :
    IsDeepest cwd others path deepest where
  mem := by
    obtain ⟨root, hroot, rfl⟩ := List.mem_map.mp hdeepest.mem
    exact List.mem_map_of_mem ((h root).mpr hroot)
  within := hdeepest.within
  le root hroot := hdeepest.le root ((h root).mp hroot)

/-- **A label is the way down from the deepest root that contains the path.** If no root contains
it, the path is its own label. Otherwise there is a deepest root that does; the label has the
segments of the path behind those of this root, never a step up, and leads from there to the path.
The order of the roots and their repetition make no difference. -/
theorem label_deepest (hcwd : isAbsolute cwd = true)
    (hroots : ∀ root ∈ roots, lead (absolute cwd root) = ['/']) (hpath : Rooted path) :
    ((∀ root ∈ roots, ¬ segments (absolute cwd root) <+: segments path) →
        label cwd roots path = path) ∧
      ((∃ root ∈ roots, segments (absolute cwd root) <+: segments path) →
        ∃ deepest, IsDeepest cwd roots path deepest) ∧
      (∀ deepest, IsDeepest cwd roots path deepest →
        ∃ below, segments path = segments deepest ++ below ∧
          label cwd roots path = (if below = [] then here else ofSegments below) ∧
          above ∉ (label cwd roots path).splitOn '/' ∧
          normalise (join deepest (label cwd roots path)) = path) ∧
      ∀ others : List Text, (∀ root, root ∈ others ↔ root ∈ roots) →
        label cwd others path = label cwd roots path := by
  have hrooted : ∀ root ∈ roots, Rooted (absolute cwd root) :=
    fun root hroot => rooted_absolute hcwd (hroots root hroot)
  refine ⟨label_of_not_within hrooted hpath, ?deepest, fun deepest hdeepest => ?down,
    fun others hothers => ?order⟩
  case deepest =>
    rintro ⟨root, hroot, hwithin⟩
    rcases deepestRoot?_cases hrooted hpath with ⟨hnone, -⟩ | ⟨deepest, -, hdeepest⟩
    · exact absurd hwithin (hnone root hroot)
    · exact ⟨deepest, hdeepest⟩
  case down =>
    obtain ⟨root, hroot, hmap⟩ := List.mem_map.mp hdeepest.mem
    have hbase : Rooted deepest := hmap ▸ hrooted root hroot
    obtain ⟨below, hbelow⟩ := hdeepest.within
    have hplain : ∀ s ∈ below, Plain s := fun s hs =>
      hpath.plain s (hbelow ▸ List.mem_append_right _ hs)
    have hlabel : label cwd roots path = down below :=
      (label_of_isDeepest hrooted hpath hdeepest).trans
        (relativeTo_eq_down hbase hpath hbelow.symm)
    rw [hlabel]
    exact ⟨below, hbelow.symm, rfl, above_not_mem_splitOn_down hplain,
      normalise_join_down hbase hpath hbelow.symm⟩
  case order =>
    have hotherRooted : ∀ root ∈ others, Rooted (absolute cwd root) :=
      fun root hroot => hrooted root ((hothers root).mp hroot)
    rcases deepestRoot?_cases hrooted hpath with ⟨hnone, -⟩ | ⟨deepest, -, hdeepest⟩
    · rw [label_of_not_within hrooted hpath hnone, label_of_not_within hotherRooted hpath
        fun root hroot => hnone root ((hothers root).mp hroot)]
    · rw [label_of_isDeepest hrooted hpath hdeepest,
        label_of_isDeepest hotherRooted hpath (hdeepest.congr hothers)]

end

/-- Roots of which three contain a file, in several spellings, and one is called almost like the
deepest of these. -/
def nestedRoots : List Text :=
  ["/", "src", ".", "/w//src2/lib/../", "src2/../src2/./"].map String.toList

theorem label_deepest_nestedRoots :
    isAbsolute "/w".toList = true ∧
      (∀ root ∈ nestedRoots, lead (absolute "/w".toList root) = ['/']) ∧
      Rooted "/w/src2/a/b.py".toList ∧
      IsDeepest "/w".toList nestedRoots "/w/src2/a/b.py".toList "/w/src2".toList ∧
      label "/w".toList nestedRoots "/w/src2/a/b.py".toList = "a/b.py".toList ∧
      label "/w".toList nestedRoots.reverse "/w/src2/a/b.py".toList = "a/b.py".toList := by
  have hroots : ∀ root ∈ nestedRoots, lead (absolute "/w".toList root) = ['/'] := by
    decide +kernel
  have hpath : Rooted "/w/src2/a/b.py".toList := ⟨rfl, by decide +kernel, rfl⟩
  have hdeepest : IsDeepest "/w".toList nestedRoots "/w/src2/a/b.py".toList "/w/src2".toList :=
    ⟨by decide +kernel, by decide +kernel, by decide +kernel⟩
  obtain ⟨-, -, hdown, horder⟩ := label_deepest rfl hroots hpath
  obtain ⟨below, hbelow, hlabel, -, -⟩ := hdown _ hdeepest
  have hsegments : below = ["a".toList, "b.py".toList] :=
    List.append_cancel_left (hbelow.symm.trans (by decide +kernel))
  rw [hsegments] at hlabel
  have hreverse : label "/w".toList nestedRoots.reverse "/w/src2/a/b.py".toList
      = label "/w".toList nestedRoots "/w/src2/a/b.py".toList :=
    horder nestedRoots.reverse fun root => List.mem_reverse
  exact ⟨rfl, hroots, hpath, hdeepest, hlabel, hreverse.trans hlabel⟩

end Marginalia.Path
