/-
Marginalia.Proofs.Ignore.Below — what lies in a matched directory is matched.

`Begins` says that a path begins with pieces, whichever way; `firstMatch` finds
the first way if there is one (`firstMatch_isSome_iff`).

A text that ends in a slash and begins with the pieces of a pattern still does
so with anything behind it (`Prolongs`), because no piece looks further than
it takes. The exception is the end of the path, where a pattern may end: if the
pieces before it have taken the last slash of a directory, they have to find
another way below. They do unless the piece directly before the end is a
bracket that takes a slash. No name is empty, so even such a bracket does no
harm if it is all that the last segment has (`ProlongsName`).
-/
import Mathlib.Data.List.Basic
import Marginalia.Ignore.Match

namespace Marginalia.Ignore

/-! ## 1. Beginnings of paths -/

/-- Whether a path begins with pieces. -/
def Begins : List Piece → Text → Prop
  | [], _ => True
  | piece :: rest, t => ∃ r ∈ piece.rests t, Begins rest r.1

/-- There is a first way to match if there is one at all. -/
theorem firstMatch_isSome_iff {parts : List Piece} {marked : Bool} {t : Text} :
    (firstMatch parts marked t).isSome = true ↔ Begins parts t := by
  induction parts generalizing marked t with
  | nil => simp [firstMatch, Begins]
  | cons piece rest ih => simp only [firstMatch, Begins, List.findSome?_isSome_iff, ih]

/-! What each piece may leave of a text, said without the order in which it is tried. -/

section

variable {t : Text} {r : Text × Bool}

attribute [local simp] Piece.rests

theorem mem_rests_literal {d : Char} :
    r ∈ (Piece.literal d).rests t ↔ ∃ rest, t = d :: rest ∧ r = (rest, false) := by
  cases t with
  | nil => simp
  | cons c rest =>
    by_cases h : d = c
    · simp [h]
    · simp [h, Ne.symm h]

theorem mem_rests_one :
    r ∈ Piece.one.rests t ↔ ∃ c rest, t = c :: rest ∧ isNameChar c = true ∧ r = (rest, false) := by
  cases t with
  | nil => simp
  | cons c rest => by_cases h : isNameChar c <;> simp [h]

theorem mem_rests_bracket {negated : Bool} {ranges : List (Char × Char)} :
    r ∈ (Piece.bracket negated ranges).rests t ↔
      ∃ c rest, t = c :: rest ∧ inBracket negated ranges c = true ∧ r = (rest, false) := by
  cases t with
  | nil => simp
  | cons c rest => by_cases h : inBracket negated ranges c <;> simp [h]

theorem mem_rests_run :
    r ∈ Piece.run.rests t ↔ ∃ s ∈ afterRun isNameChar t, r = (s, false) := by
  simp [eq_comm (a := r)]

theorem mem_rests_name :
    r ∈ Piece.name.rests t ↔ ∃ c rest, t = c :: rest ∧ isNameChar c = true ∧
      ∃ s ∈ afterRun isNameChar rest, r = (s, false) := by
  cases t with
  | nil => simp
  | cons c rest => by_cases h : isNameChar c <;> simp [h, eq_comm (a := r)]

theorem mem_rests_leadingDirectories :
    r ∈ Piece.leadingDirectories.rests t ↔ r = (t, false) ∨ ∃ c rest, t = c :: rest ∧
      isInline c = true ∧ ∃ s ∈ afterSlashes rest, r = (s, false) := by
  cases t with
  | nil => simp
  | cons c rest => by_cases h : isInline c <;> simp [h, eq_comm (a := r), or_comm]

theorem mem_rests_innerDirectories :
    r ∈ Piece.innerDirectories.rests t ↔ r = (t, false) ∨ ∃ c rest, t = '/' :: c :: rest ∧
      isInline c = true ∧ ∃ s ∈ afterRun isInline rest, r = (s, false) := by
  match t with
  | [] | [_] => simp
  | c :: d :: rest =>
    by_cases hc : c = '/'
    · subst hc
      by_cases h : isInline d <;> simp [h, eq_comm (a := r), or_comm]
    · simp [hc]

theorem mem_rests_directory :
    r ∈ Piece.directory.rests t ↔ ∃ rest, t = '/' :: rest ∧ r = (rest, true) := by
  cases t with
  | nil => simp
  | cons c rest => by_cases h : c = '/' <;> simp [h]

theorem mem_rests_finish :
    r ∈ Piece.finish.rests t ↔ (∃ rest, t = '/' :: rest ∧ r = (rest, true)) ∨
      (t = [] ∨ t = ['\n']) ∧ r = (t, false) := by
  match t with
  | [] => simp
  | c :: rest =>
    by_cases hc : c = '/'
    · simp [hc]
    · cases rest with
      | nil => by_cases hline : c = '\n' <;> simp [hc, hline]
      | cons d rest => simp [hc]

end

/-! ## 2. Longer texts -/

theorem mem_afterRun_self (p : Char → Bool) (t : Text) : t ∈ afterRun p t := by
  cases t with
  | nil => simp [afterRun]
  | cons c rest => by_cases h : p c <;> simp [afterRun, h]

theorem mem_afterRun_append {p : Char → Bool} {t s : Text} (h : s ∈ afterRun p t) (w : Text) :
    s ++ w ∈ afterRun p (t ++ w) := by
  induction t with
  | nil =>
    obtain rfl : s = [] := by simpa [afterRun] using h
    exact mem_afterRun_self p w
  | cons c rest ih =>
    by_cases hc : p c
    · simp only [afterRun, hc, if_true, List.cons_append, List.mem_append,
        List.mem_singleton] at h ⊢
      rcases h with h | rfl
      · exact .inl (ih h)
      · exact .inr rfl
    · simp_all [afterRun]

theorem mem_afterSlashes_append {t s : Text} (h : s ∈ afterSlashes t) (w : Text) :
    s ++ w ∈ afterSlashes (t ++ w) := by
  induction t with
  | nil => simp [afterSlashes] at h
  | cons c rest ih =>
    rw [List.cons_append, afterSlashes]
    rw [afterSlashes] at h
    split at h
    next hc =>
      rw [if_pos hc]
      rcases List.mem_append.mp h with h | h
      · exact List.mem_append_left _ (ih h)
      · obtain rfl := List.mem_singleton.mp h
        simp
    next hc =>
      split at h
      next => simp at h
      next hline => rw [if_neg hc, if_neg hline]; exact ih h

/-- What a piece leaves of a text that ends in a slash, it leaves of a longer one, longer by as
much. -/
theorem mem_rests_append {piece : Piece} {t : Text} {r : Text × Bool}
    (hend : t.getLast? = some '/') (h : r ∈ piece.rests t) (w : Text) :
    (r.1 ++ w, r.2) ∈ piece.rests (t ++ w) := by
  cases piece with
  | literal d =>
    obtain ⟨rest, rfl, rfl⟩ := mem_rests_literal.mp h
    exact mem_rests_literal.mpr ⟨rest ++ w, rfl, rfl⟩
  | one =>
    obtain ⟨c, rest, rfl, hc, rfl⟩ := mem_rests_one.mp h
    exact mem_rests_one.mpr ⟨c, rest ++ w, rfl, hc, rfl⟩
  | run =>
    obtain ⟨s, hs, rfl⟩ := mem_rests_run.mp h
    exact mem_rests_run.mpr ⟨s ++ w, mem_afterRun_append hs w, rfl⟩
  | name =>
    obtain ⟨c, rest, rfl, hc, s, hs, rfl⟩ := mem_rests_name.mp h
    exact mem_rests_name.mpr ⟨c, rest ++ w, rfl, hc, s ++ w, mem_afterRun_append hs w, rfl⟩
  | bracket negated ranges =>
    obtain ⟨c, rest, rfl, hc, rfl⟩ := mem_rests_bracket.mp h
    exact mem_rests_bracket.mpr ⟨c, rest ++ w, rfl, hc, rfl⟩
  | leadingDirectories =>
    refine mem_rests_leadingDirectories.mpr ?_
    rcases mem_rests_leadingDirectories.mp h with rfl | ⟨c, rest, rfl, hc, s, hs, rfl⟩
    · exact .inl rfl
    · exact .inr ⟨c, rest ++ w, rfl, hc, s ++ w, mem_afterSlashes_append hs w, rfl⟩
  | innerDirectories =>
    refine mem_rests_innerDirectories.mpr ?_
    rcases mem_rests_innerDirectories.mp h with rfl | ⟨c, rest, rfl, hc, s, hs, rfl⟩
    · exact .inl rfl
    · exact .inr ⟨c, rest ++ w, rfl, hc, s ++ w, mem_afterRun_append hs w, rfl⟩
  | directory =>
    obtain ⟨rest, rfl, rfl⟩ := mem_rests_directory.mp h
    exact mem_rests_directory.mpr ⟨rest ++ w, rfl, rfl⟩
  | finish =>
    rcases mem_rests_finish.mp h with ⟨rest, rfl, rfl⟩ | ⟨rfl | rfl, -⟩
    · exact mem_rests_finish.mpr (.inl ⟨rest ++ w, rfl, rfl⟩)
    -- a path that ends in a slash does not end here
    · cases hend
    · simp at hend

/-- Whether a piece can take the slash at the end of a directory. -/
def Piece.takesSlash : Piece → Bool
  | .literal c => c = '/'
  | .one | .run | .name => false
  | .bracket negated ranges => inBracket negated ranges '/'
  | .leadingDirectories | .innerDirectories | .directory | .finish => true

theorem taken_of_mem_afterRun {p : Char → Bool} {t s : Text} (h : s ∈ afterRun p t) :
    ∃ taken, t = taken ++ s ∧ ∀ c ∈ taken, p c = true := by
  induction t with
  | nil =>
    obtain rfl : s = [] := by simpa [afterRun] using h
    exact ⟨[], rfl, by simp⟩
  | cons c rest ih =>
    by_cases hc : p c
    · simp only [afterRun, hc, if_true, List.mem_append, List.mem_singleton] at h
      rcases h with h | rfl
      · obtain ⟨taken, rfl, hp⟩ := ih h
        exact ⟨c :: taken, rfl, List.forall_mem_cons.mpr ⟨hc, hp⟩⟩
      · exact ⟨[], rfl, by simp⟩
    · obtain rfl : s = c :: rest := by simpa [afterRun, hc] using h
      exact ⟨[], rfl, by simp⟩

theorem slash_not_mem_of_isNameChar {t : Text} (h : ∀ c ∈ t, isNameChar c = true) : '/' ∉ t :=
  fun hmem => by simpa [isNameChar] using h _ hmem

/-- What a piece takes stands in front of what it leaves. -/
theorem taken_of_mem_rests {piece : Piece} {t : Text} {r : Text × Bool} (h : r ∈ piece.rests t) :
    ∃ taken, t = taken ++ r.1 ∧ (piece.takesSlash = false → '/' ∉ taken) := by
  cases piece with
  | literal d =>
    obtain ⟨rest, rfl, rfl⟩ := mem_rests_literal.mp h
    exact ⟨[d], rfl, fun hd => by simpa [Piece.takesSlash, eq_comm] using hd⟩
  | one =>
    obtain ⟨c, rest, rfl, hc, rfl⟩ := mem_rests_one.mp h
    exact ⟨[c], rfl, fun _ => slash_not_mem_of_isNameChar (by simpa using hc)⟩
  | run =>
    obtain ⟨s, hs, rfl⟩ := mem_rests_run.mp h
    obtain ⟨taken, htaken, hnames⟩ := taken_of_mem_afterRun hs
    exact ⟨taken, htaken, fun _ => slash_not_mem_of_isNameChar hnames⟩
  | name =>
    obtain ⟨c, rest, rfl, hc, s, hs, rfl⟩ := mem_rests_name.mp h
    obtain ⟨taken, rfl, hnames⟩ := taken_of_mem_afterRun hs
    exact ⟨c :: taken, rfl,
      fun _ => slash_not_mem_of_isNameChar (List.forall_mem_cons.mpr ⟨hc, hnames⟩)⟩
  | bracket negated ranges =>
    obtain ⟨c, rest, rfl, hc, rfl⟩ := mem_rests_bracket.mp h
    refine ⟨[c], rfl, fun hslash hmem => ?_⟩
    rw [← List.mem_singleton.mp hmem] at hc
    rw [Piece.takesSlash, hc] at hslash
    cases hslash
  | leadingDirectories =>
    rcases mem_rests_leadingDirectories.mp h with rfl | ⟨c, rest, rfl, -, s, hs, rfl⟩
    · exact ⟨[], rfl, by simp⟩
    · obtain ⟨front, rfl⟩ := isSuffix_of_mem_afterSlashes hs
      exact ⟨c :: front, rfl, fun hslash => by cases hslash⟩
  | innerDirectories =>
    rcases mem_rests_innerDirectories.mp h with rfl | ⟨c, rest, rfl, -, s, hs, rfl⟩
    · exact ⟨[], rfl, by simp⟩
    · obtain ⟨front, rfl⟩ := isSuffix_of_mem_afterRun hs
      exact ⟨'/' :: c :: front, rfl, fun hslash => by cases hslash⟩
  | directory =>
    obtain ⟨rest, rfl, rfl⟩ := mem_rests_directory.mp h
    exact ⟨['/'], rfl, fun hslash => by cases hslash⟩
  | finish =>
    rcases mem_rests_finish.mp h with ⟨rest, rfl, rfl⟩ | ⟨-, rfl⟩
    · exact ⟨['/'], rfl, fun hslash => by cases hslash⟩
    · exact ⟨[], rfl, by simp⟩

/-- Whether a text may be the end of a directory's path: it ends in a slash, and no two slashes
stand next to each other. -/
structure DirectoryTail (t : Text) : Prop where
  ends : t.getLast? = some '/'
  single : ∀ front back, t ≠ front ++ '/' :: '/' :: back

theorem DirectoryTail.of_append {t : Text} (taken : Text) (h : DirectoryTail (taken ++ t))
    (ht : t ≠ []) : DirectoryTail t where
  ends := by
    have hends := h.ends
    rwa [List.getLast?_append_of_ne_nil _ ht] at hends
  single front back heq := h.single (taken ++ front) back (by rw [heq, List.append_assoc])

/-- No slash follows a slash. -/
theorem DirectoryTail.head?_ne {t : Text} (h : DirectoryTail ('/' :: t)) :
    t.head? ≠ some '/' := by
  intro hhead
  obtain ⟨back, rfl⟩ := List.head?_eq_some_iff.mp hhead
  exact h.single [] back rfl

/-- Whether the end of a directory's path that begins with pieces begins with them also with
anything behind it. -/
def Prolongs (parts : List Piece) : Prop :=
  ∀ t, DirectoryTail t → Begins parts t → ∀ w, Begins parts (t ++ w)

/-- The same for what begins with a name. -/
def ProlongsName (parts : List Piece) : Prop :=
  ∀ t, DirectoryTail t → t.head? ≠ some '/' → Begins parts t → ∀ w, Begins parts (t ++ w)

/-- Whether pieces that the end of a path satisfies are satisfied by every text. -/
def Lenient (parts : List Piece) : Prop := Begins parts [] → ∀ w, Begins parts w

theorem prolongs_nil : Prolongs [] := fun _ _ _ _ => trivial

theorem Prolongs.toName {parts : List Piece} (h : Prolongs parts) : ProlongsName parts :=
  fun t ht _ => h t ht

theorem Prolongs.cons {piece : Piece} {rest : List Piece} (hrest : Prolongs rest)
    (hslash : piece.takesSlash = false ∨ Lenient rest) : Prolongs (piece :: rest) := by
  rintro t ht ⟨r, hr, hbegins⟩ w
  obtain ⟨taken, rfl, hspared⟩ := taken_of_mem_rests hr
  refine ⟨(r.1 ++ w, r.2), mem_rests_append ht.ends hr w, ?_⟩
  by_cases hnil : r.1 = []
  · -- the piece has taken the last slash
    rw [hnil] at hbegins
    rcases hslash with hpiece | hlenient
    · have hends := ht.ends
      rw [hnil, List.append_nil] at hends
      exact absurd (List.mem_of_getLast? hends) (hspared hpiece)
    · rw [hnil]
      exact hlenient hbegins w
  · exact hrest _ (DirectoryTail.of_append taken ht hnil) hbegins w

/-- A slash is followed by a name. -/
theorem ProlongsName.cons_slash {rest : List Piece} (hrest : ProlongsName rest)
    (hlenient : Lenient rest) : Prolongs (.literal '/' :: rest) := by
  rintro t ht ⟨r, hr, hbegins⟩ w
  obtain ⟨left, rfl, rfl⟩ := mem_rests_literal.mp hr
  refine ⟨(left ++ w, false), mem_rests_literal.mpr ⟨left ++ w, rfl, rfl⟩, ?_⟩
  by_cases hnil : left = []
  · rw [hnil] at hbegins ⊢
    exact hlenient hbegins w
  · have hleft : DirectoryTail left := DirectoryTail.of_append ['/'] ht hnil
    exact hrest left hleft ht.head?_ne hbegins w

theorem eq_append_of_mem_afterSlashes {t s : Text} (h : s ∈ afterSlashes t) :
    ∃ taken, t = taken ++ '/' :: s := by
  induction t with
  | nil => cases h
  | cons c rest ih =>
    rw [afterSlashes] at h
    split at h
    next hc =>
      subst hc
      rcases List.mem_append.mp h with h | h
      · obtain ⟨taken, rfl⟩ := ih h
        exact ⟨'/' :: taken, rfl⟩
      · obtain rfl := List.mem_singleton.mp h
        exact ⟨[], rfl⟩
    next =>
      split at h
      next => cases h
      next =>
        obtain ⟨taken, rfl⟩ := ih h
        exact ⟨c :: taken, rfl⟩

/-- Directories above a path are followed by a name. -/
theorem ProlongsName.cons_leadingDirectories {rest : List Piece} (hrest : ProlongsName rest)
    (hlenient : Lenient rest) : ProlongsName (.leadingDirectories :: rest) := by
  rintro t ht hhead ⟨r, hr, hbegins⟩ w
  refine ⟨(r.1 ++ w, r.2), mem_rests_append ht.ends hr w, ?_⟩
  rcases mem_rests_leadingDirectories.mp hr with rfl | ⟨c, after, rfl, -, left, hleft, rfl⟩
  · exact hrest t ht hhead hbegins w
  · obtain ⟨taken, rfl⟩ := eq_append_of_mem_afterSlashes hleft
    have hslash : DirectoryTail ('/' :: left) :=
      DirectoryTail.of_append (c :: taken) ht (List.cons_ne_nil _ _)
    by_cases hnil : left = []
    · subst hnil
      exact hlenient hbegins w
    · have hleft : DirectoryTail left := DirectoryTail.of_append ['/'] hslash hnil
      exact hrest left hleft hslash.head?_ne hbegins w

/-! ## 3. Segments -/

/-- Whether a piece stands for characters of a segment. -/
def Piece.isCharacter : Piece → Bool
  | .literal c => c ≠ '/'
  | .one | .run | .name | .bracket .. => true
  | .leadingDirectories | .innerDirectories | .directory | .finish => false

section

variable {own rest : List Piece}

/-- Of the pieces for characters, only a run is satisfied by the end of a path. -/
theorem eq_run_of_begins_nil {piece : Piece} (hpiece : piece.isCharacter = true)
    (h : Begins (piece :: rest) []) : piece = .run ∧ Begins rest [] := by
  obtain ⟨r, hr, hrest⟩ := h
  cases piece with
  | run =>
    obtain ⟨s, hs, rfl⟩ := mem_rests_run.mp hr
    obtain rfl : s = [] := by simpa [afterRun] using hs
    exact ⟨rfl, hrest⟩
  | literal | one | name | bracket => cases hr
  | leadingDirectories | innerDirectories | directory | finish => cases hpiece

theorem not_begins_nil_append (hown : ∀ piece ∈ own, piece.isCharacter = true)
    (hrest : ¬Begins rest []) : ¬Begins (own ++ rest) [] := by
  induction own with
  | nil => exact hrest
  | cons piece own ih =>
    obtain ⟨hpiece, hothers⟩ := List.forall_mem_cons.mp hown
    exact fun h => ih hothers (eq_run_of_begins_nil hpiece h).2

theorem lenient_of_not_begins_nil (h : ¬Begins rest []) : Lenient rest :=
  fun hnil => absurd hnil h

/-- Pieces that the end of a path satisfies are also satisfied by a slash. -/
theorem begins_of_begins_nil (hown : ∀ piece ∈ own, piece.isCharacter = true)
    (h : Begins (own ++ [.finish]) []) {w : Text} (hw : w = [] ∨ w.head? = some '/') :
    Begins (own ++ [.finish]) w := by
  induction own with
  | nil =>
    cases w with
    | nil => exact h
    | cons c w =>
      obtain rfl : c = '/' := by simpa using hw
      exact ⟨(w, true), mem_rests_finish.mpr (.inl ⟨w, rfl, rfl⟩), trivial⟩
  | cons piece own ih =>
    obtain ⟨hpiece, hothers⟩ := List.forall_mem_cons.mp hown
    obtain ⟨rfl, hnil⟩ := eq_run_of_begins_nil hpiece h
    exact ⟨(w, false), mem_rests_run.mpr ⟨w, mem_afterRun_self _ w, rfl⟩, ih hothers hnil⟩

theorem mem_afterRun_dropWhile (p : Char → Bool) (t : Text) : t.dropWhile p ∈ afterRun p t := by
  induction t with
  | nil => simp [afterRun]
  | cons c rest ih => by_cases hc : p c <;> simp [afterRun, hc, ih]

/-- A segment that the end of a path satisfies begins with a run, and a run takes any name. -/
theorem lenient_segment (hne : own ≠ []) (hown : ∀ piece ∈ own, piece.isCharacter = true) :
    Lenient (own ++ [.finish]) := by
  intro h w
  obtain ⟨piece, own, rfl⟩ := List.exists_cons_of_ne_nil hne
  obtain ⟨hpiece, hothers⟩ := List.forall_mem_cons.mp hown
  obtain ⟨rfl, hnil⟩ := eq_run_of_begins_nil hpiece h
  refine ⟨(w.dropWhile isNameChar, false),
    mem_rests_run.mpr ⟨_, mem_afterRun_dropWhile _ w, rfl⟩, ?_⟩
  refine begins_of_begins_nil hothers hnil ?_
  cases hafter : w.dropWhile isNameChar with
  | nil => exact .inl rfl
  | cons c after =>
    have hc : isNameChar c = false := by
      have hhead := List.head?_dropWhile_not isNameChar w
      rw [hafter] at hhead
      simpa using hhead
    exact .inr (by simpa [isNameChar] using hc)

/-- Pieces for characters in front of pieces that the end of a path does not satisfy. -/
theorem prolongs_append (hown : ∀ piece ∈ own, piece.isCharacter = true) (hrest : Prolongs rest)
    (hnil : ¬Begins rest []) : Prolongs (own ++ rest) := by
  induction own with
  | nil => exact hrest
  | cons piece own ih =>
    obtain ⟨-, hothers⟩ := List.forall_mem_cons.mp hown
    exact (ih hothers).cons
      (.inr (lenient_of_not_begins_nil (not_begins_nil_append hothers hnil)))

/-- The pieces of the last segment of a pattern, if it ends in no bracket that takes a slash. -/
theorem prolongs_segment (hown : ∀ piece ∈ own, piece.isCharacter = true)
    (hend : ∀ negated ranges, [.bracket negated ranges, .finish] <:+ own ++ [.finish] →
      inBracket negated ranges '/' = false) : Prolongs (own ++ [.finish]) := by
  induction own with
  | nil => exact prolongs_nil.cons (.inr fun _ _ => trivial)
  | cons piece own ih =>
    obtain ⟨hpiece, hothers⟩ := List.forall_mem_cons.mp hown
    have hrest : Prolongs (own ++ [.finish]) :=
      ih hothers fun negated ranges h => hend negated ranges (h.trans (List.suffix_cons _ _))
    refine hrest.cons ?_
    by_cases hlast : own = []
    · subst hlast
      refine .inl ?_
      cases piece with
      | literal c => simpa [Piece.isCharacter, Piece.takesSlash] using hpiece
      | one | run | name => rfl
      | bracket negated ranges => exact hend negated ranges (List.suffix_refl _)
      | leadingDirectories | innerDirectories | directory | finish => cases hpiece
    · exact .inr (lenient_segment hlast hothers)

/-- A bracket that is all of the last segment takes a character of a name. -/
theorem prolongsName_bracket (negated : Bool) (ranges : List (Char × Char)) :
    ProlongsName [.bracket negated ranges, .finish] := by
  rintro t ht hhead ⟨r, hr, hbegins⟩ w
  obtain ⟨c, left, rfl, hc, rfl⟩ := mem_rests_bracket.mp hr
  have hnil : left ≠ [] := by
    rintro rfl
    exact hhead ht.ends
  have hfinish : Prolongs [.finish] := prolongs_nil.cons (.inr fun _ _ => trivial)
  exact ⟨(left ++ w, false), mem_rests_bracket.mpr ⟨c, left ++ w, rfl, hc, rfl⟩,
    hfinish left (DirectoryTail.of_append [c] ht hnil) hbegins w⟩

/-- The pieces of the last segment of a pattern, if no bracket that takes a slash ends it with
something in front. -/
theorem prolongsName_segment (hown : ∀ piece ∈ own, piece.isCharacter = true)
    (hend : ∀ piece negated ranges, piece.isCharacter = true →
      [piece, .bracket negated ranges, .finish] <:+ own ++ [.finish] →
      inBracket negated ranges '/' = false) : ProlongsName (own ++ [.finish]) := by
  by_cases hbracket : ∃ negated ranges, own = [.bracket negated ranges]
  · obtain ⟨negated, ranges, rfl⟩ := hbracket
    exact prolongsName_bracket negated ranges
  · refine (prolongs_segment hown ?_).toName
    rintro negated ranges ⟨front, hfront⟩
    obtain rfl : front ++ [.bracket negated ranges] = own :=
      List.append_cancel_right (by rw [← hfront, List.append_assoc]; rfl)
    rcases List.eq_nil_or_concat front with rfl | ⟨before, piece, rfl⟩
    · exact absurd ⟨negated, ranges, rfl⟩ hbracket
    · refine hend piece negated ranges (hown piece (by simp)) ⟨before, ?_⟩
      simp

end

end Marginalia.Ignore
