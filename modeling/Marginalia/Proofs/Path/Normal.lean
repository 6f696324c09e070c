/-
Marginalia.Proofs.Path.Normal — absolute paths are their own normal form.

The normal form of an absolute path is what it has in front, one slash or two,
followed by plain segments: none is empty, holds a slash, or is `.` or `..`.
Plain segments can be taken apart again and resolve to themselves, and what
stands in front is kept, so normalising once more changes nothing
(`normalise_normalise`). Nothing is said of relative paths, whose `..` may
stay.
-/
import Marginalia.Path

namespace Marginalia.Path

/-! ## 1. Segments -/

/-- Whether a segment is the name of something: no part of normalisation drops it or undoes it. -/
structure Plain (segment : Text) : Prop where
  ne_nil : segment ≠ []
  slash_not_mem : '/' ∉ segment
  ne_here : segment ≠ here
  ne_above : segment ≠ above

theorem slash_not_mem_of_mem_splitOn : ∀ {path segment : Text},
    segment ∈ path.splitOn '/' → '/' ∉ segment
  | [], segment, h => by
      obtain rfl : segment = [] := by simpa using h
      exact List.not_mem_nil
  | c :: rest, segment, h => by
      rw [List.splitOn_cons_eq_if_modifyHead] at h
      obtain ⟨first, others, hrest⟩ := List.exists_cons_of_ne_nil (List.splitOn_ne_nil '/' rest)
      have ih : ∀ s ∈ rest.splitOn '/', '/' ∉ s := fun s => slash_not_mem_of_mem_splitOn
      rw [hrest] at ih h
      split at h
      next =>
        rcases List.mem_cons.mp h with rfl | h
        · exact List.not_mem_nil
        · exact ih segment h
      next hc =>
        rcases List.mem_cons.mp h with rfl | h
        · rw [List.mem_cons, not_or]
          exact ⟨fun heq => hc (by simp [← heq]), ih first List.mem_cons_self⟩
        · exact ih segment (List.mem_cons_of_mem _ h)

theorem of_mem_segments {path segment : Text} (h : segment ∈ segments path) :
    segment ≠ [] ∧ '/' ∉ segment := by
  obtain ⟨hmem, hne⟩ := List.mem_filter.mp h
  exact ⟨by simpa using hne, slash_not_mem_of_mem_splitOn hmem⟩

/-- A slash in front adds no segment. -/
theorem segments_slash (path : Text) : segments ('/' :: path) = segments path := by
  simp [segments, List.splitOn_cons_eq_if_modifyHead]

theorem segments_ofSegments {parts : List Text} (h : ∀ s ∈ parts, s ≠ [] ∧ '/' ∉ s) :
    segments (ofSegments parts) = parts := by
  by_cases hparts : parts = []
  · subst hparts
    rfl
  · rw [segments, ofSegments, Text.join,
      List.splitOn_intercalate '/' (fun s hs => (h s hs).2) hparts, List.filter_eq_self]
    intro s hs
    simpa using (h s hs).1

/-- Joined segments begin with no slash. -/
theorem isAbsolute_ofSegments {parts : List Text} (h : ∀ s ∈ parts, s ≠ [] ∧ '/' ∉ s) :
    isAbsolute (ofSegments parts) = false := by
  match parts with
  | [] => rfl
  | [] :: _ => exact absurd rfl (h [] List.mem_cons_self).1
  | (c :: name) :: rest =>
    have hc : c ≠ '/' := fun hc => (h _ List.mem_cons_self).2 (hc ▸ List.mem_cons_self)
    have hhead : (ofSegments ((c :: name) :: rest)).head? = some c := by
      cases rest with
      | nil => simp [ofSegments, Text.join]
      | cons next others => simp [ofSegments, Text.join, List.intercalate_cons_cons]
    rw [isAbsolute, hhead]
    simpa using hc

/-! ## 2. Resolving -/

theorem Plain.bare {s : Text} (h : Plain s) : s ≠ [] ∧ '/' ∉ s := ⟨h.ne_nil, h.slash_not_mem⟩

theorem push_of_plain {segment : Text} (h : Plain segment) (done : List Text) :
    push true done segment = segment :: done := by
  unfold push
  rw [if_neg h.ne_here, if_neg h.ne_above]

theorem plain_of_mem_push {done : List Text} {segment : Text} (hdone : ∀ s ∈ done, Plain s)
    (hsegment : segment ≠ [] ∧ '/' ∉ segment) : ∀ s ∈ push true done segment, Plain s := by
  unfold push
  split
  next => exact hdone
  next hhere =>
    split
    next =>
      match done, hdone with
      | [], _ => simp
      | last :: rest, hdone =>
        -- a plain segment is not `..`, so it is the one that is undone
        simp only [if_neg (hdone last List.mem_cons_self).ne_above]
        exact fun s hs => hdone s (List.mem_cons_of_mem _ hs)
    next habove =>
      rintro s hs
      rcases List.mem_cons.mp hs with rfl | hs
      · exact ⟨hsegment.1, hsegment.2, hhere, habove⟩
      · exact hdone s hs

theorem plain_of_mem_foldl_push : ∀ {parts done : List Text}, (∀ s ∈ done, Plain s) →
    (∀ s ∈ parts, s ≠ [] ∧ '/' ∉ s) → ∀ s ∈ parts.foldl (push true) done, Plain s
  | [], _, hdone, _ => hdone
  | part :: rest, done, hdone, hparts => by
      have hpush := plain_of_mem_push hdone (hparts part List.mem_cons_self)
      have hrest : ∀ s ∈ rest, s ≠ [] ∧ '/' ∉ s :=
        fun s hs => hparts s (List.mem_cons_of_mem _ hs)
      rw [List.foldl_cons]
      exact plain_of_mem_foldl_push hpush hrest

/-- The segments of an absolute path resolve to plain ones. -/
theorem plain_of_mem_resolve {path segment : Text} (h : segment ∈ resolve true (segments path)) :
    Plain segment := by
  have hnone : ∀ s ∈ ([] : List Text), Plain s := fun _ hs => absurd hs List.not_mem_nil
  exact plain_of_mem_foldl_push hnone (fun _ hs => of_mem_segments hs) segment
    (List.mem_reverse.mp h)

/-- Plain segments resolve to themselves. -/
theorem resolve_of_plain {parts : List Text} (h : ∀ s ∈ parts, Plain s) :
    resolve true parts = parts := by
  have hfold : ∀ (rest done : List Text), (∀ s ∈ rest, Plain s) →
      rest.foldl (push true) done = rest.reverse ++ done := by
    intro rest
    induction rest with
    | nil => exact fun done _ => rfl
    | cons part rest ih =>
      intro done hrest
      rw [List.foldl_cons, push_of_plain (hrest part List.mem_cons_self),
        ih _ fun s hs => hrest s (List.mem_cons_of_mem _ hs)]
      simp
  rw [resolve, hfold parts [] h, List.append_nil, List.reverse_reverse]

/-! ## 3. Normal forms -/

/-- An absolute path keeps one leading slash or two. -/
theorem lead_of_isAbsolute {path : Text} (h : isAbsolute path = true) :
    lead path = ['/'] ∨ lead path = ['/', '/'] := by
  unfold lead
  split
  next => exact .inl rfl
  next => exact .inr rfl
  next => exact .inl rfl
  next hslash =>
    cases path with
    | nil => cases h
    | cons c rest =>
      obtain rfl : c = '/' := by simpa [isAbsolute] using h
      exact absurd rfl (hslash rest)

/-- What stands in front of a path that begins with no slash is what is kept. -/
theorem lead_append {front body : Text} (hfront : front = ['/'] ∨ front = ['/', '/'])
    (hbody : isAbsolute body = false) : lead (front ++ body) = front := by
  cases body with
  | nil => rcases hfront with rfl | rfl <;> rfl
  | cons c rest =>
    have hc : c ≠ '/' := by simpa [isAbsolute] using hbody
    rcases hfront with rfl | rfl <;> simp [lead, hc]

theorem normalise_of_isAbsolute {path : Text} (h : isAbsolute path = true) :
    normalise path = lead path ++ ofSegments (resolve true (segments path)) := by
  unfold normalise
  rw [h]
  rcases lead_of_isAbsolute h with hlead | hlead <;> simp [hlead]

theorem isAbsolute_normalise {path : Text} (h : isAbsolute path = true) :
    isAbsolute (normalise path) = true := by
  rw [normalise_of_isAbsolute h]
  rcases lead_of_isAbsolute h with hlead | hlead <;> rw [hlead] <;> rfl

/-- The segments of an absolute path in normal form are the resolved ones. -/
theorem segments_normalise {path : Text} (h : isAbsolute path = true) :
    segments (normalise path) = resolve true (segments path) := by
  have hparts : ∀ s ∈ resolve true (segments path), s ≠ [] ∧ '/' ∉ s :=
    fun _ hs => (plain_of_mem_resolve hs).bare
  rw [normalise_of_isAbsolute h]
  rcases lead_of_isAbsolute h with hlead | hlead
  · rw [hlead, List.singleton_append, segments_slash, segments_ofSegments hparts]
  · rw [hlead, List.cons_append, List.singleton_append, segments_slash, segments_slash,
      segments_ofSegments hparts]

/-- The normal form of an absolute path begins as the path does. -/
theorem lead_normalise {path : Text} (h : isAbsolute path = true) :
    lead (normalise path) = lead path := by
  have hparts : ∀ s ∈ resolve true (segments path), s ≠ [] ∧ '/' ∉ s :=
    fun _ hs => (plain_of_mem_resolve hs).bare
  rw [normalise_of_isAbsolute h]
  exact lead_append (lead_of_isAbsolute h) (isAbsolute_ofSegments hparts)

/-- Normalising an absolute path once more changes nothing. -/
theorem normalise_normalise {path : Text} (h : isAbsolute path = true) :
    normalise (normalise path) = normalise path := by
  rw [normalise_of_isAbsolute (isAbsolute_normalise h), lead_normalise h, segments_normalise h,
    resolve_of_plain fun s hs => plain_of_mem_resolve hs, normalise_of_isAbsolute h]

theorem isAbsolute_join {directory : Text} (h : isAbsolute directory = true) (path : Text) :
    isAbsolute (join directory path) = true := by
  unfold join
  split
  next hpath => exact hpath
  next =>
    cases directory with
    | nil => cases h
    | cons c rest =>
      obtain rfl : c = '/' := by simpa [isAbsolute] using h
      split
      next => rfl
      next => rfl

theorem isAbsolute_absolute {cwd : Text} (hcwd : isAbsolute cwd = true) (path : Text) :
    isAbsolute (absolute cwd path) = true :=
  isAbsolute_normalise (isAbsolute_join hcwd path)

theorem normalise_absolute {cwd : Text} (hcwd : isAbsolute cwd = true) (path : Text) :
    normalise (absolute cwd path) = absolute cwd path :=
  normalise_normalise (isAbsolute_join hcwd path)

/-- The absolute form of a path is its own absolute form. -/
theorem absolute_absolute {cwd : Text} (hcwd : isAbsolute cwd = true) (path : Text) :
    absolute cwd (absolute cwd path) = absolute cwd path := by
  have hself : join cwd (absolute cwd path) = absolute cwd path := by
    rw [join, if_pos (isAbsolute_absolute hcwd path)]
  rw [absolute, hself]
  exact normalise_absolute hcwd path

end Marginalia.Path
