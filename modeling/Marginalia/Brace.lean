/-
Marginalia.Brace — alternatives in braces.

`src/*.{js,map}` stands for `src/*.js` and `src/*.map`. `Brace.split?` finds
the first group of a pattern: everything before its opening brace, the
alternatives between its own commas, and everything after its closing brace.
`Brace.expand` puts each alternative in place of the group and expands what
results, so that nested groups come out in order. A pattern whose first brace
is never closed stands for itself, with all that follows.

Every expansion step takes two braces away, which is why expansion ends.
-/
import Marginalia.Text.Basic

namespace Marginalia.Brace

/-- What stands inside a group, from its opening brace on: the alternatives, and the text after the
closing brace. `depth` counts the braces that are open inside the group; `current` is the
alternative being read, last character first. -/
def alternatives? (depth : Nat) (current : Text) : Text → Option (List Text × Text)
  | [] => none
  | '}' :: rest =>
    match depth with
    | 0 => some ([current.reverse], rest)
    | d + 1 => alternatives? d ('}' :: current) rest
  | '{' :: rest => alternatives? (depth + 1) ('{' :: current) rest
  | ',' :: rest =>
    if depth = 0 then
      (alternatives? 0 [] rest).map fun r => (current.reverse :: r.1, r.2)
    else alternatives? depth (',' :: current) rest
  | c :: rest => alternatives? depth (c :: current) rest

/-- A pattern cut at its first group. -/
structure Group where
  before : Text
  choices : List Text
  after : Text
  deriving Repr, DecidableEq

/-- The first group of a pattern, if the pattern has a brace and the first one is closed. -/
def split? (pattern : Text) : Option Group :=
  match pattern.dropWhile (· ≠ '{') with
  | [] => none
  | _ :: inner =>
    (alternatives? 0 [] inner).map fun r => ⟨pattern.takeWhile (· ≠ '{'), r.1, r.2⟩

/-- The text after a group is shorter than the group. -/
theorem length_after_lt (depth : Nat) (current inner : Text) (r : List Text × Text)
    (h : alternatives? depth current inner = some r) : r.2.length < inner.length := by
  fun_induction alternatives? depth current inner generalizing r with
  | case1 => simp at h
  | case2 => cases h; simp
  | case5 current rest ih =>
    obtain ⟨s, hs, rfl⟩ := Option.map_eq_some_iff.1 h
    exact Nat.lt_succ_of_lt (ih s hs)
  | case3 current rest d ih | case4 d current rest ih | case6 d current rest _ ih
  | case7 d current c rest _ _ _ ih => exact Nat.lt_succ_of_lt (ih r h)

/-- An alternative and the text after its group are together shorter than the group. -/
theorem length_choice_lt (depth : Nat) (current inner : Text) (r : List Text × Text)
    (h : alternatives? depth current inner = some r) :
    ∀ c ∈ r.1, c.length + r.2.length < current.length + inner.length := by
  fun_induction alternatives? depth current inner generalizing r with
  | case1 => simp at h
  | case2 => cases h; simp
  | case5 current rest ih =>
    obtain ⟨s, hs, rfl⟩ := Option.map_eq_some_iff.1 h
    intro c hc
    have hr := length_after_lt _ _ _ _ hs
    rcases List.mem_cons.1 hc with rfl | hc
    · simp; omega
    · have := ih s hs c hc
      simp at this ⊢; omega
  | case3 current rest d ih | case4 d current rest ih | case6 d current rest _ ih
  | case7 d current c rest _ _ _ ih =>
    intro x hx
    have := ih r h x hx
    simp at this ⊢; omega

/-- Putting an alternative in place of its group shortens the pattern. -/
theorem length_splice_lt {pattern : Text} {g : Group} (h : split? pattern = some g) :
    ∀ c ∈ g.choices, (g.before ++ c ++ g.after).length < pattern.length := by
  intro c hc
  unfold split? at h
  split at h
  · simp at h
  · rename_i x inner hd
    obtain ⟨r, hr, rfl⟩ := Option.map_eq_some_iff.1 h
    have hlen := congrArg List.length (List.takeWhile_append_dropWhile (p := (· ≠ '{')) (l := pattern))
    have hc' := length_choice_lt _ _ _ _ hr c hc
    rw [hd] at hlen
    simp at hlen hc' ⊢
    omega

/-- All patterns that a pattern with braces stands for, without repetitions, in the order of its
alternatives. -/
def expand (pattern : Text) : List Text :=
  match _h : split? pattern with
  | none => [pattern]
  | some g =>
    (g.choices.attach.flatMap fun c => expand (g.before ++ c.1 ++ g.after)).eraseDups
termination_by pattern.length
decreasing_by exact length_splice_lt _h c.1 c.2

/-! ## Small facts -/

/-- A pattern without a closed first group stands for itself. -/
theorem expand_of_split?_none {pattern : Text} (h : split? pattern = none) :
    expand pattern = [pattern] := by
  rw [expand]
  split
  · rfl
  · simp_all

/-- The expansions of a pattern with a group are those of its alternatives, put in place. -/
theorem expand_of_split?_some {pattern : Text} {g : Group} (h : split? pattern = some g) :
    expand pattern
      = (g.choices.flatMap fun c => expand (g.before ++ c ++ g.after)).eraseDups := by
  rw [expand]
  split
  · simp_all
  · rename_i g' h'
    obtain rfl : g' = g := by simp_all
    have hmap := List.flatMap_map (fun c : { c // c ∈ g'.choices } => c.1)
      (fun c => expand (g'.before ++ c ++ g'.after)) g'.choices.attach
    rw [List.attach_map_subtype_val] at hmap
    rw [hmap]

/-- A pattern without an opening brace has no group. -/
theorem split?_of_not_mem {pattern : Text} (h : '{' ∉ pattern) : split? pattern = none := by
  have hd : pattern.dropWhile (· ≠ '{') = [] := by
    induction pattern with
    | nil => rfl
    | cons c rest ih =>
      have hc : c ≠ '{' := fun hc => h (by simp [hc])
      simpa [hc] using ih fun hr => h (by simp [hr])
  unfold split?
  rw [hd]

/-- A pattern without an opening brace stands for itself. -/
theorem expand_of_not_mem {pattern : Text} (h : '{' ∉ pattern) : expand pattern = [pattern] :=
  expand_of_split?_none (split?_of_not_mem h)

end Marginalia.Brace
