/-
Marginalia.Proofs.Brace.Settled — what has been expanded stays as it is.

A text that a pattern stands for can still hold braces: what follows a brace
that is not closed is kept as it is, and closing braces outside of groups are
too. The obstacle is that putting alternatives in place might close such a
brace, or leave a group behind. It does not: an alternative is balanced, so the
texts that come out of groups have no opening brace at all, and the first
opening brace of a text of a pattern is the first one of the pattern that is not
closed. So the text reads as characters that stand for themselves
(`Reads.reads_text`).

* `expand_ne_nil`, `nodup_expand`: a pattern has an expansion, and each once.
* `expand_of_mem_expand`: an expansion is its own only expansion.
* `expand_append`: a beginning without opening braces is kept in front of every
  expansion.
-/
import Marginalia.Proofs.Brace.Meaning

namespace Marginalia.Brace

/-! ## 1. Texts read as characters -/

/-- A text without opening braces in front of a pattern reads as its characters. -/
theorem Reads.prepend {t : Text} {parts : List Part} (h : Reads t parts) {front : Text}
    (hfront : '{' ∉ front) : Reads (front ++ t) (front.map .literal ++ parts) := by
  induction front with
  | nil => exact h
  | cons c front ih =>
    have hc : c ≠ '{' := fun hc => hfront (by simp [hc])
    have hrest : '{' ∉ front := fun hmem => hfront (List.mem_cons_of_mem _ hmem)
    exact .literal hc (ih hrest)

/-- Each character of a text of a pattern stands for itself. -/
theorem Reads.reads_text {pattern : Text} {parts : List Part} (h : Reads pattern parts) :
    ∀ s ∈ textsOf parts, Reads s (s.map .literal) := by
  induction h with
  | nil =>
    intro s hs
    rw [List.mem_singleton.mp hs]
    exact .nil
  | literal hopen _ ih =>
    intro s hs
    rw [textsOf_literal_cons] at hs
    obtain ⟨rest, hrest, rfl⟩ := List.mem_map.mp hs
    exact .literal hopen (ih rest hrest)
  | group hchoices _ ih =>
    intro s hs
    rw [textsOf_group_cons] at hs
    obtain ⟨front, hfront, hs⟩ := List.mem_flatMap.mp hs
    obtain ⟨rest, hrest, rfl⟩ := List.mem_map.mp hs
    -- what comes out of the group has no opening brace, so it begins no group with what follows
    rw [List.map_append]
    exact (ih rest hrest).prepend (hchoices.not_mem_texts front hfront)
  | unclosed hopen =>
    intro s hs
    rw [textsOf_literals] at hs
    rw [List.mem_singleton.mp hs]
    exact .unclosed hopen

/-! ## 2. Expansions -/

/-- A group has an alternative. -/
theorem choices_ne_nil {depth : Nat} {current inner : Text} {r : List Text × Text}
    (h : alternatives? depth current inner = some r) : r.1 ≠ [] := by
  fun_induction alternatives? depth current inner generalizing r with
  | case1 => cases h
  | case2 =>
    obtain rfl := Option.some.inj h
    exact List.cons_ne_nil _ _
  | case5 =>
    obtain ⟨s, _, rfl⟩ := Option.map_eq_some_iff.mp h
    exact List.cons_ne_nil _ _
  | case3 _ _ _ ih | case4 _ _ _ ih | case6 _ _ _ _ ih | case7 _ _ _ _ _ _ _ ih => exact ih h

/-- Every pattern stands for something. -/
theorem expand_ne_nil (pattern : Text) : expand pattern ≠ [] := by
  cases hsplit : split? pattern with
  | none =>
    rw [expand_of_split?_none hsplit]
    exact List.cons_ne_nil _ _
  | some g =>
    obtain ⟨c, hc⟩ : ∃ c, c ∈ g.choices := by
      refine List.exists_mem_of_ne_nil _ ?_
      unfold split? at hsplit
      split at hsplit
      · cases hsplit
      · obtain ⟨r, hr, rfl⟩ := Option.map_eq_some_iff.mp hsplit
        exact choices_ne_nil hr
    have hshorter := length_splice_lt hsplit c hc
    obtain ⟨e, he⟩ := List.exists_mem_of_ne_nil _ (expand_ne_nil (g.before ++ c ++ g.after))
    rw [expand_of_split?_some hsplit]
    exact List.ne_nil_of_mem (List.mem_eraseDups.mpr (List.mem_flatMap.mpr ⟨c, hc, he⟩))
termination_by pattern.length
decreasing_by exact hshorter

theorem expand_eq {pattern : Text} {parts : List Part} (h : Reads pattern parts) :
    expand pattern = (textsOf parts).eraseDups := by
  simpa using h.expand (List.not_mem_nil (a := '{'))

theorem nodup_expand (pattern : Text) : (expand pattern).Nodup := by
  obtain ⟨parts, hparts⟩ := exists_reads pattern
  rw [expand_eq hparts]
  exact nodup_eraseDups _

/-- An expansion is its own only expansion. -/
theorem expand_of_mem_expand {pattern e : Text} (h : e ∈ expand pattern) : expand e = [e] := by
  obtain ⟨parts, hparts⟩ := exists_reads pattern
  rw [expand_eq hparts, List.mem_eraseDups] at h
  rw [expand_eq (hparts.reads_text e h), textsOf_literals]
  rfl

/-- Patterns that are expanded already stay as they are. -/
theorem flatMap_expand_of_settled {patterns : List Text} (h : ∀ e ∈ patterns, expand e = [e]) :
    patterns.flatMap expand = patterns := by
  induction patterns with
  | nil => rfl
  | cons e patterns ih =>
    obtain ⟨he, hpatterns⟩ := List.forall_mem_cons.mp h
    rw [List.flatMap_cons, he, ih hpatterns, List.singleton_append]

theorem flatMap_expand_flatMap_expand (patterns : List Text) :
    (patterns.flatMap expand).flatMap expand = patterns.flatMap expand := by
  refine flatMap_expand_of_settled fun e he => ?_
  obtain ⟨pattern, _, he⟩ := List.mem_flatMap.mp he
  exact expand_of_mem_expand he

/-! ## 3. Beginnings -/

/-- A beginning without opening braces is kept in front of each expansion. -/
theorem expand_append {front : Text} (hfront : '{' ∉ front) (pattern : Text) :
    expand (front ++ pattern) = (expand pattern).map (front ++ ·) := by
  obtain ⟨parts, hparts⟩ := exists_reads pattern
  have hinj : Function.Injective (front ++ ·) := fun _ _ h => List.append_cancel_left h
  rw [hparts.expand hfront, expand_eq hparts, eraseDups_map hinj]

end Marginalia.Brace
