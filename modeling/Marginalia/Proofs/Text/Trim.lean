/-
Marginalia.Proofs.Text.Trim — what trimming leaves of a text.

Dropping characters at the end of a text is `List.rdropWhile`, so it leaves a
beginning of the text. Hence trimming only leaves characters out
(`trim_sublist`), and it leaves them all out of a blank text alone
(`trim_eq_nil_iff`).
-/
import Mathlib.Data.List.DropRight
import Mathlib.Data.List.TakeWhile
import Marginalia.Text.Basic

namespace Marginalia.Text

theorem dropEndWhile_eq_rdropWhile (p : Char → Bool) (t : Text) :
    t.dropEndWhile p = List.rdropWhile p t := rfl

/-- Dropping characters at the end leaves the first one, unless nothing is left. -/
theorem head?_dropEndWhile {p : Char → Bool} {t : Text} {c : Char}
    (h : (t.dropEndWhile p).head? = some c) : t.head? = some c := by
  rw [dropEndWhile_eq_rdropWhile] at h
  obtain ⟨back, hback⟩ := List.rdropWhile_prefix p t
  rw [← hback, List.head?_append, h]
  rfl

theorem trimStart_sublist (t : Text) : t.trimStart.Sublist t := List.dropWhile_sublist _

theorem trim_sublist (t : Text) : t.trim.Sublist t :=
  (List.rdropWhile_prefix isBlank t.trimStart).sublist.trans (trimStart_sublist t)

/-- Trimming leaves nothing of a text that is blank, and of no other. -/
theorem trim_eq_nil_iff (t : Text) : t.trim = [] ↔ t.isBlankText = true := by
  rw [trim, trimEnd, dropEndWhile_eq_rdropWhile, List.rdropWhile_eq_nil_iff, isBlankText,
    List.all_eq_true]
  constructor
  · intro h c hc
    rw [← List.takeWhile_append_dropWhile (p := isBlank) (l := t)] at hc
    rcases List.mem_append.mp hc with hc | hc
    · exact List.mem_takeWhile_imp hc
    · exact h c hc
  · intro h c hc
    exact h c ((List.dropWhile_suffix isBlank).subset hc)

end Marginalia.Text
