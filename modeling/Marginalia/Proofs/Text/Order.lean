/-
Marginalia.Proofs.Text.Order — the order of texts, code point by code point.

`CodePointLt` is the lexicographic order of code points. `codePointLe`, by
which names and records are sorted, decides it or equality, so a sorted list
without repetition is strictly increasing, and its members determine it.
-/
import Mathlib.Data.List.Nodup
import Marginalia.Text.Basic

namespace Marginalia

/-! ## 1. Texts -/

/-- The strict order of texts: at the first difference, the lower code point comes first. -/
def CodePointLt (a b : Text) : Prop := List.Lex (fun c d : Char => c.toNat < d.toNat) a b

theorem codePointLe_iff : ∀ {a b : Text}, codePointLe a b = true ↔ a = b ∨ CodePointLt a b
  | [], [] => by simp [codePointLe]
  | [], d :: b => by
      simp only [codePointLe, true_iff]
      exact .inr List.Lex.nil
  | c :: a, [] => by
      simp only [codePointLe, Bool.false_eq_true, false_iff]
      rintro (h | h)
      · cases h
      · cases h
  | c :: a, d :: b => by
      by_cases hcd : c = d
      · subst hcd
        simp only [codePointLe, if_true, codePointLe_iff (a := a), List.cons.injEq, true_and]
        refine or_congr_right ⟨List.Lex.cons, fun h => ?_⟩
        cases h with
        | cons h => exact h
        | rel h => exact absurd h (Nat.lt_irrefl _)
      · rw [codePointLe, if_neg hcd, decide_eq_true_eq]
        simp only [List.cons.injEq, hcd, false_and, false_or]
        refine ⟨fun h => .rel h, fun h => ?_⟩
        cases h with
        | cons h => exact absurd rfl hcd
        | rel h => exact h

theorem CodePointLt.trans {a b c : Text} (hab : CodePointLt a b) (hbc : CodePointLt b c) :
    CodePointLt a c :=
  List.lex_trans Nat.lt_trans hab hbc

theorem CodePointLt.irrefl (a : Text) : ¬CodePointLt a a :=
  List.lex_irrefl (fun c => Nat.lt_irrefl c.toNat) a

theorem CodePointLt.asymm {a b : Text} (hab : CodePointLt a b) : ¬CodePointLt b a :=
  List.lex_asymm Nat.lt_asymm hab

theorem codePointLe_trans {a b c : Text} (hab : codePointLe a b = true)
    (hbc : codePointLe b c = true) : codePointLe a c = true := by
  rw [codePointLe_iff] at hab hbc ⊢
  rcases hab with rfl | hab
  · exact hbc
  rcases hbc with rfl | hbc
  · exact .inr hab
  exact .inr (hab.trans hbc)

theorem codePointLe_total : ∀ a b : Text, (codePointLe a b || codePointLe b a) = true
  | [], _ => by simp [codePointLe]
  | _ :: _, [] => by simp [codePointLe]
  | c :: a, d :: b => by
      by_cases hcd : c = d
      · subst hcd
        simpa only [codePointLe, if_true] using codePointLe_total a b
      · have hne : c.toNat ≠ d.toNat := fun h => hcd (Char.toNat_inj.mp h)
        simp only [codePointLe, if_neg hcd, if_neg (Ne.symm hcd), Bool.or_eq_true,
          decide_eq_true_eq]
        omega

/-! ## 2. Sorted lists -/

/-- Values sorted by distinct keys are strictly increasing. -/
theorem pairwise_mergeSort_codePointLt {α : Type} (key : α → Text) {l : List α}
    (hl : (l.map key).Nodup) :
    (l.mergeSort fun a b => codePointLe (key a) (key b)).Pairwise fun a b =>
      CodePointLt (key a) (key b) := by
  have hsorted : (l.mergeSort fun a b => codePointLe (key a) (key b)).Pairwise fun a b =>
      codePointLe (key a) (key b) = true := by
    refine List.pairwise_mergeSort ?_ ?_ l
    · exact fun a b c hab hbc => codePointLe_trans hab hbc
    · exact fun a b => codePointLe_total (key a) (key b)
  have hperm := (List.mergeSort_perm l fun a b => codePointLe (key a) (key b)).map key
  have hdistinct := List.pairwise_map.mp (hperm.nodup_iff.mpr hl)
  refine (hsorted.and hdistinct).imp fun {a b} h => ?_
  exact (codePointLe_iff.mp h.1).resolve_left h.2

/-- The members of a strictly increasing list determine it. -/
theorem eq_of_pairwise_codePointLt {α : Type} (key : α → Text) {l m : List α}
    (hl : l.Pairwise fun a b => CodePointLt (key a) (key b))
    (hm : m.Pairwise fun a b => CodePointLt (key a) (key b)) (h : ∀ a, a ∈ l ↔ a ∈ m) : l = m := by
  have hnodup : ∀ {l : List α}, (l.Pairwise fun a b => CodePointLt (key a) (key b)) → l.Nodup := by
    intro l hl
    refine hl.imp fun {a b} hab heq => ?_
    subst heq
    exact CodePointLt.irrefl _ hab
  refine List.Perm.eq_of_pairwise (fun a b _ _ hab hba => (hab.asymm hba).elim) hl hm ?_
  exact (List.perm_ext_iff_of_nodup (hnodup hl) (hnodup hm)).mpr h

end Marginalia
