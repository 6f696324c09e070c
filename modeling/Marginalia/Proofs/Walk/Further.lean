/-
Marginalia.Proofs.Walk.Further — a further ignore pattern adds no file.

Ignore rules decide twice about a walk: which directories it enters, and which
files it keeps. Rules that exclude more can only make it lose files, and those
that are left stay in their order (`Scope.files_visits_sublist`).

A pattern that is put behind others excludes more, unless it takes exclusions
back. That is so whatever the earlier patterns take back themselves: the new one
decides instead of them, or it leaves their decision as it was.
-/
import Marginalia.Proofs.Ignore.Rules
import Marginalia.Proofs.Walk.Eligible

namespace Marginalia

/-! ## 1. Walks with more rules -/

namespace Scope

variable {s : Scope} {rules : List Ignore.Rule} {trail : List Text}

/-- The same walk with other rules. -/
def withRules (s : Scope) (rules : List Ignore.Rule) : Scope := { s with rules }

section

variable
  (hmore : ∀ path, Ignore.excludes s.rules path = true → Ignore.excludes rules path = true)

include hmore

theorem prunes_of_not_prunes_withRules {dir : List Text}
    (h : (s.withRules rules).prunes dir = false) : s.prunes dir = false :=
  Bool.eq_false_iff.mpr fun hprunes => Bool.eq_false_iff.mp h (hmore _ hprunes)

theorem isEligible_of_withRules {e : Text × Node}
    (h : (s.withRules rules).isEligible trail e = true) : s.isEligible trail e = true := by
  have hdirectory : (s.withRules rules).isDirectory (trail ++ [e.1]) e.2
      = s.isDirectory (trail ++ [e.1]) e.2 := by cases e.2 <;> rfl
  rw [isEligible, admits, hdirectory, Bool.and_eq_true, Bool.and_eq_true, Bool.not_eq_true'] at h
  obtain ⟨hfile, hname, hkept⟩ := h
  have hkept' : Ignore.excludes s.rules (Path.ofSegments (trail ++ [e.1])) = false := by
    rw [Bool.not_eq_true'] at hkept
    exact Bool.eq_false_iff.mpr fun hexcluded => Bool.eq_false_iff.mp hkept (hmore _ hexcluded)
  rw [isEligible, admits, hkept', Bool.and_eq_true, Bool.and_eq_true]
  exact ⟨by rw [hfile]; rfl, hname, rfl⟩

/-- With rules that exclude at least as much, a walk finds some of the files, in the same order. -/
theorem files_visits_sublist {node : Node} (hwf : node.wellFormed = true) (trail : List Text) :
    (Visit.files ((s.withRules rules).visits trail node)).Sublist
      (Visit.files (s.visits trail node)) := by
  induction node using Node.induct generalizing trail with
  | file content => exact List.Sublist.refl _
  | link target => exact List.Sublist.refl _
  | directory entries ih =>
    obtain ⟨hnodup, hentries⟩ := Node.wellFormed_directory.mp hwf
    cases hlist : s.disk.listError? (s.pathOf trail) with
    | some e =>
      rw [files_visits_of_listError hlist, files_visits_of_listError (s := s.withRules rules) hlist]
    | none =>
      rw [files_visits_eq hlist, files_visits_eq (s := s.withRules rules) hlist]
      simp only [← filter_inOrder hnodup]
      refine List.Sublist.append (List.Sublist.map _ ?own) ?below
      case own =>
        exact List.monotone_filter_right _ fun e he => isEligible_of_withRules hmore he
      case below =>
        -- fewer directories are entered, and each of them has fewer files
        have hentered : ((inOrder entries).filter fun e =>
            !(s.withRules rules).prunes (trail ++ [e.1])).Sublist
            ((inOrder entries).filter fun e => !s.prunes (trail ++ [e.1])) := by
          refine List.monotone_filter_right _ fun e he => ?_
          rw [Bool.not_eq_true'] at he ⊢
          exact prunes_of_not_prunes_withRules hmore he
        refine (hentered.flatMap _).trans (List.Sublist.flatMap_right _ fun e he => ?_)
        have he := (inOrder_perm _).mem_iff.mp (List.mem_of_mem_filter he)
        exact ih e he (hentries e he).2 (trail ++ [e.1])

end

end Scope

/-! ## 2. Roots -/

/-- The settings with a further ignore pattern, behind the configured ones. -/
def Settings.excluding (s : Settings) (pattern : Text) : Settings :=
  { s with exclude := s.exclude ++ [pattern] }

/-- Where patterns are configured, a further one is put behind those in force. -/
theorem Settings.excludePatterns_excluding {s : Settings} (h : s.exclude ≠ []) (pattern : Text) :
    (s.excluding pattern).excludePatterns = s.excludePatterns ++ Brace.expand pattern := by
  have hsome : s.exclude.isEmpty = false := by simpa using h
  simp [excludePatterns, excluding, hsome]

/-- **A further ignore pattern adds no file.** Whatever the configured patterns are, and whatever
they take back, the files of a walk with a further pattern that takes nothing back are some of
those without it, in the same order. -/
theorem enumerate_excluding_sublist {disk : Disk} {settings : Settings} {pattern : Text}
    {rules : List Ignore.Rule} (root : Text) (hdisk : disk.wellFormed = true)
    (hsome : settings.exclude ≠ [])
    (hnegation : ∀ expanded ∈ Brace.expand pattern, expanded.head? ≠ some '!')
    (hrules : (settings.excluding pattern).excludeRules = .ok rules) :
    ∃ files fewer, (enumerate disk settings none root).result = .ok files ∧
      (enumerate disk (settings.excluding pattern) none root).result = .ok fewer ∧
      fewer.Sublist files := by
  obtain ⟨front, back, hfront, hback, hsplit⟩ : ∃ front back, settings.excludeRules = .ok front ∧
      Ignore.Rule.parseAll (Brace.expand pattern) = .ok back ∧ rules = front ++ back := by
    rw [Settings.excludeRules, Settings.excludePatterns_excluding hsome] at hrules
    exact Ignore.Rule.parseAll_append hrules
  have hmore : ∀ path, Ignore.excludes front path = true → Ignore.excludes rules path = true := by
    intro path hpath
    rw [hsplit]
    exact Ignore.excludes_append (Ignore.Rule.negated_of_parseAll hback hnegation) hpath
  cases hroot : disk.directory? (disk.absolute root) with
  | none =>
    refine ⟨[], [], ?_, ?_, List.Sublist.refl _⟩
    · rw [enumerate, walk_of_not_directory hroot]
      rfl
    · rw [enumerate, walk_of_not_directory hroot]
      rfl
  | some entries =>
    have hwf := Disk.wellFormed_of_directory? hdisk hroot
    refine ⟨_, _, ?_, ?_, Scope.files_visits_sublist (s := Scope.under disk settings front root)
      hmore hwf []⟩
    · rw [enumerate, walk_none_eq hroot hfront]
    · rw [enumerate, walk_none_eq hroot hrules]
      rfl

/-- A directory with a file, and two in a directory below. -/
def bookcase : Disk where
  root := [("w".toList, .directory [("a.py".toList, .file []),
    ("lib".toList, .directory [("b.py".toList, .file []), ("c.py".toList, .file [])])])]

/-- Settings whose second pattern takes back part of what the first one excludes. -/
def takingBack : Settings where
  exclude := ["*.py".toList, "!lib/*".toList]

theorem enumerate_excluding_bookcase :
    bookcase.wellFormed = true ∧ takingBack.exclude ≠ [] ∧
      (∀ expanded ∈ Brace.expand "{c,d}.*".toList, expanded.head? ≠ some '!') ∧
      (∃ rules, (takingBack.excluding "{c,d}.*".toList).excludeRules = .ok rules) ∧
      (enumerate bookcase takingBack none "/w".toList).result
        = .ok ["/w/lib/b.py".toList, "/w/lib/c.py".toList] ∧
      ∃ fewer, (enumerate bookcase (takingBack.excluding "{c,d}.*".toList) none "/w".toList).result
          = .ok fewer ∧ fewer.Sublist ["/w/lib/b.py".toList, "/w/lib/c.py".toList] ∧
        fewer = ["/w/lib/b.py".toList] := by
  have hdisk : bookcase.wellFormed = true := rfl
  have hsome : takingBack.exclude ≠ [] := List.cons_ne_nil _ _
  have hexpand : Brace.expand "{c,d}.*".toList = ["c.*".toList, "d.*".toList] := by cbv
  have hnegation : ∀ expanded ∈ Brace.expand "{c,d}.*".toList, expanded.head? ≠ some '!' := by
    rw [hexpand]
    decide
  obtain ⟨rules, hrules⟩ :
      ∃ rules, (takingBack.excluding "{c,d}.*".toList).excludeRules = .ok rules := ⟨_, by cbv⟩
  obtain ⟨files, fewer, hfiles, hfewer, hsublist⟩ :=
    enumerate_excluding_sublist "/w".toList hdisk hsome hnegation hrules
  have hbefore : (enumerate bookcase takingBack none "/w".toList).result
      = .ok ["/w/lib/b.py".toList, "/w/lib/c.py".toList] := by cbv
  have hafter : (enumerate bookcase (takingBack.excluding "{c,d}.*".toList) none "/w".toList).result
      = .ok ["/w/lib/b.py".toList] := by cbv
  obtain rfl := Except.ok.inj (hfiles.symm.trans hbefore)
  obtain rfl := Except.ok.inj (hfewer.symm.trans hafter)
  exact ⟨hdisk, hsome, hnegation, ⟨rules, hrules⟩, hbefore, _, hafter, hsublist, rfl⟩

end Marginalia
