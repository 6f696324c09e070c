/-
Marginalia.Proofs.Settings.InForce — the extensions and the patterns in force
are their own normal form.

What is in force is worked out from configured entries: braces are expanded, and
of extensions leading dots, blank entries and repetitions are dropped. The
stages are in each other's way. Dots are dropped after braces are expanded, so
dropping them might uncover a group; an alternative may begin with dots itself;
entries that differ may become the same extension. Two facts about expansion
settle all of it: expansions have no group left, and a beginning without braces,
such as dots, is kept in front of every expansion.

* `Canonical` is what each extension in force is, and a list of distinct
  canonical extensions is in force as it stands.
* Dots in front of entries change no extension, and so no walk
  (`extensions_canonical`).
* Patterns in force may be configured in place of those they come from, the
  default ones included (`excludePatterns_settled`).
-/
import Mathlib
import Marginalia.Proofs.Brace.Settled
import Marginalia.Walk

namespace Marginalia

namespace Settings

/-! ## 1. Leading dots -/

theorem bareExtension_append_dots (n : Nat) (e : Text) :
    bareExtension (List.replicate n '.' ++ e) = bareExtension e := by
  induction n with
  | zero => rfl
  | succ n ih =>
    rw [List.replicate_succ, List.cons_append, ← ih]
    simp [bareExtension]

theorem head?_bareExtension (e : Text) : (bareExtension e).head? ≠ some '.' := by
  induction e with
  | nil => simp [bareExtension]
  | cons c rest ih =>
    by_cases hc : c = '.'
    · simpa [bareExtension, hc] using ih
    · simp [bareExtension, hc]

theorem bareExtension_of_head? {e : Text} (h : e.head? ≠ some '.') : bareExtension e = e := by
  cases e with
  | nil => rfl
  | cons c rest =>
    have hc : c ≠ '.' := fun hc => h (congrArg some hc)
    simp [bareExtension, hc]

/-- The dots that are dropped from an extension hold no brace. -/
theorem exists_dots_append (e : Text) : ∃ dots, '{' ∉ dots ∧ dots ++ bareExtension e = e := by
  refine ⟨e.takeWhile (· = '.'), fun hmem => ?_, List.takeWhile_append_dropWhile⟩
  have hdot := List.all_eq_true.mp List.all_takeWhile '{' hmem
  simp at hdot

/-- Dots in front of an entry are in front of each of its expansions, where they are dropped. -/
theorem map_bareExtension_expand_dots (n : Nat) (entry : Text) :
    (Brace.expand (List.replicate n '.' ++ entry)).map bareExtension
      = (Brace.expand entry).map bareExtension := by
  have hdots : '{' ∉ List.replicate n '.' := by simp
  rw [Brace.expand_append hdots, List.map_map]
  refine List.map_congr_left fun e _ => ?_
  exact bareExtension_append_dots n e

/-- Dropping the dots of a text without a group uncovers no group. -/
theorem expand_bareExtension {e : Text} (h : Brace.expand e = [e]) :
    Brace.expand (bareExtension e) = [bareExtension e] := by
  obtain ⟨dots, hdots, heq⟩ := exists_dots_append e
  have hexpand : (Brace.expand (bareExtension e)).map (dots ++ ·)
      = [bareExtension e].map (dots ++ ·) := by
    rw [← Brace.expand_append hdots, heq, h, List.map_singleton, heq]
  exact (List.map_inj_right fun _ _ h => List.append_cancel_left h).mp hexpand

/-! ## 2. The extensions in force -/

/-- Adding extensions one by one leaves out the blank ones and the repetitions. -/
theorem foldl_addExtension (l : List Text) :
    l.foldl addExtension [] = (l.filter (!·.isBlankText)).eraseDups := by
  induction l using List.reverseRecOn with
  | nil => rfl
  | append_singleton l e ih =>
    rw [List.foldl_append, ih, List.foldl_cons, List.foldl_nil, addExtension, List.filter_append]
    cases hblank : e.isBlankText with
    | true => simp [hblank]
    | false =>
      have hsingle : [e].eraseDups = [e] := rfl
      rw [List.filter_cons_of_pos (by simp [hblank]), List.filter_nil, List.eraseDups_append]
      by_cases hknown : e ∈ l
      · simp [hknown, hblank, List.removeAll]
      · simp [hknown, hblank, List.removeAll, hsingle]

theorem normaliseExtensions_eq (entries : List Text) :
    normaliseExtensions entries
      = (((entries.flatMap Brace.expand).map bareExtension).filter (!·.isBlankText)).eraseDups :=
  foldl_addExtension _

/-- What an extension in force is: it has no group, no leading dot, and a character that is not
blank. -/
structure Canonical (e : Text) : Prop where
  expand_eq : Brace.expand e = [e]
  head?_ne : e.head? ≠ some '.'
  not_blank : e.isBlankText = false

theorem canonical_of_mem {entries : List Text} {e : Text} (h : e ∈ normaliseExtensions entries) :
    Canonical e := by
  rw [normaliseExtensions_eq, List.mem_eraseDups, List.mem_filter] at h
  obtain ⟨hmem, hblank⟩ := h
  obtain ⟨expanded, hexpanded, rfl⟩ := List.mem_map.mp hmem
  obtain ⟨entry, _, hexpanded⟩ := List.mem_flatMap.mp hexpanded
  exact {
    expand_eq := expand_bareExtension (Brace.expand_of_mem_expand hexpanded)
    head?_ne := head?_bareExtension expanded
    not_blank := by simpa using hblank }

theorem nodup_normaliseExtensions (entries : List Text) : (normaliseExtensions entries).Nodup := by
  rw [normaliseExtensions_eq]
  exact Brace.nodup_eraseDups _

/-- Distinct canonical extensions are in force as they stand. -/
theorem normaliseExtensions_of_canonical {l : List Text} (hnodup : l.Nodup)
    (h : ∀ e ∈ l, Canonical e) : normaliseExtensions l = l := by
  have hexpand : l.flatMap Brace.expand = l :=
    Brace.flatMap_expand_of_settled fun e he => (h e he).expand_eq
  have hbare : l.map bareExtension = l := by
    refine (List.map_congr_left fun e he => ?_).trans (List.map_id l)
    exact bareExtension_of_head? (h e he).head?_ne
  have hkept : l.filter (!·.isBlankText) = l := by
    rw [List.filter_eq_self]
    intro e he
    simp [(h e he).not_blank]
  rw [normaliseExtensions_eq, hexpand, hbare, hkept, Brace.eraseDups_of_nodup hnodup]

/-- The settings with dots put in front of the extensions, as many for each as are given. -/
def dotted (s : Settings) (dots : Nat → Nat) : Settings :=
  { s with fileExtensions := s.fileExtensions.mapIdx fun i e => List.replicate (dots i) '.' ++ e }

theorem flatMap_mapIdx_dots (entries : List Text) (dots : Nat → Nat) :
    (entries.mapIdx fun i e => List.replicate (dots i) '.' ++ e).flatMap
        (fun entry => (Brace.expand entry).map bareExtension)
      = entries.flatMap fun entry => (Brace.expand entry).map bareExtension := by
  induction entries generalizing dots with
  | nil => rfl
  | cons entry entries ih =>
    rw [List.mapIdx_cons, List.flatMap_cons, List.flatMap_cons, map_bareExtension_expand_dots,
      ih fun i => dots (i + 1)]

theorem extensions_dotted (s : Settings) (dots : Nat → Nat) :
    (s.dotted dots).extensions = s.extensions := by
  rw [extensions, extensions, normaliseExtensions_eq, normaliseExtensions_eq, dotted,
    List.map_flatMap, List.map_flatMap, flatMap_mapIdx_dots]

end Settings

/-- What a walk finds depends on the settings by the extensions and the ignore rules in force. -/
theorem enumerate_congr {s s' : Settings} (hextensions : s'.extensions = s.extensions)
    (hrules : s'.excludeRules = s.excludeRules) (disk : Disk) (limit : Option Int) (root : Text) :
    enumerate disk s' limit root = enumerate disk s limit root := by
  simp only [enumerate, walk, Scope.under, hextensions, hrules]

namespace Settings

/-- **The extensions in force are canonical.** There are no repetitions among them, none is blank or
begins with a dot, and configured as they are they stay as they are. Further dots in front of
configured entries change neither them, nor which names pass, nor what a walk finds. -/
theorem extensions_canonical (s : Settings) (dots : Nat → Nat) :
    s.extensions.Nodup ∧
      (∀ e ∈ s.extensions, e.isBlankText = false ∧ e.head? ≠ some '.') ∧
      (s.withOverrides { fileExtensions := some s.extensions }).extensions = s.extensions ∧
      (s.dotted dots).extensions = s.extensions ∧
      (∀ name, acceptsName (s.dotted dots).extensions name = acceptsName s.extensions name) ∧
      ∀ disk limit root,
        enumerate disk (s.dotted dots) limit root = enumerate disk s limit root := by
  have hnodup : s.extensions.Nodup := nodup_normaliseExtensions _
  have hcanonical : ∀ e ∈ s.extensions, Canonical e := fun _ he => canonical_of_mem he
  have hdotted := extensions_dotted s dots
  refine ⟨hnodup, ?_, normaliseExtensions_of_canonical hnodup hcanonical, hdotted, ?_, ?_⟩
  · intro e he
    exact ⟨(hcanonical e he).not_blank, (hcanonical e he).head?_ne⟩
  · intro name
    rw [hdotted]
  · intro disk limit root
    exact enumerate_congr hdotted rfl disk limit root

/-- Entries with braces, dots and blanks, of which two stand for the same extension. -/
def mixedSettings : Settings where
  fileExtensions := ["{ts,.js}".toList, "..ts".toList, " ".toList, "py\x7b".toList]
  exclude := ["{a,b}\x7bc".toList]

theorem extensions_canonical_mixed :
    mixedSettings.extensions = ["ts".toList, "js".toList, "py\x7b".toList] ∧
      "js".toList ∈ mixedSettings.extensions ∧ Text.isBlankText "js".toList = false ∧
      "js".toList.head? ≠ some '.' ∧
      (mixedSettings.dotted (· + 1)).fileExtensions
        = [".{ts,.js}".toList, "....ts".toList, "... ".toList, "....py\x7b".toList] ∧
      (mixedSettings.dotted (· + 1)).extensions = ["ts".toList, "js".toList, "py\x7b".toList] ∧
      acceptsName (mixedSettings.dotted (· + 1)).extensions "a.js".toList = true := by
  have hextensions : mixedSettings.extensions
      = ["ts".toList, "js".toList, "py\x7b".toList] := by cbv
  have hmem : "js".toList ∈ mixedSettings.extensions := by
    rw [hextensions]
    decide
  obtain ⟨-, hproper, -, hdotted, hnames, -⟩ := extensions_canonical mixedSettings (· + 1)
  obtain ⟨hblank, hhead⟩ := hproper _ hmem
  refine ⟨hextensions, hmem, hblank, hhead, by decide, hdotted.trans hextensions, ?_⟩
  rw [hnames, hextensions]
  decide

/-! ## 3. The patterns in force -/

/-- No default pattern has a brace. -/
theorem expand_of_mem_defaultExcludes : ∀ e ∈ defaultExcludes, Brace.expand e = [e] := by
  have hplain : ∀ e ∈ defaultExcludes, '{' ∉ e := by decide
  intro e he
  exact Brace.expand_of_not_mem (hplain e he)

theorem excludePatterns_ne_nil (s : Settings) : s.excludePatterns ≠ [] := by
  have hsome : (if s.exclude.isEmpty then defaultExcludes else s.exclude) ≠ [] := by
    split
    next => decide
    next hexclude => simpa using hexclude
  obtain ⟨pattern, hpattern⟩ := List.exists_mem_of_ne_nil _ hsome
  obtain ⟨e, he⟩ := List.exists_mem_of_ne_nil _ (Brace.expand_ne_nil pattern)
  exact List.ne_nil_of_mem (List.mem_flatMap.mpr ⟨pattern, hpattern, he⟩)

/-- **Expansion reaches a normal form.** Every pattern has an expansion, each once, and each is its
own only expansion. So patterns that are expanded already stay as they are: the expansions of any
patterns, the default patterns, and the patterns in force, also when they are configured. -/
theorem excludePatterns_settled (pattern : Text) (patterns : List Text) (s : Settings) :
    (Brace.expand pattern ≠ [] ∧ (Brace.expand pattern).Nodup ∧
        ∀ e ∈ Brace.expand pattern, Brace.expand e = [e]) ∧
      (patterns.flatMap Brace.expand).flatMap Brace.expand = patterns.flatMap Brace.expand ∧
      defaultExcludes.flatMap Brace.expand = defaultExcludes ∧
      s.excludePatterns.flatMap Brace.expand = s.excludePatterns ∧
      (s.withOverrides { exclude := some s.excludePatterns }).excludePatterns
        = s.excludePatterns := by
  have hagain : s.excludePatterns.flatMap Brace.expand = s.excludePatterns :=
    Brace.flatMap_expand_flatMap_expand _
  refine ⟨⟨Brace.expand_ne_nil pattern, Brace.nodup_expand pattern, ?_⟩,
    Brace.flatMap_expand_flatMap_expand patterns,
    Brace.flatMap_expand_of_settled expand_of_mem_defaultExcludes, hagain, ?_⟩
  · intro e he
    exact Brace.expand_of_mem_expand he
  · -- if no pattern were in force, the default ones would be put in place of none
    have hsome : ¬s.excludePatterns.isEmpty = true := by simpa using excludePatterns_ne_nil s
    show (if s.excludePatterns.isEmpty then defaultExcludes else s.excludePatterns).flatMap
      Brace.expand = s.excludePatterns
    rw [if_neg hsome, hagain]

/-- A brace that is not closed stays, behind what comes of a group. -/
theorem excludePatterns_settled_mixed :
    mixedSettings.excludePatterns = ["a\x7bc".toList, "b\x7bc".toList] ∧
      "a\x7bc".toList ∈ Brace.expand "{a,b}\x7bc".toList ∧
      Brace.expand "a\x7bc".toList = ["a\x7bc".toList] ∧
      (mixedSettings.withOverrides { exclude := some mixedSettings.excludePatterns }).excludePatterns
        = ["a\x7bc".toList, "b\x7bc".toList] := by
  have hpatterns : mixedSettings.excludePatterns = ["a\x7bc".toList, "b\x7bc".toList] := by cbv
  have hmem : "a\x7bc".toList ∈ Brace.expand "{a,b}\x7bc".toList := by
    have hexpand : Brace.expand "{a,b}\x7bc".toList = ["a\x7bc".toList, "b\x7bc".toList] := by cbv
    rw [hexpand]
    decide
  obtain ⟨⟨-, -, hsettled⟩, -, -, -, hagain⟩ :=
    excludePatterns_settled "{a,b}\x7bc".toList [] mixedSettings
  exact ⟨hpatterns, hmem, hsettled _ hmem, hagain.trans hpatterns⟩

end Settings

end Marginalia
