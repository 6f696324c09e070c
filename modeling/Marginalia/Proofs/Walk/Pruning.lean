/-
Marginalia.Proofs.Walk.Pruning — leaving out a directory loses no file.

A walk does not enter a directory that a rule excludes. That saves time only:
if what lies in an excluded directory is excluded by its own path too
(`Scope.Closed`), the files are those of a walk that leaves nothing out, without
the excluded ones (`Scope.files_visits_eq_filter`), in the same order.

The rules of patterns without negation are closed, with one exception. A
bracket such as `[!a]` may take the slash behind a directory's name, and then
the pattern ends there and says nothing of what lies below: with `foo[!a]` a
walk leaves out a directory `foo`, although the path `foo/bar.py` is not
excluded.
-/
import Marginalia.Proofs.Ignore.Rules
import Marginalia.Proofs.Walk.Eligible

namespace Marginalia

/-! ## 1. What is kept -/

/-- Lists of what is kept, one behind the other, are those of everything if what is left out has
none. -/
theorem flatMap_filter_eq {α β : Type} {p : α → Bool} {f g : α → List β} {l : List α}
    (hkept : ∀ x ∈ l, p x = true → f x = g x) (hleft : ∀ x ∈ l, p x = false → g x = []) :
    (l.filter p).flatMap f = l.flatMap g := by
  induction l with
  | nil => rfl
  | cons x rest ih =>
    have hrest := ih (fun y hy => hkept y (List.mem_cons_of_mem _ hy))
      fun y hy => hleft y (List.mem_cons_of_mem _ hy)
    cases hx : p x with
    | true =>
      rw [List.filter_cons_of_pos hx, List.flatMap_cons, List.flatMap_cons, hrest,
        hkept x List.mem_cons_self hx]
    | false =>
      rw [List.filter_cons_of_neg (by simp [hx]), List.flatMap_cons, hrest,
        hleft x List.mem_cons_self hx, List.nil_append]

/-! ## 2. Closed rules -/

namespace Scope

/-- Whether the rules exclude all that lies in a directory that they exclude. -/
def Closed (s : Scope) : Prop :=
  ∀ dir below : List Text, dir ≠ [] → below ≠ [] → (∀ name ∈ dir ++ below, isName name = true) →
    s.prunes dir = true → Ignore.excludes s.rules (Path.ofSegments (dir ++ below)) = true

/-- The same walk without rules: nothing is left out. -/
def unpruned (s : Scope) : Scope := { s with rules := [] }

/-- Whether a file's own path, read from the root, is not excluded. -/
def keeps (s : Scope) (path : Text) : Bool :=
  !Ignore.excludes s.rules (Path.relativeTo s.root path)

variable {s : Scope} {trail : List Text}

@[simp] theorem unpruned_pathOf (trail : List Text) : s.unpruned.pathOf trail = s.pathOf trail :=
  rfl

@[simp] theorem unpruned_prunes (trail : List Text) : s.unpruned.prunes trail = false := rfl

theorem keeps_pathOf (hroot : Path.isAbsolute s.root = true)
    (hnormal : Path.normalise s.root = s.root) (hne : trail ≠ [])
    (hnames : ∀ name ∈ trail, isName name = true) :
    s.keeps (s.pathOf trail) = !Ignore.excludes s.rules (Path.ofSegments trail) := by
  rw [keeps, relativeTo_pathOf hroot hnormal hne hnames]

/-- A file passes if it passes without rules and is not excluded. -/
theorem isEligible_eq {e : Text × Node}
    (hkeeps : s.keeps (s.pathOf (trail ++ [e.1]))
      = !Ignore.excludes s.rules (Path.ofSegments (trail ++ [e.1]))) :
    s.isEligible trail e = (s.keeps (s.pathOf (trail ++ [e.1])) && s.unpruned.isEligible trail e) := by
  have hdirectory : s.unpruned.isDirectory (trail ++ [e.1]) e.2
      = s.isDirectory (trail ++ [e.1]) e.2 := by cases e.2 <;> rfl
  have hadmits : s.unpruned.admits (trail ++ [e.1]) e.1
      = Settings.acceptsName s.extensions e.1 := Bool.and_true _
  rw [isEligible, isEligible, admits, hdirectory, hadmits, hkeeps]
  ac_rfl

/-- Nothing below an entry is kept if a closed rule leaves the entry out. -/
theorem filter_keeps_eq_nil (hclosed : s.Closed) (hroot : Path.isAbsolute s.root = true)
    (hnormal : Path.normalise s.root = s.root) {entries : Directory}
    (hwf : (Node.directory entries).wellFormed = true)
    (htrail : ∀ name ∈ trail, isName name = true) {e : Text × Node} (he : e ∈ entries)
    (hprunes : s.prunes (trail ++ [e.1]) = true) :
    (Visit.files (s.unpruned.visits (trail ++ [e.1]) e.2)).filter s.keeps = [] := by
  refine List.filter_eq_nil_iff.mpr fun path hpath => ?_
  obtain ⟨rel, hrel, hnames, rfl⟩ := exists_of_mem_files_visits hwf he hpath
  have hall : ∀ name ∈ trail ++ [e.1] ++ rel, isName name = true := by
    intro name hname
    rw [List.append_assoc, List.singleton_append] at hname
    exact (List.mem_append.mp hname).elim (htrail name) (hnames name)
  have hkeeps := keeps_pathOf hroot hnormal (by simp) hall
  have hexcluded := hclosed (trail ++ [e.1]) rel (by simp) hrel hall hprunes
  rw [List.append_assoc, List.singleton_append] at hkeeps hexcluded
  rw [unpruned_pathOf, hkeeps, hexcluded]
  decide

/-- The files of a walk are those of a walk that leaves nothing out, without the excluded ones. -/
theorem files_visits_eq_filter (hclosed : s.Closed) (hroot : Path.isAbsolute s.root = true)
    (hnormal : Path.normalise s.root = s.root) {node : Node} (hwf : node.wellFormed = true)
    (htrail : ∀ name ∈ trail, isName name = true) :
    Visit.files (s.visits trail node)
      = (Visit.files (s.unpruned.visits trail node)).filter s.keeps := by
  induction node using Node.induct generalizing trail with
  | file content => rfl
  | link target => rfl
  | directory entries ih =>
    obtain ⟨hnodup, hentries⟩ := Node.wellFormed_directory.mp hwf
    have hnames : ∀ e ∈ entries, ∀ name ∈ trail ++ [e.1], isName name = true := by
      intro e he name hname
      rcases List.mem_append.mp hname with hname | hname
      · exact htrail name hname
      · rw [List.mem_singleton.mp hname]
        exact (hentries e he).1
    cases hlist : s.disk.listError? (s.pathOf trail) with
    | some e =>
      rw [files_visits_of_listError hlist, files_visits_of_listError (s := s.unpruned) hlist]
      rfl
    | none =>
      rw [files_visits_eq hlist, files_visits_eq (s := s.unpruned) hlist, List.filter_append]
      congr 1
      case e_a =>
        -- the files of the directory itself
        rw [List.filter_map, filter_inOrder (hnodup.sublist (List.filter_sublist.map _)),
          List.filter_filter]
        congr 2
        exact List.filter_congr fun e he =>
          isEligible_eq (keeps_pathOf hroot hnormal (by simp) (hnames e he))
      case e_a =>
        -- what lies in its directories; of those left out nothing is kept
        have hall : entries.filter (fun e => !s.unpruned.prunes (trail ++ [e.1])) = entries := by
          simp
        rw [hall, ← filter_inOrder hnodup, List.filter_flatMap]
        refine flatMap_filter_eq (fun e he hkept => ?_) fun e he hleft => ?_
        · have he := (inOrder_perm _).mem_iff.mp he
          exact ih e he (hentries e he).2 (hnames e he)
        · have he := (inOrder_perm _).mem_iff.mp he
          exact filter_keeps_eq_nil hclosed hroot hnormal hwf htrail he (by simpa using hleft)

end Scope

/-! ## 3. Roots -/

/-- Rules that take no exclusions back, and none of which has a last segment that ends in a bracket
that takes a slash, are closed. -/
theorem Scope.closed_of_parseAll {s : Scope} {patterns : List Text}
    (hrules : Ignore.Rule.parseAll patterns = .ok s.rules)
    (hnegation : ∀ pattern ∈ patterns, pattern.head? ≠ some '!')
    (hend : ∀ rule ∈ s.rules, rule.shape.endsInSlash = false) : s.Closed :=
  fun _ _ hdir hbelow hnames h => Ignore.excludes_below hrules hnegation hend hdir hbelow hnames h

/-- The files under a root whose names pass, whatever the ignore rules say: no directory is left
out. -/
def unprunedFiles (disk : Disk) (settings : Settings) (root : Text) : List Text :=
  match disk.directory? (disk.absolute root) with
  | none => []
  | some entries => Visit.files ((Scope.under disk settings [] root).visits [] (.directory entries))

/-- **Leaving out directories loses no file.** The files of a walk, in order, are those under the
root that are not excluded by their own paths. -/
theorem enumerate_eq_filter_unpruned {disk : Disk} {settings : Settings}
    {rules : List Ignore.Rule} (root : Text) (hdisk : disk.wellFormed = true)
    (hcwd : Path.isAbsolute disk.cwd = true) (hrules : settings.excludeRules = .ok rules)
    (hnegation : ∀ pattern ∈ settings.excludePatterns, pattern.head? ≠ some '!')
    (hend : ∀ rule ∈ rules, rule.shape.endsInSlash = false) :
    (enumerate disk settings none root).result
      = .ok ((unprunedFiles disk settings root).filter fun path =>
          !Ignore.excludes rules (Path.relativeTo (disk.absolute root) path)) := by
  cases hroot : disk.directory? (disk.absolute root) with
  | none =>
    simp only [enumerate, walk, unprunedFiles, hroot]
    rfl
  | some entries =>
    have hwf := Disk.wellFormed_of_directory? hdisk hroot
    have hclosed : (Scope.under disk settings rules root).Closed :=
      Scope.closed_of_parseAll hrules hnegation hend
    have habsolute : Path.isAbsolute (disk.absolute root) = true :=
      Path.isAbsolute_normalise (Path.isAbsolute_join hcwd root)
    have hnormal : Path.normalise (disk.absolute root) = disk.absolute root :=
      Path.normalise_normalise (Path.isAbsolute_join hcwd root)
    have hnone : ∀ name ∈ ([] : List Text), isName name = true := by simp
    have hfiles := Scope.files_visits_eq_filter hclosed habsolute hnormal hwf hnone
    simp only [enumerate, walk_none_eq hroot hrules, unprunedFiles, hroot, hfiles]
    rfl

theorem enumerate_checkout_unpruned :
    checkout.wellFormed = true ∧ Path.isAbsolute checkout.cwd = true ∧
      pythonSettings.excludeRules = .ok buildRules ∧
      (∀ pattern ∈ pythonSettings.excludePatterns, pattern.head? ≠ some '!') ∧
      (∀ rule ∈ buildRules, rule.shape.endsInSlash = false) ∧
      (enumerate checkout pythonSettings none "/w".toList).result
        = .ok (["/w/a.py".toList, "/w/gone.py".toList, "/w/build/d.py".toList,
            "/w/lib/b.py".toList].filter fun path =>
            !Ignore.excludes buildRules (Path.relativeTo "/w".toList path)) := by
  have hdisk : checkout.wellFormed = true := rfl
  have hrules : pythonSettings.excludeRules = .ok buildRules := by decide +kernel
  have hnegation : ∀ pattern ∈ pythonSettings.excludePatterns, pattern.head? ≠ some '!' := by
    decide +kernel
  have hend : ∀ rule ∈ buildRules, rule.shape.endsInSlash = false := by decide +kernel
  refine ⟨hdisk, rfl, hrules, hnegation, hend, ?_⟩
  have hfiles : unprunedFiles checkout pythonSettings "/w".toList
      = ["/w/a.py".toList, "/w/gone.py".toList, "/w/build/d.py".toList, "/w/lib/b.py".toList] := by
    cbv
  rw [← hfiles]
  exact enumerate_eq_filter_unpruned "/w".toList hdisk rfl hrules hnegation hend

/-- A directory with one file. -/
def barely : Disk where
  root := [("w".toList, .directory [
    ("foo".toList, .directory [("bar.py".toList, .file "# b".toUTF8.toList)])])]

/-- Settings with one ignore pattern, which ends in a negated bracket. -/
def bracketSettings : Settings where
  exclude := ["foo[!a]".toList]

/-- The bracket takes the slash behind the directory, and no character of the path below. -/
theorem enumerate_bracket_ne_filter :
    barely.wellFormed = true ∧
      (∀ pattern ∈ bracketSettings.excludePatterns, pattern.head? ≠ some '!') ∧
      ∃ rules, bracketSettings.excludeRules = .ok rules ∧
        (enumerate barely bracketSettings none "/w".toList).result = .ok [] ∧
        ((unprunedFiles barely bracketSettings "/w".toList).filter fun path =>
            !Ignore.excludes rules (Path.relativeTo (barely.absolute "/w".toList) path))
          = ["/w/foo/bar.py".toList] := by
  refine ⟨rfl, by decide +kernel, [⟨false, .pieces (.leadingDirectories ::
    "foo".toList.map .literal ++ [.bracket true [('a', 'a')], .finish])⟩], by decide +kernel, ?_, ?_⟩
  · cbv
  · have hfiles : unprunedFiles barely bracketSettings "/w".toList = ["/w/foo/bar.py".toList] := by
      cbv
    rw [hfiles]
    decide +kernel

end Marginalia
