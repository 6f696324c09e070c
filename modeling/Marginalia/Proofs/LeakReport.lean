/-
Marginalia.Proofs.LeakReport — by default nothing leaks.

The default patterns leave out every directory with one of the watched names,
at any depth (`prunes_of_mem_watched`): `**` takes the path above the
directory, which has to be on one line for that. A file is enumerated only if
the walk passes through all directories on the way to it, so none of them has
a watched name, and every count of the report is zero
(`checkLeaks_of_exclude_nil`).
-/
import Marginalia.LeakReport
import Marginalia.Proofs.Path.Relative
import Marginalia.Proofs.Ignore.Rules
import Marginalia.Proofs.Walk.Limit

namespace Marginalia

/-! ## 1. Names on one line -/

namespace Node

mutual

/-- Whether no name below a node has a line feed. -/
def singleLine : Node → Bool
  | .directory entries => entriesSingleLine entries
  | _ => true

/-- Whether neither the names of entries nor those below them have a line feed. -/
def entriesSingleLine : List (Text × Node) → Bool
  | [] => true
  | (name, node) :: rest => !name.contains '\n' && node.singleLine && entriesSingleLine rest

end

theorem entriesSingleLine_iff : ∀ entries : Directory, entriesSingleLine entries = true ↔
    ∀ e ∈ entries, '\n' ∉ e.1 ∧ e.2.singleLine = true
  | [] => by simp [entriesSingleLine]
  | (name, node) :: rest => by
      simp [entriesSingleLine, entriesSingleLine_iff rest]

/-- Names that lead somewhere in such a tree have no line feed. -/
theorem lineFeed_not_mem_of_at? : ∀ {names : List Text} {node leaf : Node},
    node.singleLine = true → node.at? names = some leaf → ∀ name ∈ names, '\n' ∉ name
  | [], _, _, _, _ => by simp
  | name :: rest, .file _, _, _, h => by simp [at?] at h
  | name :: rest, .link _, _, _, h => by simp [at?] at h
  | name :: rest, .directory entries, leaf, hlines, h => by
      rw [at?_cons] at h
      obtain ⟨node, hnode, hrest⟩ := Option.bind_eq_some_iff.mp h
      rw [singleLine, entriesSingleLine_iff] at hlines
      obtain ⟨hname, hbelow⟩ := hlines _ (mem_of_lookup hnode)
      exact List.forall_mem_cons.mpr ⟨hname, lineFeed_not_mem_of_at? hbelow hrest⟩

end Node

theorem Path.lineFeed_not_mem_ofSegments : ∀ {names : List Text},
    (∀ name ∈ names, '\n' ∉ name) → '\n' ∉ ofSegments names
  | [], _ => List.not_mem_nil
  | [name], h => by
      rw [ofSegments_singleton]
      exact h name List.mem_cons_self
  | name :: next :: rest, h => by
      have hrest : '\n' ∉ ofSegments (next :: rest) :=
        lineFeed_not_mem_ofSegments fun x hx => h x (List.mem_cons_of_mem _ hx)
      rw [ofSegments_cons_cons, List.mem_append, List.mem_cons]
      rintro (hmem | hmem | hmem)
      · exact h name List.mem_cons_self hmem
      · cases hmem
      · exact hrest hmem

/-! ## 2. Directories at any depth -/

namespace Ignore

theorem mem_afterSlashes_of_inline {front : Text} (h : '\n' ∉ front) (t : Text) :
    t ∈ afterSlashes (front ++ '/' :: t) := by
  induction front with
  | nil => simp [afterSlashes]
  | cons c front ih =>
    simp only [List.mem_cons, not_or] at h
    have hrest := ih h.2
    rw [List.cons_append, afterSlashes]
    split
    next => exact List.mem_append_left _ hrest
    next =>
      rw [if_neg (Ne.symm h.1)]
      exact hrest

theorem begins_literals {name t : Text} {rest : List Piece} (h : Begins rest t) :
    Begins (name.map .literal ++ rest) (name ++ t) := by
  induction name with
  | nil => exact h
  | cons c name ih => exact ⟨(name ++ t, false), mem_rests_literal.mpr ⟨_, rfl, rfl⟩, ih⟩

/-- The pieces of a pattern for all that lies in directories of a given name, at any depth. -/
def anywhereBelow (name : Text) : List Piece :=
  .leadingDirectories :: name.map .literal ++ [.literal '/']

/-- Such a pattern matches each directory of that name. -/
theorem begins_anywhereBelow {above : List Text} {name : Text}
    (hnames : ∀ s ∈ above, isName s = true) (hlines : ∀ s ∈ above, '\n' ∉ s) :
    Begins (anywhereBelow name) (Path.ofSegments (above ++ [name]) ++ ['/']) := by
  have hslash : Begins [.literal '/'] ['/'] :=
    ⟨([], false), mem_rests_literal.mpr ⟨[], rfl, rfl⟩, trivial⟩
  have hname : Begins (name.map .literal ++ [.literal '/']) (name ++ ['/']) := begins_literals hslash
  rw [anywhereBelow, List.cons_append]
  by_cases habove : above = []
  · subst habove
    rw [List.nil_append, Path.ofSegments_singleton]
    exact ⟨(name ++ ['/'], false), mem_rests_leadingDirectories.mpr (.inl rfl), hname⟩
  · obtain ⟨c, front, hfront⟩ : ∃ c front, Path.ofSegments above = c :: front := by
      obtain ⟨first, others, rfl⟩ := List.exists_cons_of_ne_nil habove
      obtain ⟨c, rest, rfl⟩ :=
        List.exists_cons_of_ne_nil (ne_nil_of_isName (hnames first List.mem_cons_self))
      obtain ⟨after, hafter⟩ := exists_ofSegments_eq_append (c :: rest) others
      exact ⟨c, rest ++ after, hafter⟩
    have hline := Path.lineFeed_not_mem_ofSegments hlines
    rw [hfront, List.mem_cons, not_or] at hline
    have htaken := mem_afterSlashes_of_inline hline.2 (name ++ ['/'])
    rw [Path.ofSegments_append habove (List.cons_ne_nil _ _), hfront, Path.ofSegments_singleton]
    refine ⟨(name ++ ['/'], false), mem_rests_leadingDirectories.mpr (.inr ⟨c, _, rfl, ?_, _, ?_,
      rfl⟩), hname⟩
    · exact decide_eq_true (Ne.symm hline.1)
    · simpa using htaken

end Ignore

/-! ## 3. The default rules -/

namespace LeakReport

/-- The names of the directories whose files a report counts. -/
def watched : List Text := ["node_modules", "dist", "build", ".git"].map String.toList

/-- The rules of the default patterns. -/
def defaultRules : List Ignore.Rule :=
  ([".git", ".svn", ".hg", "CVS", "node_modules", "bower_components", ".venv", "venv",
    "__pycache__", "dist", "build", "out", "target"].map fun name =>
      ⟨false, .pieces (Ignore.anywhereBelow name.toList)⟩)
    ++ [⟨false, .pieces (.leadingDirectories :: ".DS_Store".toList.map .literal ++ [.finish])⟩]

theorem excludeRules_of_exclude_nil {settings : Settings} (h : settings.exclude = []) :
    settings.excludeRules = .ok defaultRules := by
  have hdefault : settings.excludePatterns = ({} : Settings).excludePatterns := by
    simp [Settings.excludePatterns, h]
  have hrules : Ignore.Rule.parseAll ({} : Settings).excludePatterns = .ok defaultRules := by
    decide +kernel
  rw [Settings.excludeRules, hdefault, hrules]

theorem not_negated_of_mem_defaultRules : ∀ rule ∈ defaultRules, rule.negated = false := by
  decide

theorem exists_rule_of_mem_watched : ∀ name ∈ watched,
    ⟨false, .pieces (Ignore.anywhereBelow name)⟩ ∈ defaultRules := by
  decide

/-- A directory with a watched name is left out wherever it lies. -/
theorem prunes_of_mem_watched {s : Scope} (hrules : s.rules = defaultRules) {name : Text}
    (hname : name ∈ watched) {above : List Text}
    (hnames : ∀ x ∈ above ++ [name], isName x = true) (hlines : ∀ x ∈ above, '\n' ∉ x) :
    s.prunes (above ++ [name]) = true := by
  have habove : ∀ x ∈ above, isName x = true :=
    fun x hx => hnames x (List.mem_append_left _ hx)
  rw [Scope.prunes, hrules, Ignore.excludes_iff not_negated_of_mem_defaultRules,
    Ignore.relativePath_ofSegments (by simp) hnames]
  refine ⟨_, exists_rule_of_mem_watched name hname, ?_⟩
  rw [Ignore.Shape.mark?, Option.isSome_map, Ignore.firstMatch_isSome_iff]
  exact Ignore.begins_anywhereBelow habove hlines

/-! ## 4. Reports -/

/-- No directory on the way to an eligible file has a watched name. -/
theorem not_mem_of_eligible {s : Scope} (hrules : s.rules = defaultRules) {node : Node}
    (hwf : node.wellFormed = true) (hlines : node.singleLine = true) {rel : List Text}
    (h : s.Eligible [] node rel) : ∀ name ∈ watched, name ∉ rel.dropLast := by
  intro name hname hmem
  obtain ⟨above, below, hrel⟩ := List.append_of_mem hmem
  have hbefore : above ++ [name] <+: rel := by
    refine List.IsPrefix.trans ⟨below, ?_⟩ (List.dropLast_prefix rel)
    rw [hrel, List.append_assoc, List.singleton_append]
  have hne : above ++ [name] ≠ rel := by
    intro heq
    have hlength := congrArg List.length hrel
    rw [← heq] at hlength
    simp only [List.dropLast_concat, List.length_append, List.length_cons] at hlength
    omega
  obtain ⟨leaf, hleaf, -⟩ := h.present
  have hnames := Node.isName_of_at? hwf hleaf
  have hinline := Node.lineFeed_not_mem_of_at? hlines hleaf
  have hpruned : s.prunes (above ++ [name]) = true :=
    prunes_of_mem_watched hrules hname (fun x hx => hnames x (hbefore.subset hx))
      fun x hx => hinline x (hbefore.subset (List.mem_append_left _ hx))
  have hkept := (h.passes (above ++ [name]) hbefore hne).kept (by simp)
  rw [List.nil_append] at hkept
  rw [Scope.prunes, hkept] at hpruned
  cases hpruned

end LeakReport

/-- Enumerating the absolute form of a root is enumerating the root. -/
theorem enumerate_absolute {disk : Disk} (hcwd : Path.isAbsolute disk.cwd = true)
    (settings : Settings) (limit : Option Int) (root : Text) :
    enumerate disk settings limit (disk.absolute root) = enumerate disk settings limit root := by
  have habsolute : disk.absolute (disk.absolute root) = disk.absolute root :=
    Path.absolute_absolute hcwd root
  simp only [enumerate, walk, Scope.under, habsolute]

namespace LeakReport

/-- No file that is enumerated by default passes through a directory with a watched name. -/
theorem not_mem_of_enumerate {disk : Disk} {settings : Settings} {limit : Option Int} {root : Text}
    (hdisk : disk.wellFormed = true) (hexclude : settings.exclude = [])
    (hlines : ∀ entries, disk.directory? (disk.absolute root) = some entries →
      (Node.directory entries).singleLine = true)
    {files : List Text} (hfiles : (enumerate disk settings limit root).result = .ok files)
    {path : Text} (hpath : path ∈ files) :
    ∃ rel, rel ≠ [] ∧ (∀ name ∈ rel, isName name = true) ∧
      path = Path.join (disk.absolute root) (Path.ofSegments rel) ∧
      ∀ name ∈ watched, name ∉ rel.dropLast := by
  obtain ⟨rules, entries, rel, hrules, hroot, hrel, rfl⟩ :=
    eligible_of_mem_enumerate hdisk hfiles hpath
  have hdefault : rules = defaultRules :=
    Except.ok.inj (hrules.symm.trans (excludeRules_of_exclude_nil hexclude))
  have hwf := Disk.wellFormed_of_directory? hdisk hroot
  have hnames := hrel.isName hwf
  exact ⟨rel, hrel.ne_nil, hnames, Scope.pathOf_eq_join hrel.ne_nil hnames,
    not_mem_of_eligible hdefault hwf (hlines entries hroot) hrel⟩

theorem countBelow_eq_zero {root name : Text} {files : List Text}
    (h : ∀ path ∈ files, passesThrough root name path = false) : countBelow root name files = 0 := by
  rw [countBelow, List.countP_eq_zero]
  intro path hpath
  simp [h path hpath]

theorem ok_iff {r : LeakReport} :
    r.ok = true ↔ r.nodeModules = 0 ∧ r.dist = 0 ∧ r.build = 0 ∧ r.git = 0 := by
  simp [ok, and_assoc]

end LeakReport

/-- **By default nothing leaks.** The report of a root counts no file below a directory with a
watched name, whatever the limit and the extensions, and there is none among the files. -/
theorem checkLeaks_of_exclude_nil {disk : Disk} {settings : Settings} (limit : Option Int)
    (clock : Clock) (root : Text) (hdisk : disk.wellFormed = true)
    (hcwd : Path.isAbsolute disk.cwd = true) (hexclude : settings.exclude = [])
    (hlines : ∀ entries, disk.directory? (disk.absolute root) = some entries →
      (Node.directory entries).singleLine = true) :
    ∃ files report later, (enumerate disk settings limit root).result = .ok files ∧
      (checkLeaks disk settings limit clock root).result = .ok (report, later) ∧
      report.totalFiles = files.length ∧
      (report.nodeModules = 0 ∧ report.dist = 0 ∧ report.build = 0 ∧ report.git = 0) ∧
      report.ok = true ∧
      ∀ rel, (∀ name ∈ rel, isName name = true) →
        Path.join (disk.absolute root) (Path.ofSegments rel) ∈ files →
        ∀ name ∈ LeakReport.watched, name ∉ rel.dropLast := by
  obtain ⟨files, hfiles⟩ :=
    enumerate_ok disk (LeakReport.excludeRules_of_exclude_nil hexclude) limit root
  have habsolute : Path.isAbsolute (disk.absolute root) = true :=
    Path.isAbsolute_normalise (Path.isAbsolute_join hcwd root)
  have hnormal : Path.normalise (disk.absolute root) = disk.absolute root :=
    Path.normalise_normalise (Path.isAbsolute_join hcwd root)
  have hcount : ∀ name ∈ LeakReport.watched,
      (LeakReport.countBelow (disk.absolute root) name files : Int) = 0 := by
    intro name hname
    refine congrArg Nat.cast (LeakReport.countBelow_eq_zero fun path hpath => ?_)
    obtain ⟨rel, hne, hnames, rfl, hclean⟩ :=
      LeakReport.not_mem_of_enumerate hdisk hexclude hlines hfiles hpath
    rw [LeakReport.passesThrough, Path.relativeTo_join habsolute hnormal hne hnames,
      Path.splitOn_ofSegments hne hnames]
    simpa using hclean name hname
  have hresult : (checkLeaks disk settings limit clock root).result
      = .ok (LeakReport.ofFiles (disk.absolute root)
          (elapsedMillis clock.next.1 clock.next.2.next.1) files, clock.next.2.next.2) := by
    unfold checkLeaks
    dsimp only
    rw [enumerate_absolute hcwd, Outcome.andThen_of_ok hfiles]
    rfl
  have hcounts := And.intro (hcount "node_modules".toList (by decide))
    (And.intro (hcount "dist".toList (by decide))
      (And.intro (hcount "build".toList (by decide)) (hcount ".git".toList (by decide))))
  refine ⟨files, _, _, hfiles, hresult, rfl, hcounts, LeakReport.ok_iff.mpr hcounts, ?_⟩
  intro rel hnames hpath name hname
  obtain ⟨found, hfound, hfoundnames, heq, hclean⟩ :=
    LeakReport.not_mem_of_enumerate hdisk hexclude hlines hfiles hpath
  by_cases hrel : rel = []
  · simp [hrel]
  · rw [Path.join_ofSegments _ hrel hnames, Path.join_ofSegments _ hfound hfoundnames] at heq
    obtain rfl : rel = found :=
      Path.ofSegments_inj hrel hfound hnames hfoundnames (List.append_cancel_left heq)
    exact hclean name hname

/-- Installed packages with packages of their own, a build below the sources, a link into the
packages, and a directory whose name only resembles a watched one. -/
def packages : Disk where
  root := [("w".toList, .directory [
    ("node_modules".toList, .directory [("x.js".toList, .file []),
      ("x".toList, .directory [("node_modules".toList, .directory [("y.js".toList, .file [])])])]),
    ("src".toList, .directory [("build".toList, .directory [("z.js".toList, .file [])]),
      ("builder".toList, .directory [("a.js".toList, .file [])])]),
    ("vendor".toList, .link "node_modules".toList)])]

theorem checkLeaks_packages :
    packages.wellFormed = true ∧ Path.isAbsolute packages.cwd = true ∧
      ({} : Settings).exclude = [] ∧
      (∀ entries, packages.directory? (packages.absolute "/w".toList) = some entries →
        (Node.directory entries).singleLine = true) ∧
      ∃ files report later, (enumerate packages {} (some 10) "/w".toList).result = .ok files ∧
        (checkLeaks packages {} (some 10) ⟨[0]⟩ "/w".toList).result = .ok (report, later) ∧
        report.ok = true ∧ "/w/src/build/z.js".toList ∉ files := by
  have hlines : ∀ entries, packages.directory? (packages.absolute "/w".toList) = some entries →
      (Node.directory entries).singleLine = true := by
    intro entries hentries
    have hall : ((packages.directory? (packages.absolute "/w".toList)).all fun entries =>
        (Node.directory entries).singleLine) = true := by cbv
    rw [hentries] at hall
    exact hall
  have hdisk : packages.wellFormed = true := rfl
  have hexclude : ({} : Settings).exclude = [] := rfl
  obtain ⟨files, report, later, hfiles, hresult, -, -, hok, hclean⟩ :=
    checkLeaks_of_exclude_nil (some 10) ⟨[0]⟩ "/w".toList hdisk rfl hexclude hlines
  refine ⟨hdisk, rfl, hexclude, hlines, files, report, later, hfiles, hresult, hok, fun hpath => ?_⟩
  have hjoin : Path.join (packages.absolute "/w".toList)
      (Path.ofSegments ["src".toList, "build".toList, "z.js".toList])
      = "/w/src/build/z.js".toList := by decide +kernel
  rw [← hjoin] at hpath
  exact hclean _ (by decide) hpath "build".toList (by decide) (by decide)

end Marginalia
