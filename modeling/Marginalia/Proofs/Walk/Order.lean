/-
Marginalia.Proofs.Walk.Order — the order of a walk, and where a limit cuts it.

What a walk yields depends on what is under a root and not on the order in
which directories are listed, as every directory is put in order before it is
used. So the first files of a walk are the same ones each time, and a limit
takes as many of them as it allows.

* `Sooner` is the order in which a walk meets the files under a root, said of
  the names that lead to them: a directory's own files come before all that
  lies deeper, and of two directories everything in the one comes before
  anything in the other.
* `exists_eligible_inOrder` — the files of a walk are the eligible ones in this
  order. The induction is over the tree, with the names down to a node as
  context.
* `walk_of_reordered` — the walk of a disk whose directories are listed in
  another order is the same, notices included. A walk reads the disk through
  paths, and its tree; both are indifferent to the order of entries.
* `filter_notices_upTo` — the notice of a limit is there if a file is left, and
  then once. A walk has no such notice of its own.
-/
import Marginalia.Proofs.Disk.Reordered
import Marginalia.Proofs.Walk.Limit

namespace Marginalia

/-! ## 1. The order of files -/

/-- Whether a walk meets the file that the first names lead to sooner than that of the second. -/
inductive Sooner : List Text → List Text → Prop where
  /-- Files of one directory come in code point order. -/
  | file {a b : Text} : CodePointLt a b → Sooner [a] [b]
  /-- A file of a directory comes before all that lies in its directories. -/
  | above {a b : Text} {bs : List Text} : bs ≠ [] → Sooner [a] (b :: bs)
  /-- The directories of a directory come one after the other, in code point order. -/
  | beside {a b : Text} {as bs : List Text} : as ≠ [] → bs ≠ [] → CodePointLt a b →
      Sooner (a :: as) (b :: bs)
  /-- Within one directory its own order holds. -/
  | within {a : Text} {as bs : List Text} : Sooner as bs → Sooner (a :: as) (a :: bs)

theorem Sooner.ne_nil {a b : List Text} (h : Sooner a b) : a ≠ [] ∧ b ≠ [] := by
  cases h with
  | _ => exact ⟨List.cons_ne_nil _ _, List.cons_ne_nil _ _⟩

/-- Of two files one is met sooner at most, so there is one order for each set of files. -/
theorem Sooner.asymm {a b : List Text} (h : Sooner a b) : ¬Sooner b a := by
  induction h with
  | file hab =>
    intro h
    cases h with
    | file hba => exact hab.asymm hba
    | above hne => exact hne rfl
    | beside hne => exact hne rfl
    | within h => exact h.ne_nil.1 rfl
  | above hne =>
    intro h
    cases h with
    | file => exact hne rfl
    | above hnil => exact hnil rfl
    | beside _ hnil => exact hnil rfl
    | within h => exact h.ne_nil.2 rfl
  | beside has hbs hab =>
    intro h
    cases h with
    | file => exact has rfl
    | above => exact hbs rfl
    | beside _ _ hba => exact hab.asymm hba
    | within => exact hab.irrefl
  | within hab ih =>
    intro h
    cases h with
    | file => exact hab.ne_nil.1 rfl
    | above => exact hab.ne_nil.2 rfl
    | beside _ _ haa => exact haa.irrefl
    | within h => exact ih h

namespace Scope

variable {s : Scope} {trail : List Text}

/-- The names that lead to what a directory and the directories in it list, `here` and `deeper`
telling which entries count. -/
def listing (here deeper : Text × Node → Bool) (rels : Text × Node → List (List Text))
    (entries : Directory) : List (List Text) :=
  (inOrder (entries.filter here)).map (fun e => [e.1])
    ++ (inOrder (entries.filter deeper)).flatMap fun e => (rels e).map (e.1 :: ·)

section

variable {here deeper : Text × Node → Bool} {rels : Text × Node → List (List Text)}
  {entries : Directory}

theorem mem_listing {rel : List Text} : rel ∈ listing here deeper rels entries ↔
    (∃ e ∈ entries, here e = true ∧ rel = [e.1]) ∨
      ∃ e ∈ entries, deeper e = true ∧ ∃ rest, rest ∈ rels e ∧ rel = e.1 :: rest := by
  simp only [listing, List.mem_append, List.mem_map, List.mem_flatMap, (inOrder_perm _).mem_iff,
    List.mem_filter, and_assoc, eq_comm (a := rel)]

/-- A listing is in order if the listings of the directories in it are. -/
theorem pairwise_listing (hnodup : (entries.map (·.1)).Nodup)
    (hne : ∀ e ∈ entries, ∀ rel ∈ rels e, rel ≠ [])
    (hsorted : ∀ e ∈ entries, (rels e).Pairwise Sooner) :
    (listing here deeper rels entries).Pairwise Sooner := by
  have hinOrder : ∀ p : Text × Node → Bool,
      (inOrder (entries.filter p)).Pairwise fun a b => CodePointLt a.1 b.1 :=
    fun p => pairwise_inOrder (hnodup.sublist (List.filter_sublist.map _))
  have hentry : ∀ {p : Text × Node → Bool} {e : Text × Node}, e ∈ inOrder (entries.filter p) →
      e ∈ entries := fun he => List.mem_of_mem_filter ((inOrder_perm _).mem_iff.mp he)
  refine List.pairwise_append.mpr ⟨?own, List.pairwise_flatMap.mpr ⟨?within, ?beside⟩, ?above⟩
  case own => exact List.pairwise_map.mpr ((hinOrder here).imp .file)
  case within =>
    exact fun e he => List.pairwise_map.mpr ((hsorted e (hentry he)).imp .within)
  case beside =>
    refine (hinOrder deeper).imp_of_mem fun {a b} ha hb hab x hx y hy => ?_
    obtain ⟨as, has, rfl⟩ := List.mem_map.mp hx
    obtain ⟨bs, hbs, rfl⟩ := List.mem_map.mp hy
    exact .beside (hne a (hentry ha) as has) (hne b (hentry hb) bs hbs) hab
  case above =>
    intro x hx y hy
    obtain ⟨a, -, rfl⟩ := List.mem_map.mp hx
    obtain ⟨b, hb, hy⟩ := List.mem_flatMap.mp hy
    obtain ⟨bs, hbs, rfl⟩ := List.mem_map.mp hy
    exact .above (hne b (hentry hb) bs hbs)

end

/-- A walk that finds nothing is right if nothing is eligible. -/
theorem exists_eligible_of_nil {node : Node} (hfiles : Visit.files (s.visits trail node) = [])
    (hnone : ∀ rel, ¬s.Eligible trail node rel) : ∃ rels : List (List Text),
      Visit.files (s.visits trail node) = rels.map (fun rel => s.pathOf (trail ++ rel)) ∧
      rels.Pairwise Sooner ∧ ∀ rel, rel ∈ rels ↔ s.Eligible trail node rel :=
  ⟨[], hfiles, .nil, fun rel => ⟨fun h => absurd h List.not_mem_nil, fun h => (hnone rel h).elim⟩⟩

/-- The files of a walk are those of the eligible names, in order. -/
theorem exists_eligible_inOrder (s : Scope) (trail : List Text) {node : Node}
    (hwf : node.wellFormed = true) :
    ∃ rels : List (List Text),
      Visit.files (s.visits trail node) = rels.map (fun rel => s.pathOf (trail ++ rel)) ∧
      rels.Pairwise Sooner ∧ ∀ rel, rel ∈ rels ↔ s.Eligible trail node rel := by
  induction node using Node.induct generalizing trail with
  | file content =>
    refine exists_eligible_of_nil rfl fun rel h => ?_
    obtain ⟨entries, hreal⟩ := h.passes_nil.real
    cases hreal
  | link target =>
    refine exists_eligible_of_nil rfl fun rel h => ?_
    obtain ⟨entries, hreal⟩ := h.passes_nil.real
    cases hreal
  | directory entries ih =>
    obtain ⟨hnodup, hentries⟩ := Node.wellFormed_directory.mp hwf
    cases hlist : s.disk.listError? (s.pathOf trail) with
    | some e =>
      refine exists_eligible_of_nil (files_visits_of_listError hlist) fun rel h => ?_
      have hlistable := ((eligible_directory hnodup).mp h).1
      rw [hlist] at hlistable
      cases hlistable
    | none =>
      have hbelow : ∀ e ∈ entries, ∃ rels : List (List Text),
          Visit.files (s.visits (trail ++ [e.1]) e.2)
            = rels.map (fun rel => s.pathOf (trail ++ [e.1] ++ rel)) ∧
          rels.Pairwise Sooner ∧ ∀ rel, rel ∈ rels ↔ s.Eligible (trail ++ [e.1]) e.2 rel :=
        fun e he => ih e he _ (hentries e he).2
      choose! rels hfiles hsorted hmem using hbelow
      refine ⟨listing (s.isEligible trail) (fun e => !s.prunes (trail ++ [e.1])) rels entries,
        ?_, pairwise_listing hnodup (fun e he rel hrel => ?_) hsorted, fun rel => ?_⟩
      · rw [files_visits_eq hlist, listing, List.map_append, List.map_map, List.map_flatMap,
          List.flatMap_def, List.flatMap_def]
        congr 2
        refine List.map_congr_left fun e he => ?_
        rw [hfiles e (List.mem_of_mem_filter ((inOrder_perm _).mem_iff.mp he)), List.map_map]
        simp only [Function.comp_def, List.append_assoc, List.singleton_append]
      · exact ((hmem e he rel).mp hrel).ne_nil
      · rw [mem_listing, eligible_directory hnodup]
        simp only [hlist, true_and, Bool.not_eq_true']
        refine or_congr_right (exists_congr fun e => and_congr_right fun he => ?_)
        simp only [hmem e he]

end Scope

/-! ## 2. The order of entries -/

/-- Whether two scopes ask for the same, of disks that answer alike. -/
structure Scope.Alike (s s' : Scope) : Prop where
  root_eq : s'.root = s.root
  rules_eq : s'.rules = s.rules
  extensions_eq : s'.extensions = s.extensions
  isDirectory_eq : ∀ path, s'.disk.isDirectory path = s.disk.isDirectory path
  listError?_eq : ∀ path, s'.disk.listError? path = s.disk.listError? path

namespace Scope

variable {s s' : Scope}

theorem Alike.pathOf_eq (h : s.Alike s') (trail : List Text) :
    s'.pathOf trail = s.pathOf trail := by
  rw [pathOf, pathOf, h.root_eq]

theorem Alike.prunes_eq (h : s.Alike s') (trail : List Text) :
    s'.prunes trail = s.prunes trail := by
  rw [prunes, prunes, h.rules_eq]

theorem Alike.admits_eq (h : s.Alike s') (trail : List Text) (name : Text) :
    s'.admits trail name = s.admits trail name := by
  rw [admits, admits, h.rules_eq, h.extensions_eq]

theorem Alike.isDirectory (h : s.Alike s') (trail : List Text) (node : Node) :
    s'.isDirectory trail node = s.isDirectory trail node := by
  cases node with
  | file => rfl
  | directory => rfl
  | link => rw [Scope.isDirectory, Scope.isDirectory, h.pathOf_eq, h.isDirectory_eq]

/-- A walk asks its disk through paths only. -/
theorem Alike.visits_eq (h : s.Alike s') (trail : List Text) (node : Node) :
    s'.visits trail node = s.visits trail node := by
  induction node using Node.induct generalizing trail with
  | file => rfl
  | link => rfl
  | directory entries ih =>
    have hbelow : s'.below trail entries = s.below trail entries := by
      simp only [below_eq, h.prunes_eq]
      refine List.map_congr_left fun e he => ?_
      rw [ih e (List.mem_of_mem_filter he)]
    simp only [visits, prunedIn, filesIn, h.pathOf_eq, h.listError?_eq, h.prunes_eq, h.admits_eq,
      h.isDirectory, hbelow]

variable {trail : List Text}

/-- What is listed of entries by name depends on the names only. -/
theorem map_inOrder_congr {α β : Type} (g : Text → β) {entries entries' : List (Text × α)}
    (h : entries'.map (·.1) = entries.map (·.1)) :
    (inOrder entries').map (fun e => g e.1) = (inOrder entries).map fun e => g e.1 := by
  have hnames : ∀ entries : List (Text × α), (inOrder entries).map (fun e => g e.1)
      = (inOrder ((entries.map (·.1)).map fun name => (name, ()))).map fun e => g e.1 := by
    intro entries
    rw [List.map_map, Function.comp_def, inOrder_map (fun _ => ()) entries, List.map_map]
    rfl
  rw [hnames, hnames, h]

/-- Putting the entries of directories in another order changes nothing in a walk. -/
theorem visits_eq_of_reordered {node node' : Node} (h : node.Reordered node')
    (hwf : node.wellFormed = true) : s.visits trail node' = s.visits trail node := by
  induction h generalizing trail with
  | refl => rfl
  | @here a b hperm =>
    have hnodup := (Node.wellFormed_directory.mp hwf).1
    have hinOrder : ∀ p : Text × Node → Bool, inOrder (b.filter p) = inOrder (a.filter p) :=
      fun p => (inOrder_eq_of_perm (hnodup.sublist (List.filter_sublist.map _))
        (hperm.filter p)).symm
    have hbelow : inOrder (s.below trail b) = inOrder (s.below trail a) := by
      rw [below_eq, below_eq, inOrder_map, inOrder_map, hinOrder]
    simp only [visits, prunedIn, filesIn, hinOrder, hbelow]
  | @entry before after name node node' hnode ih =>
    have hentry := (Node.wellFormed_directory.mp hwf).2 (name, node) (by simp)
    have hdirectory : s.isDirectory (trail ++ [name]) node'
        = s.isDirectory (trail ++ [name]) node := by
      rcases hnode.eq_or_directory with rfl | ⟨_, _, rfl, rfl⟩
      · rfl
      · rfl
    have hbelow : s.below trail (before ++ (name, node') :: after)
        = s.below trail (before ++ (name, node) :: after) := by
      simp only [below_eq, List.filter_append, List.filter_cons, List.map_append]
      split
      next => rw [List.map_cons, List.map_cons, ih hentry.2]
      next => rfl
    have hnames : ∀ p : Text × Node → Bool, p (name, node') = p (name, node) →
        ((before ++ (name, node') :: after).filter p).map (·.1)
          = ((before ++ (name, node) :: after).filter p).map (·.1) := by
      intro p hp
      simp only [List.filter_append, List.filter_cons, List.map_append, hp]
      split
      next => rfl
      next => rfl
    have hpruned : s.prunedIn trail (before ++ (name, node') :: after)
        = s.prunedIn trail (before ++ (name, node) :: after) :=
      map_inOrder_congr (fun name => Visit.note (.pruned (s.pathOf (trail ++ [name]))))
        (hnames _ (by simp only [hdirectory]))
    have hfiles : s.filesIn trail (before ++ (name, node') :: after)
        = s.filesIn trail (before ++ (name, node) :: after) :=
      map_inOrder_congr (fun name => Visit.file (s.pathOf (trail ++ [name])))
        (hnames _ (by simp only [hdirectory]))
    simp only [visits, hpruned, hfiles, hbelow]
  | trans hab _ ih ih' => rw [ih' (hab.wellFormed_eq ▸ hwf), ih hwf]

end Scope

/-- The walk of a root does not depend on the order in which directories are listed, with or without
a limit. -/
theorem walk_of_reordered {disk disk' : Disk} (hdisk : disk.wellFormed = true)
    (h : disk.Reordered disk') (settings : Settings) (limit : Option Int) (root : Text) :
    walk disk' settings limit root = walk disk settings limit root := by
  have hrel : Option.Rel (fun a b => Node.Reordered (.directory a) (.directory b))
      (disk.directory? (disk.absolute root)) (disk'.directory? (disk'.absolute root)) := by
    rw [h.absolute_eq]
    exact h.directory?_rel hdisk _
  cases hroot : disk.directory? (disk.absolute root) with
  | none =>
    rw [walk_of_not_directory hroot, walk_of_not_directory (eq_none_of_rel hrel hroot),
      h.absolute_eq]
  | some entries =>
    obtain ⟨entries', hroot', hentries⟩ := exists_of_rel hrel hroot
    cases hrules : settings.excludeRules with
    | error e => rw [walk_of_pattern_error hroot hrules, walk_of_pattern_error hroot' hrules]
    | ok rules =>
      have halike : (Scope.under disk settings rules root).Alike
          (Scope.under disk' settings rules root) :=
        ⟨h.absolute_eq root, rfl, rfl, h.isDirectory_eq hdisk, h.listError?_eq hdisk⟩
      rw [walk_of_directory hroot hrules, walk_of_directory hroot' hrules, h.absolute_eq,
        halike.visits_eq,
        Scope.visits_eq_of_reordered hentries (Disk.wellFormed_of_directory? hdisk hroot)]

theorem enumerate_of_reordered {disk disk' : Disk} (hdisk : disk.wellFormed = true)
    (h : disk.Reordered disk') (settings : Settings) (limit : Option Int) (root : Text) :
    enumerate disk' settings limit root = enumerate disk settings limit root := by
  rw [enumerate, enumerate, walk_of_reordered hdisk h]

/-! ## 3. Roots -/

theorem enumerate_of_not_directory {disk : Disk} {root : Text}
    (hroot : disk.directory? (disk.absolute root) = none) (settings : Settings)
    (limit : Option Int) :
    enumerate disk settings limit root = ⟨[.notDirectory (disk.absolute root)], .ok []⟩ := by
  rw [enumerate, walk_of_not_directory hroot]
  rfl

theorem enumerate_of_directory {disk : Disk} {settings : Settings} {root : Text}
    {rules : List Ignore.Rule} {entries : Directory}
    (hroot : disk.directory? (disk.absolute root) = some entries)
    (hrules : settings.excludeRules = .ok rules) (limit : Option Int) :
    enumerate disk settings limit root
      = let visits := Visit.limited limit (disk.absolute root)
          ((Scope.under disk settings rules root).visits [] (.directory entries))
        ⟨Visit.notices visits, .ok (Visit.files visits)⟩ := by
  rw [enumerate, walk_of_directory hroot hrules]

/-- **A walk yields the eligible files in one order, and a limit takes the first of them.** In
whatever order the directories of a disk are listed, the files are the same, in the same order: a
directory's own before those deeper down, and each in code point order. A limit leaves as many of
them as it allows, and is reported, once, if a file is left out. -/
theorem enumerate_inOrder {disk : Disk} {settings : Settings} {rules : List Ignore.Rule}
    (root : Text) (hdisk : disk.wellFormed = true) (hrules : settings.excludeRules = .ok rules) :
    ∃ (rels : List (List Text)) (files : List Text),
      rels.Pairwise Sooner ∧
      (∀ rel, rel ∈ rels ↔ ∃ entries, disk.directory? (disk.absolute root) = some entries ∧
        (Scope.under disk settings rules root).Eligible [] (.directory entries) rel) ∧
      files = rels.map (fun rel => Path.join (disk.absolute root) (Path.ofSegments rel)) ∧
      ∀ disk', disk.Reordered disk' →
        (enumerate disk' settings none root).result = .ok files ∧
        ∀ limit : Int,
          (enumerate disk' settings (some limit) root).result
            = .ok (files.take (max limit 0).toNat) ∧
          (enumerate disk' settings (some limit) root).notices.filter Notice.isLimitReached
            = if max limit 0 < files.length then [.limitReached limit (disk.absolute root)]
              else [] := by
  cases hroot : disk.directory? (disk.absolute root) with
  | none =>
    refine ⟨[], [], .nil, by simp, rfl, fun disk' h => ?_⟩
    simp only [enumerate_of_reordered hdisk h, enumerate_of_not_directory hroot, List.take_nil]
    refine ⟨trivial, fun limit => ⟨trivial, ?_⟩⟩
    rw [if_neg (by simp)]
    rfl
  | some entries =>
    have hwf := Disk.wellFormed_of_directory? hdisk hroot
    obtain ⟨rels, hfiles, hsorted, hmem⟩ :=
      (Scope.under disk settings rules root).exists_eligible_inOrder [] hwf
    refine ⟨rels, _, hsorted, fun rel => ?_, rfl, fun disk' h => ?_⟩
    · simp [hmem]
    have hpaths : Visit.files ((Scope.under disk settings rules root).visits []
        (.directory entries))
        = rels.map fun rel => Path.join (disk.absolute root) (Path.ofSegments rel) := by
      rw [hfiles]
      refine List.map_congr_left fun rel hrel => ?_
      have heligible := (hmem rel).mp hrel
      exact Scope.pathOf_eq_join heligible.ne_nil (heligible.isName hwf)
    have hallowed : ∀ limit : Int, limit.toNat = (max limit 0).toNat := fun limit => by omega
    simp only [enumerate_of_reordered hdisk h, enumerate_of_directory hroot hrules]
    refine ⟨congrArg Except.ok hpaths, fun limit => ⟨?_, ?_⟩⟩
    · rw [Visit.files_limited, hpaths, ← hallowed]
    · rw [Visit.limited, Visit.filter_notices_upTo fun n => Scope.not_isLimitReached_of_visits,
        hpaths]
      refine if_congr ?_ rfl rfl
      omega

/-- The directories of `checkout`, listed in another order. -/
def checkoutRelisted : Disk where
  root := [("w".toList, .directory [
    ("locked".toList, .directory [("e.py".toList, .file [])]),
    ("gone.py".toList, .link "nowhere".toList),
    ("also".toList, .link "lib".toList),
    ("build".toList, .directory [("d.py".toList, .file [])]),
    ("a.py".toList, .file []),
    ("lib".toList, .directory [("c.txt".toList, .file []), ("b.py".toList, .file [])])])]
  denied := ["/w/locked".toList]

theorem reordered_checkoutRelisted : checkout.Reordered checkoutRelisted := by
  refine ⟨?_, rfl, rfl⟩
  show Node.Reordered (.directory ([] ++ ("w".toList, _) :: []))
    (.directory ([] ++ ("w".toList, _) :: []))
  have hlib : Node.Reordered
      (.directory [("b.py".toList, .file []), ("c.txt".toList, .file [])])
      (.directory [("c.txt".toList, .file []), ("b.py".toList, .file [])]) :=
    .here (.swap _ _ [])
  exact .entry (.trans (.here (List.reverse_perm _).symm)
    (@Node.Reordered.entry [("locked".toList, _), ("gone.py".toList, _), ("also".toList, _),
      ("build".toList, _), ("a.py".toList, _)] [] "lib".toList _ _ hlib))

/-- Two of the three files, and the notice. -/
theorem enumerate_checkoutRelisted :
    checkout.wellFormed = true ∧ pythonSettings.excludeRules = .ok buildRules ∧
      checkout.Reordered checkoutRelisted ∧
      (enumerate checkoutRelisted pythonSettings (some 2) "/w".toList).result
        = .ok ["/w/a.py".toList, "/w/gone.py".toList] ∧
      (enumerate checkoutRelisted pythonSettings (some 2) "/w".toList).notices.filter
        Notice.isLimitReached = [.limitReached 2 "/w".toList] := by
  have hdisk : checkout.wellFormed = true := rfl
  have hrules : pythonSettings.excludeRules = .ok buildRules := by decide +kernel
  obtain ⟨rels, files, -, -, -, hwalks⟩ := enumerate_inOrder "/w".toList hdisk hrules
  obtain ⟨hall, -⟩ := hwalks checkout ⟨.refl _, rfl, rfl⟩
  have hresult : (enumerate checkout pythonSettings none "/w".toList).result
      = .ok ["/w/a.py".toList, "/w/gone.py".toList, "/w/lib/b.py".toList] := by cbv
  obtain rfl := Except.ok.inj (hall.symm.trans hresult)
  obtain ⟨hfiles, hnotices⟩ := (hwalks checkoutRelisted reordered_checkoutRelisted).2 2
  have hroot : checkout.absolute "/w".toList = "/w".toList := by cbv
  rw [hroot, if_pos (by simp)] at hnotices
  rw [show (max (2 : Int) 0).toNat = 2 from rfl] at hfiles
  exact ⟨hdisk, hrules, reordered_checkoutRelisted, hfiles, hnotices⟩

end Marginalia
