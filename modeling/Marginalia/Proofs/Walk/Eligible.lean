/-
Marginalia.Proofs.Walk.Eligible — a walk finds exactly the eligible files.

`Scope.Eligible` says without a walk which names lead to an eligible file:
the walk may pass through every directory on the way (`Scope.Passes`), and the
entry at the end is no directory, has one of the extensions and is not
excluded.

* `files_visits_perm` takes one step of a walk: the files of a directory are
  its own and those below the entries that no rule leaves out, in some order.
* `mem_files_visits` and `nodup_files_visits` follow by induction over the
  tree, with the names down to the node as context.
* Files below different entries differ because different trails have
  different paths; this is where the tree has to be well formed.
-/
import Mathlib
import Marginalia.Proofs.Text.Order
import Marginalia.Proofs.Walk.Trail

namespace Marginalia

/-! ## 1. Eligible files -/

theorem Settings.acceptsName_iff {extensions : List Text} {name : Text} :
    Settings.acceptsName extensions name = true ↔
      extensions = [] ∨ ∃ e ∈ extensions, ('.' :: e) <:+ name := by
  simp [acceptsName]

namespace Scope

/-- Whether a walk passes through what the names `dir` lead to from the node under a trail: a real
directory, not a link to one, that can be listed and that no rule leaves out. -/
structure Passes (s : Scope) (trail : List Text) (node : Node) (dir : List Text) : Prop where
  real : ∃ entries, node.at? dir = some (.directory entries)
  listable : s.disk.listError? (s.pathOf (trail ++ dir)) = none
  kept : dir ≠ [] →
    Ignore.excludes s.rules (Path.ofSegments (trail ++ dir) ++ ['/']) = false

/-- Whether the names `rel` lead from the node under a trail to an eligible file. -/
structure Eligible (s : Scope) (trail : List Text) (node : Node) (rel : List Text) : Prop where
  passes : ∀ dir, dir <+: rel → dir ≠ rel → s.Passes trail node dir
  present : ∃ leaf, node.at? rel = some leaf ∧ s.isDirectory (trail ++ rel) leaf = false
  named : ∃ name, rel.getLast? = some name ∧
    (s.extensions = [] ∨ ∃ e ∈ s.extensions, ('.' :: e) <:+ name)
  kept : Ignore.excludes s.rules (Path.ofSegments (trail ++ rel)) = false

variable {s : Scope} {trail : List Text}

theorem Eligible.ne_nil {node : Node} {rel : List Text} (h : s.Eligible trail node rel) :
    rel ≠ [] := by
  rintro rfl
  obtain ⟨name, hname, -⟩ := h.named
  cases hname

/-- The walk starts in a directory that can be listed. -/
theorem Eligible.passes_nil {node : Node} {rel : List Text} (h : s.Eligible trail node rel) :
    s.Passes trail node [] :=
  h.passes [] List.nil_prefix h.ne_nil.symm

theorem eligible_singleton {entries : Directory} {name : Text} :
    s.Eligible trail (.directory entries) [name] ↔
      s.disk.listError? (s.pathOf trail) = none ∧ ∃ leaf, entries.lookup name = some leaf ∧
        s.isDirectory (trail ++ [name]) leaf = false ∧ s.admits (trail ++ [name]) name = true := by
  constructor
  · intro h
    obtain ⟨leaf, hleaf, hfile⟩ := h.present
    obtain ⟨last, hlast, hext⟩ := h.named
    obtain rfl : name = last := by simpa using hlast
    rw [Node.at?_singleton] at hleaf
    refine ⟨by simpa using h.passes_nil.listable, leaf, hleaf, hfile, ?_⟩
    simp [admits, Settings.acceptsName_iff.mpr hext, h.kept]
  · rintro ⟨hlist, leaf, hleaf, hfile, hadmits⟩
    simp only [admits, Bool.and_eq_true, Bool.not_eq_true'] at hadmits
    obtain ⟨hext, hkept⟩ := hadmits
    refine ⟨fun dir hpre hne => ?_, ⟨leaf, by rwa [Node.at?_singleton], hfile⟩,
      ⟨name, rfl, Settings.acceptsName_iff.mp hext⟩, hkept⟩
    obtain rfl : dir = [] := by
      rcases List.prefix_concat_iff.mp (by simpa using hpre : dir <+: [] ++ [name]) with h | h
      · exact absurd h hne
      · exact List.prefix_nil.mp h
    exact ⟨⟨entries, Node.at?_nil _⟩, by simpa using hlist, fun h => absurd rfl h⟩

/-- The first name of several leads to a directory that the walk passes through; the others lead
to an eligible file from there. -/
theorem eligible_cons {entries : Directory} {name : Text} {rest : List Text} (hrest : rest ≠ []) :
    s.Eligible trail (.directory entries) (name :: rest) ↔
      s.disk.listError? (s.pathOf trail) = none ∧ ∃ node, entries.lookup name = some node ∧
        s.prunes (trail ++ [name]) = false ∧ s.Eligible (trail ++ [name]) node rest := by
  have htrail : ∀ names, trail ++ name :: names = trail ++ [name] ++ names := by simp
  constructor
  · intro h
    -- the walk passes through the entry, so there is a directory under the name
    have hfirst := h.passes [name] (by simp) (by simpa using hrest.symm)
    obtain ⟨below, hbelow⟩ := hfirst.real
    rw [Node.at?_singleton] at hbelow
    have hat := Node.at?_cons_of_lookup hbelow
    refine ⟨by simpa using h.passes_nil.listable, _, hbelow, hfirst.kept (List.cons_ne_nil _ _),
      fun dir hpre hne => ?_, ?_, ?_, ?_⟩
    · have hdir := h.passes (name :: dir) (by simpa using hpre) (by simpa using hne)
      refine ⟨?_, ?_, fun _ => ?_⟩
      · simpa only [hat] using hdir.real
      · rw [← htrail]; exact hdir.listable
      · rw [← htrail]; exact hdir.kept (List.cons_ne_nil _ _)
    · obtain ⟨leaf, hleaf, hfile⟩ := h.present
      exact ⟨leaf, by rw [← hat]; exact hleaf, by rw [← htrail]; exact hfile⟩
    · obtain ⟨last, hlast, hext⟩ := h.named
      exact ⟨last, by rwa [List.getLast?_cons_of_ne_nil hrest] at hlast, hext⟩
    · rw [← htrail]; exact h.kept
  · rintro ⟨hlist, node, hnode, hkept, h⟩
    have hat := Node.at?_cons_of_lookup hnode
    refine ⟨fun dir hpre hne => ?_, ?_, ?_, ?_⟩
    · cases dir with
      | nil => exact ⟨⟨entries, Node.at?_nil _⟩, by simpa using hlist, fun h => absurd rfl h⟩
      | cons first dir =>
        obtain ⟨rfl, hbelow⟩ := List.cons_prefix_cons.mp hpre
        have hdir := h.passes dir hbelow (by simpa using hne)
        refine ⟨by simpa only [hat] using hdir.real, by rw [htrail]; exact hdir.listable,
          fun _ => ?_⟩
        -- that the entry itself is kept is not asked of a walk that starts there
        cases dir with
        | nil => exact hkept
        | cons second dir => rw [htrail]; exact hdir.kept (List.cons_ne_nil _ _)
    · obtain ⟨leaf, hleaf, hfile⟩ := h.present
      exact ⟨leaf, by rw [hat]; exact hleaf, by rw [htrail]; exact hfile⟩
    · obtain ⟨last, hlast, hext⟩ := h.named
      exact ⟨last, by rwa [List.getLast?_cons_of_ne_nil hrest], hext⟩
    · rw [htrail]; exact h.kept

end Scope

/-! ## 2. One directory -/

namespace Visit

theorem files_append (a b : List Visit) : files (a ++ b) = files a ++ files b :=
  List.filterMap_append

theorem files_map_file {α : Type} (f : α → Text) (l : List α) :
    files (l.map fun x => .file (f x)) = l.map f := by
  induction l with
  | nil => rfl
  | cons x rest ih => exact congrArg (f x :: ·) ih

theorem files_map_note {α : Type} (f : α → Notice) (l : List α) :
    files (l.map fun x => .note (f x)) = [] := by
  induction l with
  | nil => rfl
  | cons x rest ih => exact ih

theorem files_flatMap {α : Type} (f : α → List Visit) (l : List α) :
    files (l.flatMap f) = l.flatMap fun x => files (f x) := by
  induction l with
  | nil => rfl
  | cons x rest ih => rw [List.flatMap_cons, files_append, ih, List.flatMap_cons]

end Visit

namespace Scope

variable {s : Scope} {trail : List Text}

/-- Putting values in order neither loses nor adds one. -/
theorem inOrder_perm {α : Type} (entries : List (Text × α)) : (inOrder entries).Perm entries :=
  List.mergeSort_perm entries _

/-- The order depends on the names only. -/
theorem inOrder_map {α β : Type} (f : Text × α → β) (entries : List (Text × α)) :
    inOrder (entries.map fun e => (e.1, f e)) = (inOrder entries).map fun e => (e.1, f e) := by
  unfold inOrder
  symm
  apply List.map_mergeSort
  intro a _ b _
  rfl

theorem pairwise_inOrder {α : Type} {entries : List (Text × α)} (h : (entries.map (·.1)).Nodup) :
    (inOrder entries).Pairwise fun a b => CodePointLt a.1 b.1 :=
  pairwise_mergeSort_codePointLt Prod.fst h

/-- Values under distinct names come in one order, however they are stored. -/
theorem inOrder_eq_of_perm {α : Type} {entries entries' : List (Text × α)}
    (h : (entries.map (·.1)).Nodup) (hperm : entries.Perm entries') :
    inOrder entries = inOrder entries' := by
  refine eq_of_pairwise_codePointLt Prod.fst (pairwise_inOrder h)
    (pairwise_inOrder ((hperm.map _).nodup_iff.mp h)) fun e => ?_
  rw [(inOrder_perm _).mem_iff, (inOrder_perm _).mem_iff, hperm.mem_iff]

/-- Putting in order and leaving out may be exchanged. -/
theorem filter_inOrder {α : Type} {entries : List (Text × α)} (h : (entries.map (·.1)).Nodup)
    (p : Text × α → Bool) : (inOrder entries).filter p = inOrder (entries.filter p) := by
  have hkept : ((entries.filter p).map (·.1)).Nodup := h.sublist (List.filter_sublist.map _)
  refine eq_of_pairwise_codePointLt Prod.fst ((pairwise_inOrder h).filter p)
    (pairwise_inOrder hkept) fun e => ?_
  rw [List.mem_filter, (inOrder_perm _).mem_iff, (inOrder_perm _).mem_iff, List.mem_filter]

theorem below_eq (s : Scope) (trail : List Text) : ∀ entries : Directory,
    s.below trail entries
      = (entries.filter fun e => !s.prunes (trail ++ [e.1])).map fun e =>
          (e.1, s.visits (trail ++ [e.1]) e.2)
  | [] => rfl
  | (name, node) :: rest => by
      rw [below, below_eq s trail rest]
      cases hp : s.prunes (trail ++ [name]) with
      | true => simp [hp]
      | false => simp [hp]

/-- Whether an entry of a directory is an eligible file. -/
def isEligible (s : Scope) (trail : List Text) (e : Text × Node) : Bool :=
  !s.isDirectory (trail ++ [e.1]) e.2 && s.admits (trail ++ [e.1]) e.1

/-- The eligible files of a directory that can be listed: its own, and those below the entries that
no rule leaves out. -/
theorem eligible_directory {entries : Directory} (hnodup : (entries.map (·.1)).Nodup)
    {rel : List Text} : s.Eligible trail (.directory entries) rel ↔
      s.disk.listError? (s.pathOf trail) = none ∧
        ((∃ e ∈ entries, s.isEligible trail e = true ∧ rel = [e.1]) ∨
          ∃ e ∈ entries, s.prunes (trail ++ [e.1]) = false ∧
            ∃ rest, s.Eligible (trail ++ [e.1]) e.2 rest ∧ rel = e.1 :: rest) := by
  constructor
  · intro h
    obtain ⟨name, rest, rfl⟩ := List.exists_cons_of_ne_nil h.ne_nil
    by_cases hrest : rest = []
    · subst hrest
      obtain ⟨hlist, leaf, hleaf, heligible⟩ := eligible_singleton.mp h
      refine ⟨hlist, .inl ⟨(name, leaf), Node.mem_of_lookup hleaf, ?_, rfl⟩⟩
      simpa [isEligible] using heligible
    · obtain ⟨hlist, node, hnode, hkept, hbelow⟩ := (eligible_cons hrest).mp h
      exact ⟨hlist, .inr ⟨(name, node), Node.mem_of_lookup hnode, hkept, rest, hbelow, rfl⟩⟩
  · rintro ⟨hlist, ⟨⟨name, leaf⟩, he, heligible, rfl⟩ | ⟨⟨name, node⟩, he, hkept, rest, hrest, rfl⟩⟩
    · simp only [isEligible, Bool.and_eq_true, Bool.not_eq_true'] at heligible
      exact eligible_singleton.mpr
        ⟨hlist, leaf, (Node.lookup_eq_some_iff hnodup).mpr he, heligible⟩
    · exact (eligible_cons hrest.ne_nil).mpr
        ⟨hlist, node, (Node.lookup_eq_some_iff hnodup).mpr he, hkept, hrest⟩

/-- The files of a directory that can be listed: its own, then those below the entries that no rule
leaves out. -/
theorem files_visits_eq {entries : Directory} (hlist : s.disk.listError? (s.pathOf trail) = none) :
    Visit.files (s.visits trail (.directory entries))
      = (inOrder (entries.filter (s.isEligible trail))).map (fun e => s.pathOf (trail ++ [e.1]))
        ++ (inOrder (entries.filter fun e => !s.prunes (trail ++ [e.1]))).flatMap fun e =>
            Visit.files (s.visits (trail ++ [e.1]) e.2) := by
  have hhere : Visit.files (s.filesIn trail entries)
      = (inOrder (entries.filter (s.isEligible trail))).map
          fun e => s.pathOf (trail ++ [e.1]) := Visit.files_map_file _ _
  have hpruned : Visit.files (s.prunedIn trail entries) = [] := Visit.files_map_note _ _
  rw [visits, hlist, Visit.files_append, Visit.files_append, hpruned, hhere, List.nil_append,
    Visit.files_flatMap, below_eq, inOrder_map, List.flatMap_map]

theorem files_visits_perm {entries : Directory}
    (hlist : s.disk.listError? (s.pathOf trail) = none) :
    (Visit.files (s.visits trail (.directory entries))).Perm
      ((entries.filter (s.isEligible trail)).map (fun e => s.pathOf (trail ++ [e.1]))
        ++ (entries.filter fun e => !s.prunes (trail ++ [e.1])).flatMap fun e =>
            Visit.files (s.visits (trail ++ [e.1]) e.2)) := by
  rw [files_visits_eq hlist]
  exact List.Perm.append ((inOrder_perm _).map _) ((inOrder_perm _).flatMap_right _)

theorem files_visits_of_listError {entries : Directory} {e : DiskError}
    (hlist : s.disk.listError? (s.pathOf trail) = some e) :
    Visit.files (s.visits trail (.directory entries)) = [] := by
  rw [visits, hlist]
  rfl

theorem mem_files_visits_directory {entries : Directory} {path : Text} :
    path ∈ Visit.files (s.visits trail (.directory entries)) ↔
      s.disk.listError? (s.pathOf trail) = none ∧
        ((∃ e ∈ entries, s.isEligible trail e = true ∧ path = s.pathOf (trail ++ [e.1])) ∨
          ∃ e ∈ entries, s.prunes (trail ++ [e.1]) = false ∧
            path ∈ Visit.files (s.visits (trail ++ [e.1]) e.2)) := by
  cases hlist : s.disk.listError? (s.pathOf trail) with
  | some e => simp [files_visits_of_listError hlist]
  | none =>
    rw [(files_visits_perm hlist).mem_iff, List.mem_append, List.mem_map, List.mem_flatMap]
    simp only [List.mem_filter, Bool.not_eq_true', true_and, and_assoc, eq_comm (a := path)]

/-! ## 3. Whole trees -/

theorem Eligible.isName {node : Node} {rel : List Text} (hwf : node.wellFormed = true)
    (h : s.Eligible trail node rel) : ∀ name ∈ rel, isName name = true := by
  obtain ⟨leaf, hleaf, -⟩ := h.present
  exact Node.isName_of_at? hwf hleaf

/-- The files of a walk are the paths of the eligible files below its node. -/
theorem mem_files_visits {node : Node} (hwf : node.wellFormed = true) {path : Text} :
    path ∈ Visit.files (s.visits trail node) ↔
      ∃ rel, s.Eligible trail node rel ∧ path = s.pathOf (trail ++ rel) := by
  induction node using Node.induct generalizing trail with
  | file content =>
    refine ⟨fun h => absurd h List.not_mem_nil, ?_⟩
    rintro ⟨rel, hrel, -⟩
    obtain ⟨entries, hreal⟩ := hrel.passes_nil.real
    cases hreal
  | link target =>
    refine ⟨fun h => absurd h List.not_mem_nil, ?_⟩
    rintro ⟨rel, hrel, -⟩
    obtain ⟨entries, hreal⟩ := hrel.passes_nil.real
    cases hreal
  | directory entries ih =>
    obtain ⟨hnodup, hentries⟩ := Node.wellFormed_directory.mp hwf
    rw [mem_files_visits_directory]
    constructor
    · rintro ⟨hlist, ⟨e, he, heligible, rfl⟩ | ⟨e, he, hkept, hbelow⟩⟩
      · exact ⟨[e.1], (eligible_directory hnodup).mpr ⟨hlist, .inl ⟨e, he, heligible, rfl⟩⟩, rfl⟩
      · obtain ⟨rel, hrel, rfl⟩ := (ih e he (hentries e he).2).mp hbelow
        exact ⟨e.1 :: rel, (eligible_directory hnodup).mpr
          ⟨hlist, .inr ⟨e, he, hkept, rel, hrel, rfl⟩⟩, by simp⟩
    · rintro ⟨rel, hrel, rfl⟩
      obtain ⟨hlist, ⟨e, he, heligible, rfl⟩ | ⟨e, he, hkept, rest, hrest, rfl⟩⟩ :=
        (eligible_directory hnodup).mp hrel
      · exact ⟨hlist, .inl ⟨e, he, heligible, rfl⟩⟩
      · exact ⟨hlist, .inr ⟨e, he, hkept, (ih e he (hentries e he).2).mpr ⟨rest, hrest, by simp⟩⟩⟩

/-- A file below an entry comes with the names that lead to it from there. -/
theorem exists_of_mem_files_visits {entries : Directory}
    (hwf : (Node.directory entries).wellFormed = true) {e : Text × Node} (he : e ∈ entries)
    {path : Text} (h : path ∈ Visit.files (s.visits (trail ++ [e.1]) e.2)) :
    ∃ rel, rel ≠ [] ∧ (∀ name ∈ e.1 :: rel, isName name = true) ∧
      path = s.pathOf (trail ++ e.1 :: rel) := by
  obtain ⟨hname, hnode⟩ := (Node.wellFormed_directory.mp hwf).2 e he
  obtain ⟨rel, hrel, rfl⟩ := (mem_files_visits hnode).mp h
  refine ⟨rel, hrel.ne_nil, List.forall_mem_cons.mpr ⟨hname, hrel.isName hnode⟩, ?_⟩
  rw [List.append_assoc, List.singleton_append]

/-- A walk finds no file twice. -/
theorem nodup_files_visits {node : Node} (hwf : node.wellFormed = true)
    (htrail : ∀ name ∈ trail, isName name = true) :
    (Visit.files (s.visits trail node)).Nodup := by
  induction node using Node.induct generalizing trail with
  | file content => exact List.nodup_nil
  | link target => exact List.nodup_nil
  | directory entries ih =>
    obtain ⟨hnodup, hentries⟩ := Node.wellFormed_directory.mp hwf
    have hname : ∀ e ∈ entries, ∀ name ∈ [e.1], isName name = true := by
      intro e he name hmem
      rw [List.mem_singleton.mp hmem]
      exact (hentries e he).1
    cases hlist : s.disk.listError? (s.pathOf trail) with
    | some e => rw [files_visits_of_listError hlist]; exact List.nodup_nil
    | none =>
      rw [(files_visits_perm hlist).nodup_iff, List.nodup_append]
      refine ⟨?own, ?below, ?apart⟩
      case own =>
        refine List.Nodup.map_on (fun a ha b hb hab => ?_) ((hnodup.of_map _).filter _)
        have ha := List.mem_of_mem_filter ha
        have hb := List.mem_of_mem_filter hb
        have heq := pathOf_append_inj htrail (List.cons_ne_nil _ _) (List.cons_ne_nil _ _)
          (hname a ha) (hname b hb) hab
        exact List.inj_on_of_nodup_map hnodup ha hb (List.head_eq_of_cons_eq heq)
      case below =>
        refine List.nodup_flatMap.mpr ⟨fun e he => ?_, ?_⟩
        · have he := List.mem_of_mem_filter he
          refine ih e he (hentries e he).2 fun name hmem => ?_
          exact (List.mem_append.mp hmem).elim (htrail name) (hname e he name)
        · refine List.Pairwise.imp_of_mem (fun {a b} ha hb hne path hpa hpb => ?_)
            ((List.pairwise_map.mp hnodup).filter _)
          obtain ⟨_, -, hnames, rfl⟩ :=
            exists_of_mem_files_visits hwf (List.mem_of_mem_filter ha) hpa
          obtain ⟨_, -, hnames', heq⟩ :=
            exists_of_mem_files_visits hwf (List.mem_of_mem_filter hb) hpb
          exact hne (List.head_eq_of_cons_eq (pathOf_append_inj htrail (List.cons_ne_nil _ _)
            (List.cons_ne_nil _ _) hnames hnames' heq))
      case apart =>
        -- a file of the directory itself has one name behind the trail, any other has several
        intro path hown path' hbelow heq
        obtain ⟨a, ha, rfl⟩ := List.mem_map.mp hown
        obtain ⟨b, hb, hpath'⟩ := List.mem_flatMap.mp hbelow
        obtain ⟨rel, hrel, hnames, rfl⟩ :=
          exists_of_mem_files_visits hwf (List.mem_of_mem_filter hb) hpath'
        have heq := pathOf_append_inj htrail (List.cons_ne_nil _ _) (List.cons_ne_nil _ _)
          (hname a (List.mem_of_mem_filter ha)) hnames heq
        exact hrel (List.tail_eq_of_cons_eq heq).symm

end Scope

/-! ## 4. Roots -/

theorem walk_of_not_directory {disk : Disk} {root : Text}
    (hroot : disk.directory? (disk.absolute root) = none) (settings : Settings)
    (limit : Option Int) :
    walk disk settings limit root = .ok [.note (.notDirectory (disk.absolute root))] := by
  simp only [walk, hroot]

section

variable {disk : Disk} {settings : Settings} {root : Text} {rules : List Ignore.Rule}
  {entries : Directory}

/-- The walk of a root, when the root is a directory and the patterns are understood. -/
theorem walk_of_directory (hroot : disk.directory? (disk.absolute root) = some entries)
    (hrules : settings.excludeRules = .ok rules) (limit : Option Int) :
    walk disk settings limit root = .ok (Visit.limited limit (disk.absolute root)
      ((Scope.under disk settings rules root).visits [] (.directory entries))) := by
  simp only [walk, hroot, hrules]
  rfl

theorem walk_of_pattern_error {e : Ignore.PatternError}
    (hroot : disk.directory? (disk.absolute root) = some entries)
    (hrules : settings.excludeRules = .error e) (limit : Option Int) :
    walk disk settings limit root = .error e := by
  simp only [walk, hroot, hrules]
  rfl

/-- An unlimited walk of a root, when the root is a directory and the patterns are understood. -/
theorem walk_none_eq (hroot : disk.directory? (disk.absolute root) = some entries)
    (hrules : settings.excludeRules = .ok rules) :
    walk disk settings none root
      = .ok ((Scope.under disk settings rules root).visits [] (.directory entries)) :=
  walk_of_directory hroot hrules none

end

/-- **A walk finds exactly the eligible files under a root, each once.** -/
theorem enumerate_eligible {disk : Disk} {settings : Settings} {rules : List Ignore.Rule}
    (root : Text) (hdisk : disk.wellFormed = true) (hrules : settings.excludeRules = .ok rules) :
    ∃ files, (enumerate disk settings none root).result = .ok files ∧ files.Nodup ∧
      ∀ path, path ∈ files ↔ ∃ entries rel,
        disk.directory? (disk.absolute root) = some entries ∧
        (Scope.under disk settings rules root).Eligible [] (.directory entries) rel ∧
        path = Path.join (disk.absolute root) (Path.ofSegments rel) := by
  cases hroot : disk.directory? (disk.absolute root) with
  | none =>
    refine ⟨[], ?_, List.nodup_nil, fun path => ?_⟩
    · simp only [enumerate, walk, hroot]
      rfl
    · simp
  | some entries =>
    have hwf := Disk.wellFormed_of_directory? hdisk hroot
    have hnone : ∀ name ∈ ([] : List Text), isName name = true := by
      intro name hname
      cases hname
    refine ⟨Visit.files ((Scope.under disk settings rules root).visits [] (.directory entries)),
      by simp only [enumerate, walk_none_eq hroot hrules], Scope.nodup_files_visits hwf hnone,
      fun path => ?_⟩
    have hpath : ∀ {rel},
        (Scope.under disk settings rules root).Eligible [] (.directory entries) rel →
        (Scope.under disk settings rules root).pathOf rel
          = Path.join (disk.absolute root) (Path.ofSegments rel) :=
      fun hrel => Scope.pathOf_eq_join hrel.ne_nil (hrel.isName hwf)
    rw [Scope.mem_files_visits hwf]
    constructor
    · rintro ⟨rel, hrel, rfl⟩
      exact ⟨entries, rel, rfl, hrel, hpath hrel⟩
    · rintro ⟨_, rel, ⟨rfl⟩, hrel, rfl⟩
      exact ⟨rel, hrel, (hpath hrel).symm⟩

/-- A directory with files, a link to a directory, a link that leads nowhere, a directory that a
rule leaves out, and one that cannot be listed. -/
def checkout : Disk where
  root := [("w".toList, .directory [
    ("lib".toList, .directory [("b.py".toList, .file []), ("c.txt".toList, .file [])]),
    ("a.py".toList, .file []),
    ("build".toList, .directory [("d.py".toList, .file [])]),
    ("also".toList, .link "lib".toList),
    ("gone.py".toList, .link "nowhere".toList),
    ("locked".toList, .directory [("e.py".toList, .file [])])])]
  denied := ["/w/locked".toList]

/-- Settings with one extension and one ignore pattern. -/
def pythonSettings : Settings where
  fileExtensions := ["py".toList]
  exclude := ["build/".toList]

/-- The rules of these settings. -/
def buildRules : List Ignore.Rule :=
  [⟨false, .pieces (.leadingDirectories :: "build".toList.map .literal ++ [.directory])⟩]

theorem enumerate_checkout :
    checkout.wellFormed = true ∧ pythonSettings.excludeRules = .ok buildRules ∧ ∀ path,
      path ∈ ["/w/a.py".toList, "/w/gone.py".toList, "/w/lib/b.py".toList] ↔
        ∃ entries rel, checkout.directory? (checkout.absolute "/w".toList) = some entries ∧
          (Scope.under checkout pythonSettings buildRules "/w".toList).Eligible []
            (.directory entries) rel ∧
          path = Path.join (checkout.absolute "/w".toList) (Path.ofSegments rel) := by
  have hdisk : checkout.wellFormed = true := rfl
  have hrules : pythonSettings.excludeRules = .ok buildRules := by decide +kernel
  obtain ⟨files, hfiles, -, hmem⟩ := enumerate_eligible "/w".toList hdisk hrules
  have hresult : (enumerate checkout pythonSettings none "/w".toList).result
      = .ok ["/w/a.py".toList, "/w/gone.py".toList, "/w/lib/b.py".toList] := by cbv
  obtain rfl := Except.ok.inj (hfiles.symm.trans hresult)
  exact ⟨hdisk, hrules, hmem⟩

end Marginalia
