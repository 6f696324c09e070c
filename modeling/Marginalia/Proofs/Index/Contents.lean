/-
Marginalia.Proofs.Index.Contents — what a refresh gathers.

`Reached` is the union over the roots of what their walks enumerate, each
within the limit. The definition knows no order and no repetition:

* `candidates_eq_ok` — the candidates are the reached paths, each once,
  however the roots overlap. The induction is on the roots; the paths known
  so far are its context.
* `Contents` — the records that belong to the index: those of the reached
  paths that can be read and have comments, strictly increasing by path. At
  most one list fits (`Contents.unique`).
* `contents_of_gather` — what is gathered for the candidates fits, whatever
  the order in which the files are scanned.
* `SkipsOnce` — a reached path that cannot be read is reported once.
-/
import Marginalia.Index.Basic
import Marginalia.Proofs.Record
import Marginalia.Proofs.Text.Order
import Marginalia.Proofs.Walk.Limit

namespace Marginalia

/-- Whether a notice says that a file is skipped. -/
def Notice.isSkipOf (path : Text) : Notice → Bool
  | .skipped file _ => file = path
  | _ => false

/-! ## 1. Candidates -/

theorem mem_newOnes : ∀ {known files : List Text} {path : Text},
    path ∈ newOnes known files ↔ path ∈ files ∧ path ∉ known
  | _, [], _ => by simp [newOnes]
  | known, first :: rest, path => by
      rw [newOnes]
      by_cases hfirst : first ∈ known
      · rw [if_pos (by simpa using hfirst), mem_newOnes, List.mem_cons]
        refine ⟨fun h => ⟨.inr h.1, h.2⟩, ?_⟩
        rintro ⟨rfl | h, hknown⟩
        · exact absurd hfirst hknown
        · exact ⟨h, hknown⟩
      · rw [if_neg (by simpa using hfirst), List.mem_cons, mem_newOnes, List.mem_cons,
          List.mem_cons, not_or]
        constructor
        · rintro (rfl | ⟨h, -, hknown⟩)
          · exact ⟨.inl rfl, hfirst⟩
          · exact ⟨.inr h, hknown⟩
        · rintro ⟨rfl | h, hknown⟩
          · exact .inl rfl
          · by_cases heq : path = first
            · exact .inl heq
            · exact .inr ⟨h, heq, hknown⟩

theorem nodup_newOnes : ∀ (known files : List Text), (newOnes known files).Nodup
  | _, [] => List.nodup_nil
  | known, first :: rest => by
      rw [newOnes]
      split
      next => exact nodup_newOnes known rest
      next =>
        refine List.nodup_cons.mpr ⟨fun h => ?_, nodup_newOnes _ rest⟩
        exact (mem_newOnes.mp h).2 List.mem_cons_self

/-- Whether the walk of one of the roots enumerates a path. -/
def Reached (disk : Disk) (settings : Settings) (limit : Option Int) (roots : List Text)
    (path : Text) : Prop :=
  ∃ root ∈ roots, ∃ files, (enumerate disk settings limit root).result = .ok files ∧ path ∈ files

section

variable {disk : Disk} {settings : Settings} {limit : Option Int} {roots : List Text}

theorem reached_nil {path : Text} : ¬Reached disk settings limit [] path := by
  rintro ⟨root, hroot, -⟩
  cases hroot

theorem reached_cons {root : Text} {files : List Text}
    (h : (enumerate disk settings limit root).result = .ok files) {path : Text} :
    Reached disk settings limit (root :: roots) path ↔
      path ∈ files ∨ Reached disk settings limit roots path := by
  constructor
  · rintro ⟨first, hfirst, found, hfound, hpath⟩
    rcases List.mem_cons.mp hfirst with rfl | hfirst
    · obtain rfl := Except.ok.inj (h.symm.trans hfound)
      exact .inl hpath
    · exact .inr ⟨first, hfirst, found, hfound, hpath⟩
  · rintro (hpath | ⟨first, hfirst, hfound⟩)
    · exact ⟨root, List.mem_cons_self, files, h, hpath⟩
    · exact ⟨first, List.mem_cons_of_mem _ hfirst, hfound⟩

/-- What is reached depends neither on the order of the roots nor on how often one is listed. -/
theorem reached_congr {others : List Text} (h : ∀ root, root ∈ roots ↔ root ∈ others)
    (path : Text) :
    Reached disk settings limit roots path ↔ Reached disk settings limit others path := by
  constructor
  · rintro ⟨root, hroot, hfound⟩
    exact ⟨root, (h root).mp hroot, hfound⟩
  · rintro ⟨root, hroot, hfound⟩
    exact ⟨root, (h root).mpr hroot, hfound⟩

theorem zero_not_mem_of_reached (hdisk : disk.wellFormed = true) {path : Text}
    (h : Reached disk settings limit roots path) : '\x00' ∉ path := by
  obtain ⟨root, -, files, hfiles, hpath⟩ := h
  exact zero_not_mem_of_enumerate hdisk hfiles hpath

/-- The candidates are the reached paths that are not known yet, each once. -/
theorem candidates_eq_ok : ∀ {roots known files : List Text},
    (candidates disk settings limit known roots).result = .ok files →
    files.Nodup ∧ ∀ path, path ∈ files ↔ Reached disk settings limit roots path ∧ path ∉ known
  | [], known, files, h => by
      obtain rfl := Except.ok.inj h
      refine ⟨List.nodup_nil, fun path => ?_⟩
      simp [reached_nil]
  | root :: rest, known, files, h => by
      rw [candidates] at h
      obtain ⟨found, hfound, h⟩ := Outcome.andThen_eq_ok.mp h
      obtain ⟨_, -, h⟩ := Outcome.andThen_eq_ok.mp h
      obtain ⟨others, hothers, h⟩ := Outcome.andThen_eq_ok.mp h
      obtain rfl := Except.ok.inj h
      obtain ⟨hnodup, hmem⟩ := candidates_eq_ok hothers
      constructor
      · refine List.nodup_append.mpr ⟨nodup_newOnes known found, hnodup, ?_⟩
        rintro path hfresh _ hother rfl
        exact ((hmem path).mp hother).2 (List.mem_append_left _ hfresh)
      · intro path
        rw [List.mem_append, mem_newOnes, hmem, reached_cons hfound, List.mem_append, mem_newOnes]
        by_cases hknown : path ∈ known
        · simp [hknown]
        · by_cases hpath : path ∈ found
          · simp [hpath, hknown]
          · simp [hpath, hknown]

theorem candidates_ok (disk : Disk) (limit : Option Int) {rules : List Ignore.Rule}
    (hrules : settings.excludeRules = .ok rules) : ∀ (known roots : List Text),
    ∃ files, (candidates disk settings limit known roots).result = .ok files
  | known, [] => ⟨[], rfl⟩
  | known, root :: rest => by
      obtain ⟨found, hfound⟩ := enumerate_ok disk hrules limit root
      obtain ⟨others, hothers⟩ := candidates_ok disk limit hrules (newOnes known found ++ known) rest
      refine ⟨newOnes known found ++ others, ?_⟩
      rw [candidates]
      exact Outcome.andThen_eq_ok.mpr ⟨found, hfound, Outcome.andThen_eq_ok.mpr
        ⟨(), rfl, Outcome.andThen_eq_ok.mpr ⟨others, hothers, rfl⟩⟩⟩

/-- Enumerating the roots reports about their walks only, never about a file. -/
theorem isSkipOf_candidates (path : Text) : ∀ {known roots : List Text} {n : Notice},
    n ∈ (candidates disk settings limit known roots).notices → n.isSkipOf path = false
  | _, [], _, h => absurd h List.not_mem_nil
  | known, root :: rest, n, h => by
      have hwalk : n ∈ (enumerate disk settings limit root).notices → n.isSkipOf path = false := by
        intro hn
        have habout := isAboutWalk_of_enumerate hn
        cases n with
        | skipped _ _ => cases habout
        | _ => rfl
      rw [candidates] at h
      rcases Outcome.mem_notices_andThen h with h | ⟨found, -, h⟩
      · exact hwalk h
      rcases Outcome.mem_notices_andThen h with h | ⟨_, -, h⟩
      · obtain rfl := List.mem_singleton.mp h
        rfl
      rcases Outcome.mem_notices_andThen h with h | ⟨others, -, h⟩
      · exact isSkipOf_candidates path h
      · cases h

/-! ## 2. Gathering -/

/-- The records of files, ordered by path. -/
def recordsOf (disk : Disk) (files : List Text) : List FileRecord :=
  (files.filterMap (FileRecord.kept? disk)).mergeSort fun a b => codePointLe a.path b.path

theorem gather_eq {files : List Text} (disk : Disk) (scanning : Scanning)
    (h : ∀ path ∈ files, '\x00' ∉ path) :
    ∃ order : List Text, order.Perm files ∧
      gather disk scanning files = ⟨order.flatMap (skips disk), .ok (recordsOf disk files)⟩ := by
  obtain ⟨order, hperm, hscan⟩ := scanning.scan_eq disk h
  refine ⟨order, hperm, ?_⟩
  have hkeys : ((files.filterMap (FileRecord.kept? disk)).any (·.path.contains '\x00')) = false := by
    rw [List.any_eq_false]
    intro r hr
    obtain ⟨path, hpath, hkept⟩ := List.mem_filterMap.mp hr
    simpa [FileRecord.path_of_kept? hkept] using h path hpath
  rw [gather, hscan, Outcome.andThen_of_ok rfl, sortRecords, hkeys]
  simp [Outcome.ofExcept, recordsOf]

theorem zero_not_mem_of_gather {files : List Text} {scanning : Scanning}
    {records : List FileRecord} (h : (gather disk scanning files).result = .ok records) :
    ∀ path ∈ files, '\x00' ∉ path := by
  obtain ⟨found, hfound, -⟩ := Outcome.andThen_eq_ok.mp h
  exact Scanning.zero_not_mem_of_scan hfound

/-- The records that belong to the index: those of the reached paths that can be read and have
comments, strictly increasing by path. -/
structure Contents (disk : Disk) (settings : Settings) (limit : Option Int) (roots : List Text)
    (records : List FileRecord) : Prop where
  increasing : records.Pairwise fun a b => CodePointLt a.path b.path
  mem_iff : ∀ r, r ∈ records ↔ ∃ path, Reached disk settings limit roots path ∧
    FileRecord.scan disk path = .ok r ∧ r.comments ≠ []

/-- Where the same paths are reached, the same records belong to the index. -/
theorem Contents.unique {others : List Text} {records records' : List FileRecord}
    (h : Contents disk settings limit roots records)
    (h' : Contents disk settings limit others records')
    (hroots : ∀ path, Reached disk settings limit roots path ↔
      Reached disk settings limit others path) : records = records' := by
  refine eq_of_pairwise_codePointLt FileRecord.path h.increasing h'.increasing fun r => ?_
  rw [h.mem_iff, h'.mem_iff]
  simp only [hroots]

theorem Contents.nil : Contents disk settings limit [] [] where
  increasing := List.Pairwise.nil
  mem_iff r := by
    refine ⟨fun h => absurd h List.not_mem_nil, ?_⟩
    rintro ⟨path, hreached, -⟩
    exact absurd hreached reached_nil

/-- A kept record has the path of its file, whatever disk that is on. -/
theorem sublist_paths_kept (disks : Text → Disk) : ∀ files : List Text,
    ((files.filterMap fun path => FileRecord.kept? (disks path) path).map
      FileRecord.path).Sublist files
  | [] => List.Sublist.slnil
  | path :: rest => by
      have ih := sublist_paths_kept disks rest
      rw [List.filterMap_cons]
      split
      next => exact ih.cons path
      next r hkept =>
        rw [List.map_cons, FileRecord.path_of_kept? hkept]
        exact ih.cons_cons path

/-- The records of the candidates are the ones that belong to the index. -/
theorem contents_recordsOf {files : List Text}
    (h : (candidates disk settings limit [] roots).result = .ok files) :
    Contents disk settings limit roots (recordsOf disk files) := by
  obtain ⟨hnodup, hmem⟩ := candidates_eq_ok h
  constructor
  case increasing =>
    refine pairwise_mergeSort_codePointLt FileRecord.path ?_
    exact (sublist_paths_kept (fun _ => disk) files).nodup hnodup
  case mem_iff =>
    intro r
    rw [recordsOf, (List.mergeSort_perm _ _).mem_iff, List.mem_filterMap]
    simp only [hmem, List.not_mem_nil, not_false_eq_true, and_true, FileRecord.kept?_eq_some]

/-! ## 3. Files that cannot be read -/

/-- Whether each reached path that cannot be read is reported once, and no other path is. -/
structure SkipsOnce (disk : Disk) (settings : Settings) (limit : Option Int) (roots : List Text)
    (notices : List Notice) : Prop where
  unreadable : ∀ path e, Reached disk settings limit roots path →
    FileRecord.scan disk path = .error (.unreadable path e) →
    notices.filter (·.isSkipOf path) = [.skipped path e]
  readable : ∀ path r, FileRecord.scan disk path = .ok r → notices.filter (·.isSkipOf path) = []
  unreached : ∀ path, ¬Reached disk settings limit roots path →
    notices.filter (·.isSkipOf path) = []

theorem SkipsOnce.nil {notices : List Notice} (h : ∀ path, ∀ n ∈ notices, n.isSkipOf path = false) :
    SkipsOnce disk settings limit [] notices := by
  have hnone : ∀ path, notices.filter (·.isSkipOf path) = [] := by
    intro path
    rw [List.filter_eq_nil_iff]
    intro n hn
    simp [h path n hn]
  exact ⟨fun path e hreached => absurd hreached reached_nil, fun path _ _ => hnone path,
    fun path _ => hnone path⟩

theorem isSkipOf_of_mem_skips {path : Text} {n : Notice} (h : n ∈ skips disk path) (p : Text) :
    n.isSkipOf p = decide (path = p) := by
  unfold skips at h
  split at h
  next f e hscan =>
    obtain ⟨-, hf⟩ | ⟨-, e', hf⟩ := FileRecord.scan_eq_error hscan
    · cases hf
    · cases hf
      obtain rfl := List.mem_singleton.mp h
      rfl
  next => cases h

theorem filter_skips (path p : Text) :
    (skips disk path).filter (·.isSkipOf p) = if path = p then skips disk p else [] := by
  split
  next h =>
    subst h
    rw [List.filter_eq_self]
    intro n hn
    simp [isSkipOf_of_mem_skips hn]
  next h =>
    rw [List.filter_eq_nil_iff]
    intro n hn
    simp [isSkipOf_of_mem_skips hn, h]

/-- Among the notices about distinct files, those about one of them are its own. -/
theorem filter_flatMap_skips (p : Text) : ∀ {files : List Text}, files.Nodup →
    (files.flatMap (skips disk)).filter (·.isSkipOf p) = if p ∈ files then skips disk p else []
  | [], _ => by simp
  | path :: rest, hnodup => by
      obtain ⟨hnew, hrest⟩ := List.nodup_cons.mp hnodup
      rw [List.flatMap_cons, List.filter_append, filter_skips, filter_flatMap_skips p hrest]
      by_cases heq : path = p
      · subst heq
        simp [hnew]
      · simp [heq, Ne.symm heq]

theorem skips_of_unreadable {path : Text} {e : ReadError}
    (h : FileRecord.scan disk path = .error (.unreadable path e)) :
    skips disk path = [.skipped path e] := by
  rw [skips, h]

theorem skips_of_scan {path : Text} {r : FileRecord} (h : FileRecord.scan disk path = .ok r) :
    skips disk path = [] := by
  rw [skips, h]

/-- What is reported for the candidates, in whatever order they are scanned. -/
theorem skipsOnce_of_candidates {files order : List Text}
    (h : (candidates disk settings limit [] roots).result = .ok files) (horder : order.Perm files) :
    SkipsOnce disk settings limit roots
      ((candidates disk settings limit [] roots).notices ++ order.flatMap (skips disk)) := by
  obtain ⟨hnodup, hmem⟩ := candidates_eq_ok h
  have hfilter : ∀ path, ((candidates disk settings limit [] roots).notices
      ++ order.flatMap (skips disk)).filter (·.isSkipOf path)
      = if path ∈ files then skips disk path else [] := by
    intro path
    have hwalks : (candidates disk settings limit [] roots).notices.filter (·.isSkipOf path)
        = [] := by
      rw [List.filter_eq_nil_iff]
      intro n hn
      simp [isSkipOf_candidates path hn]
    rw [List.filter_append, hwalks, List.nil_append,
      filter_flatMap_skips path (horder.nodup_iff.mpr hnodup)]
    simp only [horder.mem_iff]
  simp only [List.not_mem_nil, not_false_eq_true, and_true] at hmem
  refine ⟨fun path e hreached hscan => ?_, fun path r hscan => ?_, fun path hreached => ?_⟩
  · rw [hfilter, if_pos ((hmem path).mpr hreached), skips_of_unreadable hscan]
  · rw [hfilter, skips_of_scan hscan, ite_self]
  · rw [hfilter, if_neg fun hfile => hreached ((hmem path).mp hfile)]

end

end Marginalia
