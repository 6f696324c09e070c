/-
Marginalia.Proofs.Index.Coherent — everything that is read off an index agrees.

The record of a file, the numbers, the entries of the outline and what stands
below them are derived from the records one by one. They agree because no two
records have the same path and no record is empty (`Coherent`), and that holds
of whatever a refresh can gather (`Gathered.coherent`): paths that are found
more than once are scanned once, files without comments are dropped, and the
rest is sorted.

`Gathered` does not ask what the disk was like. The files may be found on one
disk and each of them read on another one, as when the disk changes under a
refresh.
-/
import Marginalia.Outline
import Marginalia.Proofs.Index.Contents

namespace Marginalia

/-! ## 1. What can be gathered -/

/-- Whether a refresh can come up with records: whatever was found is looked at once, each file on
the disk of its moment. -/
def Gathered (records : List FileRecord) : Prop :=
  ∃ (found : List Text) (disks : Text → Disk),
    sortRecords ((newOnes [] found).filterMap fun path => FileRecord.kept? (disks path) path)
      = .ok records

theorem gathered_nil : Gathered [] := ⟨[], fun _ => {}, by simp [newOnes, sortRecords]⟩

theorem newOnes_of_nodup : ∀ {known files : List Text}, files.Nodup →
    (∀ path ∈ files, path ∉ known) → newOnes known files = files
  | _, [], _, _ => rfl
  | known, path :: rest, hnodup, hnew => by
      obtain ⟨hpath, hrest⟩ := List.nodup_cons.mp hnodup
      have hothers : ∀ p ∈ rest, p ∉ path :: known := by
        intro p hp hmem
        rcases List.mem_cons.mp hmem with rfl | hmem
        · exact hpath hp
        · exact hnew p (List.mem_cons_of_mem _ hp) hmem
      have hnot : ¬known.contains path = true := by simpa using hnew path List.mem_cons_self
      rw [newOnes, if_neg hnot, newOnes_of_nodup hrest hothers]

/-- What a refresh gathers, whether the disk has changed since the enumeration or not. -/
theorem gathered_of_gather {disk later : Disk} {settings : Settings} {limit : Option Int}
    {roots files : List Text} {scanning : Scanning} {records : List FileRecord}
    (hfiles : (candidates disk settings limit [] roots).result = .ok files)
    (hrecords : (gather later scanning files).result = .ok records) : Gathered records := by
  have hnodup := (candidates_eq_ok hfiles).1
  obtain ⟨order, -, hscan⟩ := scanning.scan_eq later (zero_not_mem_of_gather hrecords)
  obtain ⟨kept, hkept, hsorted⟩ := Outcome.andThen_eq_ok.mp hrecords
  rw [hscan] at hkept
  obtain rfl := Except.ok.inj hkept
  refine ⟨files, fun _ => later, ?_⟩
  rw [newOnes_of_nodup hnodup (by simp)]
  exact hsorted

/-! ## 2. Coherence -/

/-- Whether all that is read off an index agrees. -/
structure Coherent (s : Snapshot) : Prop where
  /-- The records are ordered by path, and no path is there twice. -/
  increasing : s.records.Pairwise fun a b => CodePointLt a.path b.path
  comments_ne_nil : ∀ r ∈ s.records, r.comments ≠ []
  path_of_comment : ∀ r ∈ s.records, ∀ c ∈ r.comments, c.path = r.path
  /-- A path leads to its record and to no other one. -/
  record?_eq_some : ∀ path r, s.record? path = some r ↔ r ∈ s.records ∧ r.path = path
  record?_eq_none : ∀ path, s.record? path = none ↔ ∀ r ∈ s.records, r.path ≠ path
  files_eq : s.stats.files = s.records.length
  comments_eq : s.stats.comments = (s.records.map fun r => r.comments.length).sum
  comments_eq_zero : s.stats.comments = 0 ↔ s.records = []
  files_le_comments : s.stats.files ≤ s.stats.comments
  /-- The outline lists the records, and below each stand its comments. -/
  entries_eq : s.entries = s.records.map fun r => ⟨r.path, r.comments.length⟩
  below_record : ∀ r ∈ s.records, s.below (.file ⟨r.path, r.comments.length⟩) = r.comments
  length_below : ∀ e ∈ s.entries, ((s.below (.file e)).length : Int) = e.count
  below_unknown : ∀ e : FileEntry, (∀ r ∈ s.records, r.path ≠ e.path) → s.below (.file e) = []

theorem path_of_mem_extractComments {path content : Text} {c : Comment}
    (h : c ∈ extractComments path content) : c.path = path := by
  obtain ⟨m, -, rfl⟩ := List.mem_map.mp h
  rfl

theorem path_of_comment_of_scan {disk : Disk} {path : Text} {r : FileRecord}
    (h : FileRecord.scan disk path = .ok r) : ∀ c ∈ r.comments, c.path = r.path := by
  obtain ⟨content, -, rfl⟩ := FileRecord.scan_eq_ok h
  exact fun c hc => path_of_mem_extractComments hc

/-- What makes an index coherent. -/
structure Tidy (records : List FileRecord) : Prop where
  increasing : records.Pairwise fun a b => CodePointLt a.path b.path
  comments_ne_nil : ∀ r ∈ records, r.comments ≠ []
  path_of_comment : ∀ r ∈ records, ∀ c ∈ r.comments, c.path = r.path

theorem Gathered.tidy {records : List FileRecord} (h : Gathered records) : Tidy records := by
  obtain ⟨found, disks, hsorted⟩ := h
  unfold sortRecords at hsorted
  split at hsorted
  next => cases hsorted
  next =>
    obtain rfl := Except.ok.inj hsorted
    have hkept : ∀ r, r ∈ ((newOnes [] found).filterMap fun path =>
        FileRecord.kept? (disks path) path).mergeSort (fun a b => codePointLe a.path b.path) →
        ∃ disk path, FileRecord.scan disk path = .ok r ∧ r.comments ≠ [] := by
      intro r hr
      rw [(List.mergeSort_perm _ _).mem_iff, List.mem_filterMap] at hr
      obtain ⟨path, -, hkept⟩ := hr
      exact ⟨disks path, path, FileRecord.kept?_eq_some.mp hkept⟩
    constructor
    case increasing =>
      refine pairwise_mergeSort_codePointLt FileRecord.path ?_
      exact (sublist_paths_kept disks _).nodup (nodup_newOnes [] found)
    case comments_ne_nil =>
      intro r hr
      obtain ⟨_, _, -, hne⟩ := hkept r hr
      exact hne
    case path_of_comment =>
      intro r hr
      obtain ⟨_, _, hscan, -⟩ := hkept r hr
      exact path_of_comment_of_scan hscan

namespace Snapshot

variable {s : Snapshot}

/-- If no two records have the same path, a path leads to its record. -/
theorem record?_eq_some_of_nodup (h : (s.records.map FileRecord.path).Nodup) (path : Text)
    (r : FileRecord) : s.record? path = some r ↔ r ∈ s.records ∧ r.path = path := by
  constructor
  · intro hfind
    exact ⟨List.mem_of_find?_eq_some hfind, by simpa using List.find?_some hfind⟩
  · rintro ⟨hr, rfl⟩
    obtain ⟨other, hother⟩ := Option.isSome_iff_exists.mp
      (List.find?_isSome.mpr ⟨r, hr, by simp⟩ : (s.records.find? (·.path = r.path)).isSome = true)
    have hsame : other = r := List.inj_on_of_nodup_map h (List.mem_of_find?_eq_some hother) hr
      (by simpa using List.find?_some hother)
    exact hsame ▸ hother

theorem below_of_nodup (h : (s.records.map FileRecord.path).Nodup) {r : FileRecord}
    (hr : r ∈ s.records) {e : FileEntry} (he : e.path = r.path) :
    s.below (.file e) = r.comments := by
  rw [below, he, (record?_eq_some_of_nodup h r.path r).mpr ⟨hr, rfl⟩]

end Snapshot

namespace Tidy

variable {records : List FileRecord}

theorem nodup_paths (h : Tidy records) : (records.map FileRecord.path).Nodup := by
  refine List.pairwise_map.mpr (h.increasing.imp fun {a b} hab heq => ?_)
  rw [heq] at hab
  exact CodePointLt.irrefl _ hab

theorem record?_eq_some (h : Tidy records) (path : Text) (r : FileRecord) :
    (⟨records⟩ : Snapshot).record? path = some r ↔ r ∈ records ∧ r.path = path :=
  Snapshot.record?_eq_some_of_nodup h.nodup_paths path r

/-- Below an entry with the path of a record stand its comments, whatever number it shows. -/
theorem below_eq (h : Tidy records) {r : FileRecord} (hr : r ∈ records) {e : FileEntry}
    (he : e.path = r.path) : (⟨records⟩ : Snapshot).below (.file e) = r.comments :=
  Snapshot.below_of_nodup h.nodup_paths hr he

theorem length_le_comments : ∀ {records : List FileRecord}, (∀ r ∈ records, r.comments ≠ []) →
    records.length ≤ (⟨records⟩ : Snapshot).stats.comments
  | [], _ => Nat.le_refl _
  | r :: rest, h => by
      have ih := length_le_comments fun s hs => h s (List.mem_cons_of_mem _ hs)
      have hpos : 0 < r.count := List.length_pos_iff.mpr (h r List.mem_cons_self)
      show rest.length + 1 ≤ r.count + (⟨rest⟩ : Snapshot).stats.comments
      omega

/-- **Tidy records make a coherent index.** -/
theorem coherent (h : Tidy records) : Coherent ⟨records⟩ where
  increasing := h.increasing
  comments_ne_nil := h.comments_ne_nil
  path_of_comment := h.path_of_comment
  record?_eq_some := h.record?_eq_some
  record?_eq_none path := by simp [Snapshot.record?]
  files_eq := rfl
  comments_eq := by
    rw [List.sum_eq_foldr, List.foldr_map]
    rfl
  comments_eq_zero := by
    constructor
    · intro hzero
      have hle := length_le_comments h.comments_ne_nil
      rw [hzero] at hle
      exact List.length_eq_zero_iff.mp (Nat.le_zero.mp hle)
    · rintro rfl
      rfl
  files_le_comments := length_le_comments h.comments_ne_nil
  entries_eq := rfl
  below_record := fun r hr => h.below_eq hr rfl
  length_below := by
    intro e he
    obtain ⟨r, hr, rfl⟩ := List.mem_map.mp he
    rw [h.below_eq hr rfl]
    rfl
  below_unknown := by
    intro e hunknown
    have hnone : (⟨records⟩ : Snapshot).record? e.path = none := by
      simpa [Snapshot.record?] using hunknown
    rw [Snapshot.below, hnone]

end Tidy

end Marginalia
