/-
Marginalia.Proofs.Workspace.Rebuild — what a refresh of a workspace leaves.

* `rebuild_of_true` says all that a rebuild does when its result takes effect:
  the index holds the records of the reached paths, and the notices are the
  old ones, those of the enumeration, whatever happened meanwhile, and those
  of the scan.
* `rebuild_undisturbed` says when its result does take effect: the patterns
  are understood, and no newer refresh starts meanwhile.

`during` stands for all that happens between enumeration and scan. It may do
anything but change the disk.
-/
import Mathlib
import Marginalia.Proofs.Index.Contents
import Marginalia.Workspace.Refresh

namespace Marginalia.Workspace

/-! ## 1. The steps of a rebuild -/

/-- A workspace in which the records of a refresh are in force. -/
def committed (w : Workspace) (number : Nat) (records : List FileRecord) : Workspace :=
  let w := { w with index := { w.index with generation := number, snapshot := ⟨records⟩ } }
  w.report [.indexed w.stats.comments w.stats.files number]

/-- What has become of a workspace when the files of the roots are scanned. -/
def meanwhile (during : Change Unit) (roots : List Text) (w : Workspace) : Workspace :=
  if roots.isEmpty then w else (during w).1

theorem report_nil (w : Workspace) : w.report [] = w := by
  simp [report]

@[simp] theorem committed_index (w : Workspace) (number : Nat) (records : List FileRecord) :
    (w.committed number records).index
      = { w.index with generation := number, snapshot := ⟨records⟩ } := rfl

theorem conclude_eq (w : Workspace) (number : Nat) (records : List FileRecord) :
    w.conclude number records
      = if number < w.index.started then
          (w.report [.superseded number w.index.started], .ok false)
        else (w.committed number records, .ok true) := by
  unfold conclude Index.commit?
  by_cases h : number < w.index.started
  · simp only [if_pos h]
  · simp only [if_neg h]
    rfl

/-- A result takes effect if no newer refresh has started. -/
theorem conclude_of_true {w : Workspace} {number : Nat} {records : List FileRecord}
    (h : (w.conclude number records).2 = .ok true) :
    (w.conclude number records).1 = w.committed number records := by
  rw [conclude_eq] at h ⊢
  split at h
  next => cases h
  next hnewest => rw [if_neg hnewest]

section

variable {w : Workspace} {during : Change Unit} {roots : List Text} {settings : Settings}

theorem gatherRoots_of_ok {records : List FileRecord}
    (h : (w.gatherRoots during roots settings).2 = .ok records) :
    ∃ files v, (candidates w.disk settings w.limit [] roots).result = .ok files ∧
      v = (during (w.report (candidates w.disk settings w.limit [] roots).notices)).1 ∧
      (gather v.disk v.scanning files).result = .ok records ∧
      (w.gatherRoots during roots settings).1
        = v.report (gather v.disk v.scanning files).notices := by
  unfold gatherRoots at h ⊢
  simp only [follow] at h ⊢
  cases hfiles : (candidates w.disk settings w.limit [] roots).result with
  | error e =>
    rw [hfiles] at h
    cases h
  | ok files =>
    rw [hfiles] at h
    simp only at h ⊢
    cases hduring : during (w.report (candidates w.disk settings w.limit [] roots).notices) with
    | mk v result =>
      rw [hduring] at h
      cases result with
      | error e => cases h
      | ok _ => exact ⟨files, v, rfl, rfl, h, rfl⟩

theorem gatherRoots_ok {files : List Text} {records : List FileRecord} {v : Workspace}
    (hfiles : (candidates w.disk settings w.limit [] roots).result = .ok files)
    (hv : during (w.report (candidates w.disk settings w.limit [] roots).notices) = (v, .ok ()))
    (hrecords : (gather v.disk v.scanning files).result = .ok records) :
    w.gatherRoots during roots settings
      = (v.report (gather v.disk v.scanning files).notices, .ok records) := by
  unfold gatherRoots
  simp only [follow, hfiles, hv, hrecords]

theorem rebuild_of_empty (h : roots.isEmpty = true) :
    w.rebuild during roots settings
      = (w.start.report [.noRoots]).conclude (w.index.started + 1) [] := by
  unfold rebuild
  rw [if_pos h]
  rfl

theorem rebuild_of_records (h : ¬roots.isEmpty = true) {v : Workspace} {records : List FileRecord}
    (hgather : w.start.gatherRoots during roots settings = (v, .ok records)) :
    w.rebuild during roots settings = v.conclude (w.index.started + 1) records := by
  unfold rebuild
  simp only [if_neg h, hgather]
  rfl

theorem rebuild_of_fault (h : ¬roots.isEmpty = true) {v : Workspace} {f : Fault}
    (hgather : w.start.gatherRoots during roots settings = (v, .error f)) :
    w.rebuild during roots settings = (v, .error f) := by
  unfold rebuild
  simp only [if_neg h, hgather]

/-! ## 2. A rebuild whose result takes effect -/

/-- What a rebuild leaves if its result takes effect. -/
theorem rebuild_of_true (hduring : ∀ v, (during v).1.disk = v.disk)
    (h : (w.rebuild during roots settings).2 = .ok true) :
    ∃ found scanned records, SkipsOnce w.disk settings w.limit roots (found ++ scanned) ∧
      Contents w.disk settings w.limit roots records ∧
      (w.rebuild during roots settings).1
        = (((w.start.report found).meanwhile during roots).report scanned).committed
            (w.index.started + 1) records := by
  by_cases hroots : roots.isEmpty = true
  · rw [rebuild_of_empty hroots] at h ⊢
    obtain rfl : roots = [] := List.isEmpty_iff.mp hroots
    refine ⟨[.noRoots], [], [], SkipsOnce.nil ?_, Contents.nil, ?_⟩
    · intro path n hn
      obtain rfl := List.mem_singleton.mp hn
      rfl
    · rw [conclude_of_true h, report_nil]
      rfl
  · cases hgather : w.start.gatherRoots during roots settings with
    | mk v result =>
      cases result with
      | error f =>
        rw [rebuild_of_fault hroots hgather] at h
        cases h
      | ok records =>
        rw [rebuild_of_records hroots hgather] at h ⊢
        obtain ⟨files, u, hfiles, hu, hrecords, hv⟩ := gatherRoots_of_ok (congrArg Prod.snd hgather)
        obtain rfl := (congrArg Prod.fst hgather).symm.trans hv
        have hdisk : u.disk = w.disk := by
          rw [hu, hduring]
          rfl
        rw [hdisk] at hrecords h ⊢
        obtain ⟨order, horder, heq⟩ :=
          gather_eq w.disk u.scanning (zero_not_mem_of_gather hrecords)
        rw [heq] at hrecords h ⊢
        obtain rfl := Except.ok.inj hrecords
        refine ⟨_, order.flatMap (skips w.disk), recordsOf w.disk files,
          skipsOnce_of_candidates hfiles horder, contents_recordsOf hfiles, ?_⟩
        rw [meanwhile, if_neg hroots]
        refine (conclude_of_true h).trans ?_
        rw [hu]
        rfl

/-- A rebuild takes effect if its patterns are understood and no newer refresh starts meanwhile. -/
theorem rebuild_undisturbed {rules : List Ignore.Rule} (hdisk : w.disk.wellFormed = true)
    (hrules : settings.excludeRules = .ok rules)
    (hduring : ∀ v, (during v).2 = .ok () ∧ (during v).1.index.started = v.index.started) :
    (w.rebuild during roots settings).2 = .ok true := by
  have hconclude : ∀ (v : Workspace) (records : List FileRecord),
      v.index.started = w.index.started + 1 →
      (v.conclude (w.index.started + 1) records).2 = .ok true := by
    intro v records hv
    rw [conclude_eq, if_neg (by omega)]
  by_cases hroots : roots.isEmpty = true
  · rw [rebuild_of_empty hroots]
    exact hconclude _ _ rfl
  · obtain ⟨files, hfiles⟩ := candidates_ok w.disk w.limit hrules [] roots
    obtain ⟨-, hmem⟩ := candidates_eq_ok hfiles
    have hzero : ∀ path ∈ files, '\x00' ∉ path :=
      fun path hpath => zero_not_mem_of_reached hdisk ((hmem path).mp hpath).1
    cases hv : during (w.start.report (candidates w.disk settings w.limit [] roots).notices) with
    | mk v result =>
      obtain ⟨hok, hstarted⟩ := hduring
        (w.start.report (candidates w.disk settings w.limit [] roots).notices)
      rw [hv] at hok hstarted
      obtain rfl : result = .ok () := hok
      obtain ⟨order, -, heq⟩ := gather_eq v.disk v.scanning hzero
      have hgather := gatherRoots_ok (w := w.start) hfiles hv (congrArg Outcome.result heq)
      rw [rebuild_of_records hroots hgather]
      exact hconclude _ _ hstarted

/-! ## 3. Refreshes -/

theorem refreshIndex_of_rebuild (nested : Change Bool)
    (h : (w.rebuild during roots settings).2 = .ok true) :
    w.refreshIndex nested during roots settings
      = ((w.rebuild during roots settings).1.notify nested, .ok true) := by
  unfold refreshIndex
  cases hv : w.rebuild during roots settings with
  | mk v result =>
    rw [hv] at h
    obtain rfl : result = .ok true := h
    rfl

theorem rebuild_of_refreshIndex {nested : Change Bool}
    (h : (w.refreshIndex nested during roots settings).2 = .ok true) :
    (w.rebuild during roots settings).2 = .ok true := by
  unfold refreshIndex at h
  cases hv : w.rebuild during roots settings with
  | mk v result =>
    rw [hv] at h
    match result with
    | .ok true => rfl
    | .ok false => cases h
    | .error f => cases h

/-- What the workspace `v` is, which a refresh leaves to its listeners: the records of the index
are the ones that belong there, and each file that cannot be read was reported once. -/
structure Refreshed (w : Workspace) (during : Change Unit) (roots : List Text)
    (settings : Settings) (v : Workspace) : Prop where
  generation : v.index.generation = w.index.started + 1
  contents : Contents w.disk settings w.limit roots v.index.snapshot.records
  unreadable : ∀ path f, FileRecord.scan w.disk path = .error f →
    ∀ r ∈ v.index.snapshot.records, r.path ≠ path
  reported : ∃ found scanned, SkipsOnce w.disk settings w.limit roots (found ++ scanned) ∧
    v.notices = ((w.start.report found).meanwhile during roots).notices ++ scanned
      ++ [.indexed v.stats.comments v.stats.files v.index.generation]

theorem refreshed_rebuild (hduring : ∀ v, (during v).1.disk = v.disk)
    (h : (w.rebuild during roots settings).2 = .ok true) :
    Refreshed w during roots settings (w.rebuild during roots settings).1 := by
  obtain ⟨found, scanned, records, hskips, hcontents, hv⟩ := rebuild_of_true hduring h
  rw [hv]
  refine ⟨rfl, hcontents, fun path f hscan r hr => ?_, found, scanned, hskips, rfl⟩
  rintro rfl
  obtain ⟨path, -, hrecord, -⟩ := (hcontents.mem_iff r).mp hr
  rw [← FileRecord.path_of_scan hrecord] at hrecord
  rw [hrecord] at hscan
  cases hscan

/-- **What a refresh leaves.** A refresh takes effect if nothing newer starts meanwhile. When it
takes effect, the index holds exactly the records of the paths that are reached from the roots, and
every other refresh from which the same paths are reached leaves the same records, whatever its
roots, its workers and the order of its tasks are. -/
theorem refreshIndex_contents (w : Workspace) (nested : Change Bool) (roots : List Text)
    (settings : Settings) (hduring : ∀ v, (during v).1.disk = v.disk) :
    (∀ rules, w.disk.wellFormed = true → settings.excludeRules = .ok rules →
      (∀ v, (during v).2 = .ok () ∧ (during v).1.index.started = v.index.started) →
      (w.refreshIndex nested during roots settings).2 = .ok true) ∧
    ((w.refreshIndex nested during roots settings).2 = .ok true →
      (w.refreshIndex nested during roots settings).1
        = (w.rebuild during roots settings).1.notify nested ∧
      Refreshed w during roots settings (w.rebuild during roots settings).1 ∧
      ∀ (w' : Workspace) (nested' : Change Bool) (during' : Change Unit) (roots' : List Text),
        w'.disk = w.disk → w'.limit = w.limit → (∀ v, (during' v).1.disk = v.disk) →
        (∀ path, Reached w.disk settings w.limit roots path ↔
          Reached w.disk settings w.limit roots' path) →
        (w'.refreshIndex nested' during' roots' settings).2 = .ok true →
        (w'.rebuild during' roots' settings).1.index.snapshot
          = (w.rebuild during roots settings).1.index.snapshot) := by
  refine ⟨fun rules hdisk hrules hquiet => ?_, fun h => ⟨?_, ?_, ?_⟩⟩
  · rw [refreshIndex_of_rebuild nested (rebuild_undisturbed hdisk hrules hquiet)]
  · rw [refreshIndex_of_rebuild nested (rebuild_of_refreshIndex h)]
  · exact refreshed_rebuild hduring (rebuild_of_refreshIndex h)
  · intro w' nested' during' roots' hdisk hlimit hduring' hroots h'
    have hleft := (refreshed_rebuild hduring (rebuild_of_refreshIndex h)).contents
    have hright := (refreshed_rebuild hduring' (rebuild_of_refreshIndex h')).contents
    rw [hdisk, hlimit] at hright
    exact congrArg Snapshot.mk (hright.unique hleft fun path => (hroots path).symm)

end

/-- Two roots of which one lies in the other, with a file that is not UTF-8; the pool gets to the
last file first. -/
def overlapping : Workspace where
  disk := {
    root := [("w".toList, .directory [
      ("lib".toList, .directory [("b.py".toList, .file [0xFF]), ("c.py".toList, .file [0x23])]),
      ("a.py".toList, .file [0x23])])] }
  roots := ["/w/lib".toList, "/w".toList]
  settings := pythonSettings
  scanning := { order := List.reverse, order_perm := List.reverse_perm }

/-- The same workspace with one worker, its roots in another order and one of them twice. -/
def serial : Workspace where
  disk := overlapping.disk
  roots := ["/w".toList, "/w/lib".toList, "/w".toList]
  settings := pythonSettings
  scanning := { workers := 1 }

theorem refreshIndex_overlapping :
    (overlapping.refreshIndex nestedRefresh idle overlapping.roots pythonSettings).2 = .ok true ∧
    Refreshed overlapping idle overlapping.roots pythonSettings
      (overlapping.rebuild idle overlapping.roots pythonSettings).1 ∧
    (overlapping.rebuild idle overlapping.roots pythonSettings).1.index.snapshot.records.map (·.path)
      = ["/w/a.py".toList, "/w/lib/c.py".toList] ∧
    (serial.rebuild idle serial.roots pythonSettings).1.index.snapshot
      = (overlapping.rebuild idle overlapping.roots pythonSettings).1.index.snapshot := by
  have hrules : pythonSettings.excludeRules = .ok buildRules := by decide +kernel
  have hidle : ∀ v, (idle v).1.disk = v.disk := fun v => rfl
  obtain ⟨hundisturbed, hleft⟩ :=
    refreshIndex_contents overlapping nestedRefresh overlapping.roots pythonSettings hidle
  have hdone := hundisturbed buildRules rfl hrules fun v => ⟨rfl, rfl⟩
  obtain ⟨-, hrefreshed, hsame⟩ := hleft hdone
  have hserial := (refreshIndex_contents serial nestedRefresh serial.roots pythonSettings hidle).1
    buildRules rfl hrules fun v => ⟨rfl, rfl⟩
  have hroots : ∀ root, root ∈ overlapping.roots ↔ root ∈ serial.roots := by
    intro root
    simp only [overlapping, serial, List.mem_cons, List.not_mem_nil, or_false]
    tauto
  exact ⟨hdone, hrefreshed, by cbv,
    hsame serial nestedRefresh idle serial.roots rfl rfl hidle (reached_congr hroots) hserial⟩

end Marginalia.Workspace
