/-
Marginalia.Proofs.Workspace.Faults — what a request leaves behind when it
faults.

A request installs roots or settings and then refreshes. When the refresh
faults, what is visible stays: records and generation are the old ones, nobody
is called, and only the count of refreshes has gone up. The roots and settings
stay as well, but those are the new ones: nothing takes an installation back.
So the same request, made again, finds its work done, unless it is one that
refreshes in any case.

* `gathering` is what a refresh comes up with before it takes effect. It
  depends on disk, limit, workers, roots and settings, not on the index or on
  those who watch. A refresh faults exactly when that does
  (`refresh_eq_error_iff`), and then it has started and no more
  (`refresh_of_error`).
* `installed_eq_asked` says what is installed, in terms of the roots and
  settings before.
* `Reachable` says which workspaces can come about. None of them has a root
  twice (`Reachable.nodup`), so a root that was removed is gone.

What becomes of a workspace afterwards is not the subject here: a later refresh
may succeed once disk, roots or settings have changed.
-/
import Marginalia.Proofs.Workspace.Deeds

namespace Marginalia

/-- Whether a request refreshes even where its work is done. -/
def Request.repeats : Request → Bool
  | .refresh | .setRoots _ => true
  | .addRoot _ | .removeRoot _ | .updateSettings _ => false

namespace Workspace

/-! ## 1. When a refresh faults -/

/-- What a refresh for roots and settings gathers if nothing happens meanwhile. -/
def gathering (w : Workspace) (roots : List Text) (settings : Settings) :
    Outcome (List FileRecord) :=
  (candidates w.disk settings w.limit [] roots).andThen (gather w.disk w.scanning)

theorem gatherRoots_idle (w : Workspace) (roots : List Text) (settings : Settings) :
    w.gatherRoots idle roots settings = w.follow (w.gathering roots settings) := by
  unfold gatherRoots gathering Outcome.andThen
  simp only [follow, idle]
  cases (candidates w.disk settings w.limit [] roots).result with
  | error f => rfl
  | ok files => simp [report]

section

variable {w : Workspace} {roots : List Text} {settings : Settings} {f : Fault}

theorem rebuilds_of_gathering {records : List FileRecord}
    (h : (w.gathering roots settings).result = .ok records) :
    Rebuilds w.disk settings w.limit roots records := by
  obtain ⟨files, hfiles, hgather⟩ := Outcome.andThen_eq_ok.mp h
  have hzero := zero_not_mem_of_gather hgather
  obtain ⟨order, -, heq⟩ := gather_eq w.disk w.scanning hzero
  rw [heq] at hgather
  exact ⟨files, hfiles, hzero, (Except.ok.inj hgather).symm⟩

/-- A rebuild that cannot gather has started, and no more. -/
theorem rebuild_of_gathering_error (h : (w.gathering roots settings).result = .error f) :
    w.rebuild idle roots settings
      = (w.start.report (w.gathering roots settings).notices, .error f) := by
  have hroots : ¬roots.isEmpty = true := by
    intro hempty
    obtain rfl : roots = [] := List.isEmpty_iff.mp hempty
    have hnone : ∀ path ∈ ([] : List Text), '\x00' ∉ path := by simp
    obtain ⟨order, -, heq⟩ := gather_eq w.disk w.scanning hnone
    simp [gathering, candidates, heq] at h
  refine rebuild_of_fault hroots ?_
  rw [gatherRoots_idle]
  show (_, (w.gathering roots settings).result) = _
  rw [h]
  rfl

theorem refresh_of_gathering_error (h : (w.gathering w.roots w.settings).result = .error f) :
    ∃ ns, w.refresh = (w.start.report ns, .error f) := by
  let reported := w.report [.refreshing w.roots.length]
  have hrebuild : reported.rebuild idle w.roots w.settings = _ := rebuild_of_gathering_error h
  refine ⟨.refreshing w.roots.length :: (w.gathering w.roots w.settings).notices, ?_⟩
  show reported.refreshIndex nestedRefresh idle w.roots w.settings = _
  unfold refreshIndex
  rw [hrebuild]
  simp [report, start, reported, gathering]

theorem refresh_of_gathering_ok {records : List FileRecord}
    (h : (w.gathering w.roots w.settings).result = .ok records) : w.refresh.2 = .ok true := by
  have hrebuilds := rebuilds_of_gathering h
  have htrue := (rebuild_of_rebuilds (w := w.report [.refreshing w.roots.length]) hrebuilds).1
  exact congrArg Prod.snd (refreshIndex_of_rebuild nestedRefresh htrue)

/-- A refresh faults exactly when it cannot gather. -/
theorem refresh_eq_error_iff :
    w.refresh.2 = .error f ↔ (w.gathering w.roots w.settings).result = .error f := by
  constructor
  · intro h
    cases hgathering : (w.gathering w.roots w.settings).result with
    | error g =>
      obtain ⟨ns, hrefresh⟩ := refresh_of_gathering_error hgathering
      rw [hrefresh] at h
      exact congrArg _ (Except.error.inj h)
    | ok records =>
      rw [refresh_of_gathering_ok hgathering] at h
      cases h
  · intro h
    obtain ⟨ns, hrefresh⟩ := refresh_of_gathering_error h
    rw [hrefresh]

/-- A refresh that faults has started, and no more. -/
theorem refresh_of_error (h : w.refresh.2 = .error f) :
    ∃ ns, w.refresh = (w.start.report ns, .error f) :=
  refresh_of_gathering_error (refresh_eq_error_iff.mp h)

/-- It faults again if it is made again: what it gathers from is all there still. -/
theorem refresh_start_of_error (h : w.refresh.2 = .error f) (ns : List Notice) :
    (w.start.report ns).refresh.2 = .error f := by
  have hgathering := refresh_eq_error_iff.mp h
  exact refresh_eq_error_iff.mpr hgathering

end

/-! ## 2. What is installed -/

/-- The roots and settings that a request asks for. -/
def asked (w : Workspace) : Request → List Text × Settings
  | .refresh => (w.roots, w.settings)
  | .addRoot root => (w.roots ++ [w.disk.absolute root], w.settings)
  | .removeRoot root => (w.roots.filter (· != w.disk.absolute root), w.settings)
  | .setRoots roots => (newOnes [] (roots.map w.disk.absolute), w.settings)
  | .updateSettings settings => (w.roots, settings)

theorem installed_eq_asked {w : Workspace} (hroots : w.roots.Nodup) {request : Request}
    (hleads : w.leadsToRefresh request = true) :
    w.installed request
      = { w with roots := (w.asked request).1, settings := (w.asked request).2 } := by
  cases request with
  | refresh => rfl
  | addRoot root => exact withRoot_of_not_mem (by simpa [leadsToRefresh] using hleads)
  | removeRoot root =>
    show { w with roots := w.roots.erase (w.disk.absolute root) } = _
    rw [hroots.erase_eq_filter]
    rfl
  | setRoots roots => exact withRoots_eq w roots
  | updateSettings settings => rfl

/-! ## 3. No root is there twice -/

theorem nodup_installed {w : Workspace} (h : w.roots.Nodup) (request : Request) :
    (w.installed request).roots.Nodup := by
  cases request with
  | refresh => exact h
  | addRoot root => exact nodup_withRoot h root
  | removeRoot root => exact h.erase _
  | setRoots roots =>
    show (w.withRoots roots).roots.Nodup
    rw [withRoots_eq]
    exact nodup_newOnes _ _
  | updateSettings settings => exact h

/-- Whether a workspace `v` has no root twice if `w` has none twice. -/
def KeepsDistinct (w v : Workspace) : Prop := w.roots.Nodup → v.roots.Nodup

theorem keptByDeeds_keepsDistinct : KeptByDeeds KeepsDistinct where
  refl _ := id
  trans h k := k ∘ h
  report _ _ := id
  record _ _ := id
  watch _ _ := id
  called _ _ := id
  index _ _ := id
  installed _ request hroots := nodup_installed hroots request
  disk _ _ := id

/-- The workspaces that can come about. Besides those that are given roots and those to which a deed
is done there are all that differ from one in something other than the roots: amid a refresh or a
round, with other observers, with settings or limits that were changed from outside. -/
inductive Reachable : Workspace → Prop where
  | given (made : Workspace) (roots : List Text) : Reachable (made.withRoots roots)
  | after {w : Workspace} (h : Reachable w) (deed : Deed) : Reachable (w.afterDeed deed)
  | alike {w v : Workspace} (h : Reachable w) (hroots : v.roots = w.roots) : Reachable v

theorem Reachable.nodup {w : Workspace} (h : w.Reachable) : w.roots.Nodup := by
  induction h with
  | given made roots =>
    rw [withRoots_eq]
    exact nodup_newOnes _ _
  | after _ deed ih => exact keptByDeeds_keepsDistinct.afterDeed deed _ ih
  | alike _ hroots ih => rwa [hroots]

theorem Reachable.afterDeeds : ∀ (deeds : List Deed) {w : Workspace}, w.Reachable →
    (w.afterDeeds deeds).Reachable
  | [], _, h => h
  | deed :: rest, _, h => Reachable.afterDeeds rest (h.after deed)

/-! ## 4. Requests that fault -/

/-- What was installed need not be installed again. -/
theorem leadsToRefresh_installed {w : Workspace} (hroots : w.roots.Nodup) (request : Request) :
    (w.installed request).leadsToRefresh request = request.repeats := by
  cases request with
  | refresh => rfl
  | addRoot root =>
    show (!(w.withRoot root).roots.contains ((w.withRoot root).disk.absolute root)) = false
    by_cases hroot : w.disk.absolute root ∈ w.roots
    · simp [withRoot_of_mem hroot, hroot]
    · simp [withRoot_of_not_mem hroot]
  | removeRoot root =>
    show (w.roots.erase (w.disk.absolute root)).contains (w.disk.absolute root) = false
    simpa using hroots.not_mem_erase
  | setRoots roots => rfl
  | updateSettings settings => simp [installed, leadsToRefresh, Request.repeats]

/-- A request that refreshes in any case changes neither roots nor settings if it is made again. -/
theorem installed_installed (w : Workspace) {request : Request} (h : request.repeats = true)
    (ns : List Notice) :
    ((w.installed request).start.report ns).installed request
      = (w.installed request).start.report ns := by
  cases request with
  | refresh => rfl
  | setRoots roots =>
    show withRoots ((w.withRoots roots).start.report ns) roots = (w.withRoots roots).start.report ns
    rw [withRoots_eq w, withRoots_eq]
    rfl
  | addRoot root => cases h
  | removeRoot root => cases h
  | updateSettings settings => cases h

theorem leadsToRefresh_of_error {w : Workspace} {request : Request} {f : Fault}
    (h : (w.answer request).2 = .error f) :
    w.leadsToRefresh request = true ∧ (w.installed request).refresh.2 = .error f := by
  cases hleads : w.leadsToRefresh request with
  | true =>
    rw [answer_of_leadsToRefresh hleads] at h
    exact ⟨rfl, h⟩
  | false =>
    obtain ⟨ns, hanswer⟩ := answer_of_not_leadsToRefresh hleads
    rw [hanswer] at h
    cases h

/-- How a request is answered that is made again where its refresh faulted. -/
theorem answer_again {w : Workspace} (hroots : w.roots.Nodup) {request : Request} {f : Fault}
    (h : (w.installed request).refresh.2 = .error f) (ns : List Notice) :
    (((w.installed request).start.report ns).answer request).2
      = if request.repeats then .error f else .ok false := by
  have hleads : ((w.installed request).start.report ns).leadsToRefresh request
      = request.repeats := by
    have hdone := leadsToRefresh_installed hroots request
    cases request <;> exact hdone
  cases hrepeats : request.repeats with
  | true =>
    rw [answer_of_leadsToRefresh (hleads.trans hrepeats), installed_installed w hrepeats ns]
    exact refresh_start_of_error h ns
  | false =>
    obtain ⟨more, hanswer⟩ := answer_of_not_leadsToRefresh (hleads.trans hrepeats)
    rw [hanswer]
    rfl

/-- What `v` is, which a request leaves of `w` when it faults. -/
structure Faulted (w : Workspace) (request : Request) (f : Fault) (v : Workspace) : Prop where
  snapshot : v.index.snapshot = w.index.snapshot
  generation : v.index.generation = w.index.generation
  started : v.index.started = w.index.started + 1
  /-- Nobody was called. -/
  called : v.called = w.called ∧ v.events = w.events
  /-- Those who watch still watch. -/
  watching : v.listeners = w.listeners ∧ v.subscribers = w.subscribers
  roots : v.roots = (w.asked request).1
  settings : v.settings = (w.asked request).2
  /-- The request, made again. -/
  again : (v.answer request).2 = if request.repeats then .error f else .ok false
  refresh : v.refresh.2 = .error f

/-- **A request that faults is not taken back.** The index stays visible as it was and nobody is
called, but the roots and settings are those that were asked for. A refresh faults again, and so
does the request if it is one that refreshes in any case; otherwise it finds its work done. -/
theorem answer_of_fault {w : Workspace} (hreachable : w.Reachable) (request : Request) {f : Fault}
    (h : (w.answer request).2 = .error f) : Faulted w request f (w.answer request).1 := by
  have hroots := hreachable.nodup
  obtain ⟨hleads, hfault⟩ := leadsToRefresh_of_error h
  obtain ⟨ns, hrefresh⟩ := refresh_of_error hfault
  have hagain := answer_again hroots hfault ns
  have hstill := refresh_start_of_error hfault ns
  rw [answer_of_leadsToRefresh hleads, hrefresh]
  rw [installed_eq_asked hroots hleads] at hagain hstill ⊢
  exact ⟨rfl, rfl, rfl, ⟨rfl, rfl⟩, ⟨rfl, rfl⟩, rfl, rfl, hagain, hstill⟩

/-- A workspace that was given a root more and scanned; somebody watches who fails. -/
def watched : Workspace :=
  (make overlapping.disk ["w/lib".toList] pythonSettings none [(['a'], [.record, .fail])]).afterDeeds
    [.watch (.subscribe ['a']), .request (.addRoot "/w".toList)]

/-- A workspace of two roots whose settings nobody has tried yet. -/
def untried : Workspace := make overlapping.disk ["w".toList, "w/lib".toList] unusable none []

theorem answer_of_fault_watched :
    watched.Reachable ∧
      (watched.answer (.updateSettings unusable)).2 = .error (.pattern .reversedRange) ∧
      Faulted watched (.updateSettings unusable) (.pattern .reversedRange)
        (watched.answer (.updateSettings unusable)).1 ∧
      watched.index.generation = 1 ∧
      watched.index.snapshot.records.map (·.path) = ["/w/a.py".toList, "/w/lib/c.py".toList] := by
  have hreachable : watched.Reachable := (Reachable.given _ _).afterDeeds _
  have hfault : (watched.answer (.updateSettings unusable)).2
      = .error (.pattern .reversedRange) := by cbv
  exact ⟨hreachable, hfault, answer_of_fault hreachable (.updateSettings unusable) hfault,
    by cbv, by cbv⟩

/-- A request that is made twice: the first answer, the roots and settings that it leaves, and the
second answer. -/
def twice (w : Workspace) (request : Request) :
    Except Fault Bool × List Text × Settings × Except Fault Bool :=
  let (v, first) := w.answer request
  (first, v.roots, v.settings, (v.answer request).2)

/-- Roots and settings do not survive a request that faults, and of the four requests that change
them one alone faults again. -/
theorem twice_of_fault :
    watched.Reachable ∧ watched.settings = pythonSettings ∧
      twice watched (.updateSettings unusable)
        = (.error (.pattern .reversedRange), ["/w/lib".toList, "/w".toList], unusable,
          .ok false) ∧
      untried.Reachable ∧ untried.roots = ["/w".toList, "/w/lib".toList] ∧
      twice untried (.addRoot "x".toList)
        = (.error (.pattern .reversedRange), ["/w".toList, "/w/lib".toList, "/x".toList], unusable,
          .ok false) ∧
      twice untried (.removeRoot "w/lib".toList)
        = (.error (.pattern .reversedRange), ["/w".toList], unusable, .ok false) ∧
      twice untried (.setRoots ["w/lib".toList])
        = (.error (.pattern .reversedRange), ["/w/lib".toList], unusable,
          .error (.pattern .reversedRange)) := by
  have hwatched : watched.Reachable := (Reachable.given _ _).afterDeeds _
  have huntried : untried.Reachable := .given _ _
  exact ⟨hwatched, by cbv, by cbv, huntried, by cbv, by cbv, by cbv, by cbv⟩

end Workspace

end Marginalia
