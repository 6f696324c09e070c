/-
Marginalia.Proofs.Workspace.UpToDate — the index never lags behind roots and
settings.

A request changes roots or settings and then refreshes, or it does neither.
A refresh may fault, and then the new roots and settings stay. What survives
that is `Agrees`: *if* a rebuild for the roots and settings in force comes up
with records, they are the ones in the index. A refresh faults only if a
rebuild comes up with nothing, so it leaves a workspace that agrees in either
case, and a request that is answered without a refresh leaves alone all that
the invariant is about.

* `Rebuilds` says what a rebuild comes up with. It depends on disk, settings,
  limit and roots only. A rebuild comes up with that (`rebuild_of_rebuilds`)
  or faults (`fault_of_not_rebuilds`).
* `answer_of_leadsToRefresh` and `answer_of_not_leadsToRefresh` are the two
  ways in which a request can go. `withRoots_eq` says which roots are installed.
* `upToDate_afterRequests` is the invariant for runs of any length, with what a
  new workspace would show spelled out.
-/
import Marginalia.Proofs.Path.Normal
import Marginalia.Proofs.Workspace.Nesting
import Marginalia.Workspace.Session

namespace Marginalia

/-! ## 1. What a rebuild comes up with -/

/-- Whether a rebuild comes up with records. -/
def Rebuilds (disk : Disk) (settings : Settings) (limit : Option Int) (roots : List Text)
    (records : List FileRecord) : Prop :=
  ∃ files, (candidates disk settings limit [] roots).result = .ok files ∧
    (∀ path ∈ files, '\x00' ∉ path) ∧ records = recordsOf disk files

theorem Rebuilds.unique {disk : Disk} {settings : Settings} {limit : Option Int}
    {roots : List Text} {records records' : List FileRecord}
    (h : Rebuilds disk settings limit roots records)
    (h' : Rebuilds disk settings limit roots records') : records = records' := by
  obtain ⟨files, hfiles, -, rfl⟩ := h
  obtain ⟨files', hfiles', -, rfl⟩ := h'
  obtain rfl := Except.ok.inj (hfiles.symm.trans hfiles')
  rfl

theorem rebuilds_nil (disk : Disk) (settings : Settings) (limit : Option Int) :
    Rebuilds disk settings limit [] [] :=
  ⟨[], rfl, by simp, by simp [recordsOf]⟩

namespace Workspace

section

variable {w : Workspace} {roots : List Text} {settings : Settings} {records : List FileRecord}

/-- Nothing newer can have started when an undisturbed rebuild concludes. -/
theorem conclude_of_last {v : Workspace} {number : Nat} (h : v.index.started = number) :
    (v.conclude number records).2 = .ok true ∧
      (v.conclude number records).1.index.snapshot = ⟨records⟩ := by
  rw [conclude_eq, if_neg (by omega)]
  exact ⟨rfl, rfl⟩

theorem rebuild_of_rebuilds (h : Rebuilds w.disk settings w.limit roots records) :
    (w.rebuild idle roots settings).2 = .ok true ∧
      (w.rebuild idle roots settings).1.index.snapshot = ⟨records⟩ := by
  by_cases hroots : roots.isEmpty = true
  · obtain rfl : roots = [] := List.isEmpty_iff.mp hroots
    obtain rfl := h.unique (rebuilds_nil _ _ _)
    rw [rebuild_of_empty hroots]
    exact conclude_of_last rfl
  · obtain ⟨files, hfiles, hzero, rfl⟩ := h
    obtain ⟨order, -, hgather⟩ := gather_eq w.disk w.scanning hzero
    have hgathered : w.start.gatherRoots idle roots settings = _ :=
      gatherRoots_ok hfiles rfl (congrArg Outcome.result hgather)
    rw [rebuild_of_records hroots hgathered]
    exact conclude_of_last rfl

/-- A rebuild that comes up with nothing has faulted. -/
theorem fault_of_not_rebuilds
    (h : ¬∃ records, Rebuilds w.disk settings w.limit roots records) :
    ∃ f, (w.rebuild idle roots settings).2 = .error f := by
  by_cases hroots : roots.isEmpty = true
  · obtain rfl : roots = [] := List.isEmpty_iff.mp hroots
    exact absurd ⟨[], rebuilds_nil _ _ _⟩ h
  · cases hgather : w.start.gatherRoots idle roots settings with
    | mk v result =>
      cases result with
      | error f =>
        rw [rebuild_of_fault hroots hgather]
        exact ⟨f, rfl⟩
      | ok records =>
        obtain ⟨files, u, hfiles, rfl, hrecords, -⟩ :=
          gatherRoots_of_ok (congrArg Prod.snd hgather)
        exact absurd ⟨_, files, hfiles, zero_not_mem_of_gather hrecords, rfl⟩ h

end

/-! ## 2. Agreement -/

/-- Whether the index holds what a rebuild for the roots and settings in force comes up with, if it
comes up with anything. -/
def Agrees (w : Workspace) : Prop :=
  ∀ records, Rebuilds w.disk w.settings w.limit w.roots records → w.index.snapshot = ⟨records⟩

theorem SameIndex.agrees {w v : Workspace} (h : SameIndex w v) (hw : w.Agrees) : v.Agrees := by
  intro records hrecords
  rw [h.disk, h.settings, h.limit, h.roots] at hrecords
  rw [h.index]
  exact hw records hrecords

theorem SameSetup.quiet {w v : Workspace} (h : SameSetup w v) (hw : w.Quiet) : v.Quiet := by
  intro s hs
  exact hw s (h.scripts ▸ hs)

/-- Whether it faults or not, a refresh leaves an index that agrees. -/
theorem agrees_refresh {w : Workspace} (hquiet : w.Quiet) : w.refresh.1.Agrees := by
  intro records hrecords
  have hsame := refresh_sameSetup w
  rw [hsame.disk, hsame.settings, hsame.limit, hsame.roots] at hrecords
  let reported := w.report [.refreshing w.roots.length]
  obtain ⟨htrue, hsnapshot⟩ := rebuild_of_rebuilds (w := reported) hrecords
  have hrefresh : w.refresh.1
      = (reported.rebuild idle w.roots w.settings).1.notify nestedRefresh :=
    congrArg Prod.fst (refreshIndex_of_rebuild nestedRefresh htrue)
  have hstill : (reported.rebuild idle w.roots w.settings).1.Quiet :=
    (rebuild_sameSetup _ _ reported).quiet hquiet
  have hnested : ∀ v, SameSetup v (nestedRefresh v).1 := fun v => refreshWithin_sameSetup _ v
  rw [hrefresh, (notify_sameIndex_of_quiet hstill hnested).index]
  exact hsnapshot

/-! ## 3. Requests -/

/-- The workspace with the roots or settings that a request asks for. -/
def installed (w : Workspace) : Request → Workspace
  | .refresh => w
  | .addRoot root => w.withRoot root
  | .removeRoot root => { w with roots := w.roots.erase (w.disk.absolute root) }
  | .setRoots roots => w.withRoots roots
  | .updateSettings settings => { w with settings }

theorem answer_of_leadsToRefresh {w : Workspace} {request : Request}
    (h : w.leadsToRefresh request = true) : w.answer request = (w.installed request).refresh := by
  cases request with
  | refresh => rfl
  | addRoot root =>
    have hnew : ¬w.roots.contains (w.disk.absolute root) = true := by simpa [leadsToRefresh] using h
    exact if_neg hnew
  | removeRoot root =>
    have hthere : w.roots.contains (w.disk.absolute root) = true := h
    exact if_pos hthere
  | setRoots roots => rfl
  | updateSettings settings =>
    have hnew : ¬settings = w.settings := by simpa [leadsToRefresh] using h
    exact if_neg hnew

/-- A request that does not lead to a refresh reports something, and that is all. -/
theorem answer_of_not_leadsToRefresh {w : Workspace} {request : Request}
    (h : w.leadsToRefresh request = false) :
    ∃ ns, w.answer request = (w.report ns, .ok false) := by
  cases request with
  | refresh => cases h
  | addRoot root =>
    have hthere : w.roots.contains (w.disk.absolute root) = true := by
      simpa [leadsToRefresh] using h
    have hanswer : w.answer (.addRoot root) = (w, .ok false) := if_pos hthere
    exact ⟨[], by rw [hanswer, report_nil]⟩
  | removeRoot root =>
    have hnone : ¬w.roots.contains (w.disk.absolute root) = true := by
      simpa [leadsToRefresh] using h
    have hanswer : w.answer (.removeRoot root) = (w, .ok false) := if_neg hnone
    exact ⟨[], by rw [hanswer, report_nil]⟩
  | setRoots roots => cases h
  | updateSettings settings =>
    have hsame : settings = w.settings := by simpa [leadsToRefresh] using h
    exact ⟨[.unchanged], if_pos hsame⟩

/-! ## 4. Roots -/

theorem withRoot_of_mem {w : Workspace} {root : Text} (h : w.disk.absolute root ∈ w.roots) :
    w.withRoot root = w := by
  unfold withRoot
  simp [h]

theorem withRoot_of_not_mem {w : Workspace} {root : Text} (h : w.disk.absolute root ∉ w.roots) :
    w.withRoot root = { w with roots := w.roots ++ [w.disk.absolute root] } := by
  unfold withRoot
  simp [h]

/-- Roots are appended one by one unless they are known already. -/
theorem foldl_withRoot : ∀ (roots : List Text) {w : Workspace} {known : List Text},
    (∀ root, root ∈ known ↔ root ∈ w.roots) →
    roots.foldl withRoot w
      = { w with roots := w.roots ++ newOnes known (roots.map w.disk.absolute) }
  | [], w, known, _ => by simp [newOnes]
  | root :: rest, w, known, hknown => by
      rw [List.foldl_cons, List.map_cons, newOnes]
      by_cases hroot : w.disk.absolute root ∈ w.roots
      · rw [withRoot_of_mem hroot, foldl_withRoot rest hknown,
          if_pos (by simpa [hknown] using hroot)]
      · have hnext : ∀ r, r ∈ w.disk.absolute root :: known
            ↔ r ∈ w.roots ++ [w.disk.absolute root] := by
          intro r
          simp only [List.mem_cons, List.mem_append, List.not_mem_nil, or_false, hknown]
          exact or_comm
        rw [withRoot_of_not_mem hroot, foldl_withRoot rest hnext,
          if_neg (by simpa [hknown] using hroot)]
        simp

/-- The roots that are installed are those given, in absolute form, the first of equal ones. -/
theorem withRoots_eq (w : Workspace) (roots : List Text) :
    w.withRoots roots = { w with roots := newOnes [] (roots.map w.disk.absolute) } :=
  foldl_withRoot roots (w := { w with roots := [] }) fun _ => Iff.rfl

theorem nodup_withRoot {w : Workspace} (h : w.roots.Nodup) (root : Text) :
    (w.withRoot root).roots.Nodup := by
  by_cases hroot : w.disk.absolute root ∈ w.roots
  · rwa [withRoot_of_mem hroot]
  · rw [withRoot_of_not_mem hroot]
    exact h.append (List.nodup_singleton _) (by simpa using hroot)

/-- Whether the roots are in absolute form, and none is there twice. -/
structure RootsInOrder (w : Workspace) : Prop where
  nodup : w.roots.Nodup
  absolute : ∀ root ∈ w.roots, w.disk.absolute root = root

/-- What a workspace keeps when roots and settings are installed, and that its roots are in
order. -/
structure Prepared (w v : Workspace) : Prop extends RootsInOrder v where
  disk : v.disk = w.disk
  scripts : v.scripts = w.scripts

theorem RootsInOrder.prepared {w : Workspace} (h : RootsInOrder w) : Prepared w w := ⟨h, rfl, rfl⟩

theorem prepared_withRoot {w : Workspace} (hcwd : Path.isAbsolute w.disk.cwd = true)
    (h : RootsInOrder w) (root : Text) : Prepared w (w.withRoot root) := by
  have hnodup := nodup_withRoot h.nodup root
  by_cases hroot : w.disk.absolute root ∈ w.roots
  · rw [withRoot_of_mem hroot]
    exact h.prepared
  · rw [withRoot_of_not_mem hroot] at hnodup ⊢
    refine ⟨⟨hnodup, fun r hr => ?_⟩, rfl, rfl⟩
    rcases List.mem_append.mp hr with hr | hr
    · exact h.absolute r hr
    · obtain rfl := List.mem_singleton.mp hr
      exact Path.absolute_absolute hcwd root

theorem prepared_withRoots {w : Workspace} (hcwd : Path.isAbsolute w.disk.cwd = true)
    (roots : List Text) : Prepared w (w.withRoots roots) := by
  rw [withRoots_eq]
  refine ⟨⟨nodup_newOnes _ _, fun root hroot => ?_⟩, rfl, rfl⟩
  obtain ⟨given, -, rfl⟩ := List.mem_map.mp (mem_newOnes.mp hroot).1
  exact Path.absolute_absolute hcwd given

/-- The roots and settings that a request asks for leave roots in order. -/
theorem prepared_installed {w : Workspace} (hcwd : Path.isAbsolute w.disk.cwd = true)
    (h : RootsInOrder w) (request : Request) : Prepared w (w.installed request) := by
  cases request with
  | refresh => exact h.prepared
  | addRoot root => exact prepared_withRoot hcwd h root
  | removeRoot root =>
    exact ⟨⟨h.nodup.erase _, fun r hr => h.absolute r (List.mem_of_mem_erase hr)⟩, rfl, rfl⟩
  | setRoots roots => exact prepared_withRoots hcwd roots
  | updateSettings settings => exact ⟨⟨h.nodup, h.absolute⟩, rfl, rfl⟩

theorem RootsInOrder.of_sameSetup {w v : Workspace} (h : RootsInOrder w) (hv : SameSetup w v) :
    RootsInOrder v := by
  constructor
  · rw [hv.roots]
    exact h.nodup
  · rw [hv.roots, hv.disk]
    exact h.absolute

/-! ## 5. Runs -/

/-- What a workspace keeps whose scripts do not refresh. -/
structure Steady (w : Workspace) : Prop where
  cwd : Path.isAbsolute w.disk.cwd = true
  quiet : w.Quiet
  roots : RootsInOrder w

/-- **The step lemma.** A request keeps a workspace steady. Afterwards the index agrees if it did
before or if the request led to a refresh. -/
theorem Steady.answer {w : Workspace} (h : Steady w) (request : Request) :
    Steady (w.answer request).1 ∧
      (w.leadsToRefresh request = true ∨ w.Agrees → (w.answer request).1.Agrees) := by
  cases hleads : w.leadsToRefresh request with
  | true =>
    have hprepared := prepared_installed h.cwd h.roots request
    have hquiet : (w.installed request).Quiet := fun s hs => h.quiet s (hprepared.scripts ▸ hs)
    have hsame := refresh_sameSetup (w.installed request)
    rw [answer_of_leadsToRefresh hleads]
    refine ⟨⟨?_, hsame.quiet hquiet, hprepared.toRootsInOrder.of_sameSetup hsame⟩, fun _ => ?_⟩
    · rw [hsame.disk, hprepared.disk]
      exact h.cwd
    · exact agrees_refresh hquiet
  | false =>
    obtain ⟨ns, hanswer⟩ := answer_of_not_leadsToRefresh hleads
    have hsame : SameIndex w (w.report ns) := kept_sameIndex.report w ns
    rw [hanswer]
    refine ⟨⟨h.cwd, hsame.quiet h.quiet, h.roots.of_sameSetup hsame.toSameSetup⟩, ?_⟩
    rintro (hleads' | hagrees)
    · cases hleads'
    · exact hsame.agrees hagrees

/-- **The run lemma.** -/
theorem Steady.afterRequests : ∀ (requests : List Request) {w : Workspace}, Steady w → w.Agrees →
    Steady (w.afterRequests requests) ∧ (w.afterRequests requests).Agrees
  | [], _, h, hagrees => ⟨h, hagrees⟩
  | request :: rest, w, h, hagrees => by
      obtain ⟨hsteady, hnext⟩ := h.answer request
      exact Steady.afterRequests rest hsteady (hnext (.inr hagrees))

/-- What a new workspace over the same disk shows when it is refreshed for the roots and settings of
this one, whatever its workers are. -/
def rebuiltBy (w : Workspace) (scanning : Scanning) : Workspace × Except Fault Bool :=
  ({ disk := w.disk, limit := w.limit, scanning } : Workspace).refreshIndexFor w.roots w.settings

/-- Whether the roots of a workspace are in order, and its index is what a rebuild from scratch
would show, unless that faults. -/
structure UpToDate (w : Workspace) : Prop extends RootsInOrder w where
  index : ∀ scanning, (∃ f, (w.rebuiltBy scanning).2 = .error f) ∨
    (w.rebuiltBy scanning).2 = .ok true ∧ (w.rebuiltBy scanning).1.index.snapshot = w.index.snapshot

theorem upToDate_of_agrees {w : Workspace} (hroots : RootsInOrder w) (h : w.Agrees) :
    UpToDate w := by
  refine ⟨hroots, fun scanning => ?_⟩
  let anew : Workspace := { disk := w.disk, limit := w.limit, scanning }
  by_cases hrebuilds : ∃ records, Rebuilds w.disk w.settings w.limit w.roots records
  · obtain ⟨records, hrecords⟩ := hrebuilds
    obtain ⟨htrue, hsnapshot⟩ := rebuild_of_rebuilds (w := anew) hrecords
    have hrefresh : w.rebuiltBy scanning
        = ((anew.rebuild idle w.roots w.settings).1.notify nestedRefresh, .ok true) :=
      refreshIndex_of_rebuild nestedRefresh htrue
    have hquiet : (anew.rebuild idle w.roots w.settings).1.Quiet :=
      (rebuild_sameSetup _ _ anew).quiet fun s hs => absurd hs List.not_mem_nil
    have hnested : ∀ v, SameSetup v (nestedRefresh v).1 := fun v => refreshWithin_sameSetup _ v
    rw [hrefresh]
    refine .inr ⟨rfl, ?_⟩
    rw [(notify_sameIndex_of_quiet hquiet hnested).index, hsnapshot, h records hrecords]
  · obtain ⟨f, hfault⟩ := fault_of_not_rebuilds (w := anew) hrebuilds
    refine .inl ⟨f, ?_⟩
    unfold rebuiltBy refreshIndexFor refreshIndex
    cases hv : anew.rebuild idle w.roots w.settings with
    | mk v result =>
      rw [hv] at hfault
      obtain rfl : result = .error f := hfault
      rfl

/-- **The index never lags behind.** From a new workspace on, after every sequence of requests of
which the first leads to a refresh, whether they fault or not, the roots are in order, and the index
is what a rebuild from scratch would show unless that faults. -/
theorem upToDate_afterRequests (disk : Disk) (roots : List Text) (settings : Settings)
    (limit : Option Int) (scripts : List (Text × List Reaction)) (scanning : Scanning)
    (listeners : List Listener) (subscribers : List Text)
    (hcwd : Path.isAbsolute disk.cwd = true) (hquiet : ∀ s ∈ scripts, .refresh ∉ s.2)
    (first : Request) (rest : List Request)
    (hfirst : { make disk roots settings limit scripts with
      scanning, listeners, subscribers }.leadsToRefresh first = true) :
    ({ make disk roots settings limit scripts with
      scanning, listeners, subscribers }.afterRequests (first :: rest)).UpToDate := by
  have hmade : Prepared { disk, settings, limit, scripts }
      (make disk roots settings limit scripts) := prepared_withRoots hcwd roots
  have hsteady : Steady { make disk roots settings limit scripts with
      scanning, listeners, subscribers } := by
    refine ⟨?_, ?_, ⟨hmade.nodup, hmade.absolute⟩⟩
    · show Path.isAbsolute (make disk roots settings limit scripts).disk.cwd = true
      rw [hmade.disk]
      exact hcwd
    · intro s hs
      have hmem : s ∈ (make disk roots settings limit scripts).scripts := hs
      rw [hmade.scripts] at hmem
      exact hquiet s hmem
  obtain ⟨hnext, hagrees⟩ := hsteady.answer first
  obtain ⟨hend, hstill⟩ := hnext.afterRequests rest (hagrees (.inl hfirst))
  exact upToDate_of_agrees hend.roots hstill

/-- Settings with a pattern that no path can be matched against. -/
def unusable : Settings := { exclude := ["[z-a]".toList] }

/-- Requests of which the third faults, and the second and the fourth find nothing to do. -/
def requestsWithFault : List Request :=
  [.addRoot "w/lib".toList, .addRoot "/w//lib/.".toList, .updateSettings unusable,
    .updateSettings unusable, .setRoots ["w".toList, "/w/lib/".toList, "w/".toList],
    .updateSettings pythonSettings]

/-- An observer that fails and one that changes who listens. -/
def unruly : List (Text × List Reaction) :=
  [(['a'], [.record, .fail]), (['b'], [.unlisten ['b'], .close])]

theorem upToDate_requestsWithFault :
    let w := { make overlapping.disk [] pythonSettings (some 2) unruly with
      scanning := {}, listeners := [.observer ['a'], .outline, .observer ['b']],
      subscribers := [['a']] }
    Path.isAbsolute overlapping.disk.cwd = true ∧ (∀ s ∈ unruly, .refresh ∉ s.2) ∧
      w.leadsToRefresh (.addRoot "w/lib".toList) = true ∧
      (w.afterRequests requestsWithFault).UpToDate ∧
      (w.afterRequests requestsWithFault).index.snapshot.records.map (·.path)
        = ["/w/a.py".toList, "/w/lib/c.py".toList] := by
  have hcwd : Path.isAbsolute overlapping.disk.cwd = true := rfl
  have hquiet : ∀ s ∈ unruly, .refresh ∉ s.2 := by decide
  exact ⟨hcwd, hquiet, by decide,
    upToDate_afterRequests overlapping.disk [] pythonSettings (some 2) unruly {} _ _ hcwd hquiet
      (.addRoot "w/lib".toList) _ (by decide), by cbv⟩

end Workspace

end Marginalia
