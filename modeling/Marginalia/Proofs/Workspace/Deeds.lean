/-
Marginalia.Proofs.Workspace.Deeds — what deeds leave alone.

A request installs something and refreshes, or it reports something. A refresh
changes the index, and it calls observers, who do what `Kept` speaks of. That
is all that can happen to a workspace, apart from its disk. So whatever is kept
by each of these is kept by deeds of any kind, nested as deep as they may be
(`KeptByDeeds.afterDeeds`); and what scripts there are is settled from the
start (`keptByDeeds_scripts`).
-/
import Marginalia.Proofs.Workspace.UpToDate

namespace Marginalia.Workspace

/-- A request installs roots and settings, and nothing else. -/
theorem exists_installed_eq (w : Workspace) (request : Request) :
    ∃ roots settings, w.installed request = { w with roots, settings } := by
  cases request with
  | refresh => exact ⟨_, _, rfl⟩
  | addRoot root =>
    unfold installed withRoot
    simp only
    split
    next => exact ⟨_, _, rfl⟩
    next => exact ⟨_, _, rfl⟩
  | removeRoot root => exact ⟨_, _, rfl⟩
  | setRoots roots =>
    show ∃ roots' settings, w.withRoots roots = { w with roots := roots', settings }
    rw [withRoots_eq]
    exact ⟨_, _, rfl⟩
  | updateSettings settings => exact ⟨_, _, rfl⟩

theorem newerRefresh_fst (roots : List Text) (settings : Settings) (w : Workspace) :
    (newerRefresh roots settings w).1 = (w.refreshIndexFor roots settings).1 := by
  unfold newerRefresh
  split
  next v e heq => rw [heq]
  next v b heq => rw [heq]

/-- What a relation must satisfy so that whatever happens to a workspace keeps it. -/
structure KeptByDeeds (R : Workspace → Workspace → Prop) : Prop extends Kept R where
  called : ∀ (w : Workspace) o, R w { w with called := o :: w.called }
  index : ∀ (w : Workspace) (index : Index), R w { w with index }
  installed : ∀ (w : Workspace) request, R w (w.installed request)
  disk : ∀ (w : Workspace) (disk : Disk), R w { w with disk }

namespace KeptByDeeds

variable {R : Workspace → Workspace → Prop} (hR : KeptByDeeds R)

include hR

theorem refreshIndex {during : Change Unit} (hduring : ∀ w, R w (during w).1) (roots : List Text)
    (settings : Settings) (w : Workspace) :
    R w (w.refreshIndex nestedRefresh during roots settings).1 :=
  hR.toKept.refreshIndex (fun v => hR.toKept.refreshWithin hR.called hR.index _ v) hR.called
    hR.index hduring roots settings w

theorem refreshIndexFor (roots : List Text) (settings : Settings) (w : Workspace) :
    R w (w.refreshIndexFor roots settings).1 :=
  hR.refreshIndex hR.refl roots settings w

theorem refresh (w : Workspace) : R w w.refresh.1 :=
  hR.trans (hR.report w _) (hR.refreshIndexFor w.roots w.settings _)

theorem newerRefresh (roots : List Text) (settings : Settings) (w : Workspace) :
    R w (newerRefresh roots settings w).1 :=
  newerRefresh_fst roots settings w ▸ hR.refreshIndexFor roots settings w

theorem answer (w : Workspace) (request : Request) : R w (w.answer request).1 := by
  cases hleads : w.leadsToRefresh request with
  | true =>
    rw [answer_of_leadsToRefresh hleads]
    exact hR.trans (hR.installed w request) (hR.refresh _)
  | false =>
    obtain ⟨ns, hanswer⟩ := answer_of_not_leadsToRefresh hleads
    rw [hanswer]
    exact hR.report w ns

mutual

theorem afterDeed : ∀ (deed : Deed) (w : Workspace), R w (w.afterDeed deed)
  | .request request, w => hR.answer w request
  | .refreshIndex roots settings, w => hR.refreshIndexFor roots settings w
  | .refreshAmid meanwhile roots settings, w =>
      hR.refreshIndex (fun v => afterDeeds meanwhile v) roots settings w
  | .raceRefresh newerRoots newerSettings, w => hR.trans (hR.report w _)
      (hR.refreshIndex (hR.newerRefresh newerRoots newerSettings) w.roots w.settings _)
  | .watch change, w => hR.watch w change
  | .change disk, w => hR.disk w disk

theorem afterDeeds : ∀ (deeds : List Deed) (w : Workspace), R w (w.afterDeeds deeds)
  | [], w => hR.refl w
  | deed :: rest, w => hR.trans (afterDeed deed w) (afterDeeds rest (w.afterDeed deed))

end

end KeptByDeeds

/-- What scripts there are is settled from the start. -/
theorem keptByDeeds_scripts : KeptByDeeds fun w v => v.scripts = w.scripts where
  refl _ := rfl
  trans h k := k.trans h
  report _ _ := rfl
  record _ _ := rfl
  watch _ _ := rfl
  called _ _ := rfl
  index _ _ := rfl
  installed w request := by
    obtain ⟨roots, settings, hinstalled⟩ := exists_installed_eq w request
    rw [hinstalled]
  disk _ _ := rfl

end Marginalia.Workspace
