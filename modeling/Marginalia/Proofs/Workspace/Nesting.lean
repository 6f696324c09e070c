/-
Marginalia.Proofs.Workspace.Nesting — what observers can do to a workspace,
and how deep refreshes nest.

The calls of a round go through scripts of reactions, and a reaction may
refresh. Whatever is to be shown of all that is shown once for one reaction:

* `Kept` names what a relation between workspaces must satisfy so that every
  reaction keeps it. Given that nested refreshes keep it too, so do scripts,
  calls and rounds, and what lies between start and commit of a refresh; a
  relation that lets the index change is kept by whole refreshes.
* `SameSetup` is such a relation. Observers and refreshes change neither disk
  nor roots, settings or scripts, and who was called stays called.
* `unspent` counts the scripts that may still refresh. A call that refreshes
  spends one first, so two ways to refresh that agree below a count cannot be
  told apart by the calls of a workspace at that count (`notify_congr`).

Hence the bound on how deep refreshes nest is never reached: a refresh made by
an observer is a refresh like any other (`nestedRefresh_eq_refresh`), and in a
workspace whose scripts never refresh a round leaves the index alone
(`notify_sameIndex_of_quiet`).
-/
import Marginalia.Proofs.Workspace.Rebuild

namespace Marginalia.Workspace

/-! ## 1. Relations that reactions keep -/

/-- What a relation must satisfy so that whatever an observer does, short of a refresh, keeps it. -/
structure Kept (R : Workspace → Workspace → Prop) : Prop where
  refl : ∀ w, R w w
  trans : ∀ {w v u}, R w v → R v u → R w u
  report : ∀ w ns, R w (w.report ns)
  record : ∀ w o, R w (w.record o)
  watch : ∀ w change, R w (w.watch change)

namespace Kept

variable {R : Workspace → Workspace → Prop} (hR : Kept R)

include hR

theorem foldl {α : Type} {f : Workspace → α → Workspace} (hf : ∀ w a, R w (f w a)) :
    ∀ (l : List α) (w : Workspace), R w (l.foldl f w)
  | [], w => hR.refl w
  | a :: rest, w => hR.trans (hf w a) (foldl hf rest (f w a))

/-- What lies between start and commit of a refresh keeps what happens meanwhile keeps. -/
theorem gatherRoots {during : Change Unit} (hduring : ∀ w, R w (during w).1) (roots : List Text)
    (settings : Settings) (w : Workspace) : R w (w.gatherRoots during roots settings).1 := by
  unfold Workspace.gatherRoots
  simp only [follow]
  have henumerated := hR.report w (candidates w.disk settings w.limit [] roots).notices
  cases hfiles : (candidates w.disk settings w.limit [] roots).result with
  | error e => exact henumerated
  | ok files =>
    have hmeanwhile := hR.trans henumerated
      (hduring (w.report (candidates w.disk settings w.limit [] roots).notices))
    simp only
    cases hv : during (w.report (candidates w.disk settings w.limit [] roots).notices) with
    | mk v result =>
      rw [hv] at hmeanwhile
      cases result with
      | error e => exact hmeanwhile
      | ok _ => exact hR.trans hmeanwhile (hR.report v _)

section

variable (hindex : ∀ (w : Workspace) (index : Index), R w { w with index })

include hindex

theorem conclude (number : Nat) (records : List FileRecord) (w : Workspace) :
    R w (w.conclude number records).1 := by
  rw [conclude_eq]
  split
  next => exact hR.report w _
  next => exact hR.trans (hindex w _) (hR.report _ _)

/-- A rebuild keeps what happens meanwhile keeps, if the index is free to change. -/
theorem rebuild {during : Change Unit} (hduring : ∀ w, R w (during w).1) (roots : List Text)
    (settings : Settings) (w : Workspace) : R w (w.rebuild during roots settings).1 := by
  have hstart : R w w.start := hindex w _
  by_cases hroots : roots.isEmpty = true
  · rw [rebuild_of_empty hroots]
    exact hR.trans (hR.trans hstart (hR.report _ _)) (hR.conclude hindex _ _ _)
  · have hgathered := hR.trans hstart (hR.gatherRoots hduring roots settings w.start)
    cases hgather : w.start.gatherRoots during roots settings with
    | mk v result =>
      rw [hgather] at hgathered
      cases result with
      | error f => rwa [rebuild_of_fault hroots hgather]
      | ok records =>
        rw [rebuild_of_records hroots hgather]
        exact hR.trans hgathered (hR.conclude hindex _ _ _)

end

variable {nested : Change Bool} (hnested : ∀ w, R w (nested w).1)

include hnested

theorem react (observer : Text) (w : Workspace) (r : Reaction) :
    R w (w.react nested observer r).1 := by
  cases r with
  | record => exact hR.record w observer
  | fail => exact hR.refl w
  | refresh => exact hnested w
  | watch change => exact hR.watch w change

theorem reactAll (observer : Text) : ∀ (reactions : List Reaction) (w : Workspace),
    R w (w.reactAll nested observer reactions).1
  | [], w => hR.refl w
  | r :: rest, w => by
      have hr := hR.react hnested observer w r
      rw [Workspace.reactAll]
      split
      next v heq =>
        rw [heq] at hr
        exact hR.trans hr (reactAll observer rest v)
      next v heq =>
        rw [heq] at hr
        exact hr

variable (hcalled : ∀ (w : Workspace) o, R w { w with called := o :: w.called })

include hcalled

theorem call (observer : Text) (w : Workspace) : R w (w.call nested observer).1 :=
  hR.trans (hcalled w observer) (hR.reactAll hnested observer _ _)

theorem callSubscriber (w : Workspace) (observer : Text) :
    R w (w.callSubscriber nested observer) := by
  have hcall := hR.call hnested hcalled observer w
  unfold Workspace.callSubscriber
  split
  next v heq => rwa [heq] at hcall
  next v heq =>
    rw [heq] at hcall
    exact hR.trans hcall (hR.report v _)

theorem callListener (w : Workspace) (listener : Listener) :
    R w (w.callListener nested listener) := by
  cases listener with
  | outline => exact hR.foldl (hR.callSubscriber hnested hcalled) w.subscribers w
  | observer name =>
    have hcall := hR.call hnested hcalled name w
    unfold Workspace.callListener
    simp only
    split
    next v heq => rwa [heq] at hcall
    next v heq =>
      rw [heq] at hcall
      exact hR.trans hcall (hR.report v _)

theorem notify (w : Workspace) : R w (w.notify nested) :=
  hR.foldl (hR.callListener hnested hcalled) w.listeners w

theorem refreshIndex (hindex : ∀ (w : Workspace) (index : Index), R w { w with index })
    {during : Change Unit} (hduring : ∀ w, R w (during w).1) (roots : List Text)
    (settings : Settings) (w : Workspace) :
    R w (w.refreshIndex nested during roots settings).1 := by
  have hrebuild := hR.rebuild hindex hduring roots settings w
  unfold Workspace.refreshIndex
  cases hv : w.rebuild during roots settings with
  | mk v result =>
    rw [hv] at hrebuild
    match result with
    | .ok true => exact hR.trans hrebuild (hR.notify hnested hcalled v)
    | .ok false => exact hrebuild
    | .error f => exact hrebuild

omit hnested in
theorem refreshWithin (hindex : ∀ (w : Workspace) (index : Index), R w { w with index }) :
    ∀ (depth : Nat) (w : Workspace), R w (w.refreshWithin depth).1
  | 0, w => hR.trans (hR.report w _)
      (hR.refreshIndex hR.refl hcalled hindex hR.refl w.roots w.settings _)
  | depth + 1, w => hR.trans (hR.report w _)
      (hR.refreshIndex (refreshWithin hindex depth) hcalled hindex hR.refl w.roots w.settings _)

end Kept

/-! ## 2. What refreshes leave alone -/

/-- Whether a workspace still has the disk, the roots and all else that is set up before a refresh.
Who was called stays called. -/
structure SameSetup (w v : Workspace) : Prop where
  disk : v.disk = w.disk
  roots : v.roots = w.roots
  settings : v.settings = w.settings
  limit : v.limit = w.limit
  scripts : v.scripts = w.scripts
  called : w.called ⊆ v.called

theorem kept_sameSetup : Kept SameSetup where
  refl _ := ⟨rfl, rfl, rfl, rfl, rfl, List.Subset.refl _⟩
  trans h k := ⟨k.disk.trans h.disk, k.roots.trans h.roots, k.settings.trans h.settings,
    k.limit.trans h.limit, k.scripts.trans h.scripts, List.Subset.trans h.called k.called⟩
  report _ _ := ⟨rfl, rfl, rfl, rfl, rfl, List.Subset.refl _⟩
  record _ _ := ⟨rfl, rfl, rfl, rfl, rfl, List.Subset.refl _⟩
  watch _ _ := ⟨rfl, rfl, rfl, rfl, rfl, List.Subset.refl _⟩

theorem sameSetup_called (w : Workspace) (observer : Text) :
    SameSetup w { w with called := observer :: w.called } :=
  ⟨rfl, rfl, rfl, rfl, rfl, List.subset_cons_self _ _⟩

theorem sameSetup_index (w : Workspace) (index : Index) : SameSetup w { w with index } :=
  ⟨rfl, rfl, rfl, rfl, rfl, List.Subset.refl _⟩

theorem idle_sameSetup (w : Workspace) : SameSetup w (idle w).1 := kept_sameSetup.refl w

theorem rebuild_sameSetup (roots : List Text) (settings : Settings) (w : Workspace) :
    SameSetup w (w.rebuild idle roots settings).1 :=
  kept_sameSetup.rebuild sameSetup_index idle_sameSetup roots settings w

theorem refreshWithin_sameSetup (depth : Nat) (w : Workspace) :
    SameSetup w (w.refreshWithin depth).1 :=
  kept_sameSetup.refreshWithin sameSetup_called sameSetup_index depth w

/-! ## 3. How deep refreshes nest -/

/-- The number of scripts that may still refresh: those of observers that were not called yet. -/
def unspent (w : Workspace) : Nat :=
  w.scripts.countP fun s => s.2.contains .refresh && !w.called.contains s.1

theorem SameSetup.unspent_le {w v : Workspace} (h : SameSetup w v) : v.unspent ≤ w.unspent := by
  unfold unspent
  rw [h.scripts]
  refine List.countP_mono_left fun s _ hs => ?_
  simp only [Bool.and_eq_true, Bool.not_eq_true', List.contains_eq_mem, decide_eq_true_eq,
    decide_eq_false_iff_not] at hs ⊢
  exact ⟨hs.1, fun hcalled => hs.2 (h.called hcalled)⟩

/-- A call that refreshes is the first one of an observer with a script that does. -/
theorem lookup_of_refresh_mem {scripts : List (Text × List Reaction)} {called : List Text}
    {observer : Text} (h : .refresh ∈ reactionsOf scripts called observer) :
    observer ∉ called ∧ ∃ script, scripts.lookup observer = some script ∧ .refresh ∈ script := by
  unfold reactionsOf at h
  split at h
  next => simp at h
  next hfirst =>
    refine ⟨by simpa using hfirst, ?_⟩
    cases hscript : scripts.lookup observer with
    | none =>
      rw [hscript] at h
      cases h
    | some script =>
      rw [hscript] at h
      exact ⟨script, rfl, h⟩

/-- A call that refreshes spends a script. -/
theorem unspent_called_lt {w : Workspace} {observer : Text}
    (h : .refresh ∈ reactionsOf w.scripts w.called observer) :
    unspent { w with called := observer :: w.called } < w.unspent := by
  obtain ⟨hfirst, script, hscript, hrefresh⟩ := lookup_of_refresh_mem h
  obtain ⟨before, after, hsplit, -⟩ := List.lookup_eq_some_iff.mp hscript
  have hle : ∀ scripts : List (Text × List Reaction),
      (scripts.countP fun s => s.2.contains .refresh && !(observer :: w.called).contains s.1)
        ≤ scripts.countP fun s => s.2.contains .refresh && !w.called.contains s.1 := by
    intro scripts
    refine List.countP_mono_left fun s _ hs => ?_
    simp only [List.contains_eq_mem, List.mem_cons, Bool.and_eq_true, Bool.not_eq_true',
      decide_eq_true_eq, decide_eq_false_iff_not, not_or] at hs ⊢
    exact ⟨hs.1, hs.2.2⟩
  have hbefore := hle before
  have hafter := hle after
  unfold unspent
  simp only [hsplit, List.countP_append, List.countP_cons]
  simp [hrefresh, hfirst] at hbefore hafter ⊢
  omega

/-- Whether a workspace has certain scripts, and not too many of them are unspent. -/
structure Within (scripts : List (Text × List Reaction)) (bound : Nat) (w : Workspace) : Prop where
  scripts : w.scripts = scripts
  unspent_le : w.unspent ≤ bound

theorem SameSetup.within {scripts : List (Text × List Reaction)} {bound : Nat} {w v : Workspace}
    (h : SameSetup w v) (hw : Within scripts bound w) : Within scripts bound v :=
  ⟨h.scripts.trans hw.scripts, Nat.le_trans h.unspent_le hw.unspent_le⟩

/-- Changes that agree on workspaces within a bound agree when they are made one after the other. -/
theorem foldl_congr {α : Type} {scripts : List (Text × List Reaction)} {bound : Nat}
    {f g : Workspace → α → Workspace} (hf : ∀ w a, SameSetup w (f w a))
    (hfg : ∀ (w : Workspace) a, w.Within scripts bound → f w a = g w a) :
    ∀ (l : List α) (w : Workspace), w.Within scripts bound → l.foldl f w = l.foldl g w
  | [], _, _ => rfl
  | a :: rest, w, hw => by
      rw [List.foldl_cons, List.foldl_cons, ← hfg w a hw]
      exact foldl_congr hf hfg rest _ ((hf w a).within hw)

section

/-! Two ways to refresh agree on workspaces with some scripts and few of them unspent. -/

variable {scripts : List (Text × List Reaction)} {bound : Nat} {first second : Change Bool}
  (hsetup : ∀ w, SameSetup w (first w).1)
  (hagree : ∀ w : Workspace, w.scripts = scripts → w.unspent < bound → first w = second w)

include hsetup hagree

theorem reactAll_congr (observer : Text) : ∀ (reactions : List Reaction) (w : Workspace),
    w.scripts = scripts → (.refresh ∈ reactions → w.unspent < bound) →
    w.reactAll first observer reactions = w.reactAll second observer reactions
  | [], _, _, _ => rfl
  | r :: rest, w, hscripts, hbound => by
      have hr : w.react first observer r = w.react second observer r := by
        cases r with
        | refresh => simp only [react, hagree w hscripts (hbound List.mem_cons_self)]
        | _ => rfl
      have hsame := kept_sameSetup.react hsetup observer w r
      rw [reactAll, reactAll, ← hr]
      split
      next v heq =>
        rw [heq] at hsame
        refine reactAll_congr observer rest v (hsame.scripts.trans hscripts) fun hrefresh => ?_
        exact Nat.lt_of_le_of_lt hsame.unspent_le (hbound (List.mem_cons_of_mem _ hrefresh))
      next v heq => rfl

theorem call_congr {w : Workspace} (hw : w.Within scripts bound) (observer : Text) :
    w.call first observer = w.call second observer :=
  reactAll_congr hsetup hagree observer _ _ hw.scripts fun hrefresh =>
    Nat.lt_of_lt_of_le (unspent_called_lt hrefresh) hw.unspent_le

theorem callSubscriber_congr {w : Workspace} (hw : w.Within scripts bound) (observer : Text) :
    w.callSubscriber first observer = w.callSubscriber second observer := by
  unfold callSubscriber
  rw [call_congr hsetup hagree hw]

theorem callListener_congr {w : Workspace} (hw : w.Within scripts bound) (listener : Listener) :
    w.callListener first listener = w.callListener second listener := by
  cases listener with
  | outline =>
    exact foldl_congr (kept_sameSetup.callSubscriber hsetup sameSetup_called)
      (fun v o hv => callSubscriber_congr hsetup hagree hv o) w.subscribers w hw
  | observer name =>
    unfold callListener
    simp only [call_congr hsetup hagree hw]

theorem notify_congr {w : Workspace} (hw : w.Within scripts bound) :
    w.notify first = w.notify second :=
  foldl_congr (kept_sameSetup.callListener hsetup sameSetup_called)
    (fun _ l hv => callListener_congr hsetup hagree hv l) w.listeners w hw

theorem refreshIndex_congr {w : Workspace} (hw : w.Within scripts bound) (roots : List Text)
    (settings : Settings) :
    w.refreshIndex first idle roots settings = w.refreshIndex second idle roots settings := by
  have hrebuild := rebuild_sameSetup roots settings w
  unfold refreshIndex
  cases hv : w.rebuild idle roots settings with
  | mk v result =>
    rw [hv] at hrebuild
    match result with
    | .ok true => simp only [notify_congr hsetup hagree (hrebuild.within hw)]
    | .ok false => rfl
    | .error f => rfl

end

/-- The refresh that observers make while refreshes may nest once less. -/
def innermost : Change Bool := fun w => (w, .ok false)

theorem refreshWithin_zero (w : Workspace) :
    w.refreshWithin 0 = (w.report [.refreshing w.roots.length]).refreshIndex innermost idle w.roots
      w.settings := rfl

theorem refreshWithin_succ (depth : Nat) (w : Workspace) :
    w.refreshWithin (depth + 1) = (w.report [.refreshing w.roots.length]).refreshIndex
      (refreshWithin depth) idle w.roots w.settings := rfl

/-- Where no script is unspent, all ways to refresh agree below that. -/
theorem agree_below_zero {scripts : List (Text × List Reaction)} {first second : Change Bool}
    (w : Workspace) (_ : w.scripts = scripts) (h : w.unspent < 0) : first w = second w :=
  absurd h (Nat.not_lt_zero _)

/-- Any depth down to the last unspent script gives the same refresh. -/
theorem refreshWithin_eq : ∀ (depth other : Nat) (w : Workspace), w.unspent ≤ depth →
    w.unspent ≤ other → w.refreshWithin depth = w.refreshWithin other
  | 0, 0, _, _, _ => rfl
  | 0, other + 1, w, hdepth, _ => by
      rw [refreshWithin_zero, refreshWithin_succ]
      exact refreshIndex_congr (w := w.report _) kept_sameSetup.refl agree_below_zero ⟨rfl, hdepth⟩
        _ _
  | depth + 1, 0, w, _, hother => by
      rw [refreshWithin_zero, refreshWithin_succ]
      exact refreshIndex_congr (w := w.report _) (refreshWithin_sameSetup depth) agree_below_zero
        ⟨rfl, hother⟩ _ _
  | depth + 1, other + 1, w, hdepth, hother => by
      have hagree : ∀ v : Workspace, v.scripts = w.scripts → v.unspent < w.unspent →
          v.refreshWithin depth = v.refreshWithin other :=
        fun v _ hv => refreshWithin_eq depth other v (by omega) (by omega)
      rw [refreshWithin_succ, refreshWithin_succ]
      exact refreshIndex_congr (w := w.report _) (refreshWithin_sameSetup depth) hagree
        ⟨rfl, Nat.le_refl _⟩ _ _

theorem unspent_le_length (w : Workspace) : w.unspent ≤ w.scripts.length := List.countP_le_length

/-- **A refresh by an observer is a refresh like any other.** -/
theorem nestedRefresh_eq_refresh (w : Workspace) : nestedRefresh w = refresh w := by
  have hdeeper : nestedRefresh w = w.refreshWithin (w.scripts.length + 1) :=
    refreshWithin_eq _ _ w w.unspent_le_length (Nat.le_succ_of_le w.unspent_le_length)
  -- the scripts are those of `w`, so the depth at which an observer starts is the same
  have hagree : ∀ v : Workspace, v.scripts = w.scripts → v.unspent < w.unspent + 1 →
      v.refreshWithin w.scripts.length = nestedRefresh v := by
    intro v hscripts _
    rw [← hscripts]
    rfl
  rw [hdeeper, refreshWithin_succ]
  exact refreshIndex_congr (w := w.report _) (refreshWithin_sameSetup _) hagree
    ⟨rfl, Nat.le_succ _⟩ _ _

theorem refresh_sameSetup (w : Workspace) : SameSetup w w.refresh.1 := by
  rw [← nestedRefresh_eq_refresh]
  exact refreshWithin_sameSetup _ w

/-- A refresh calls observers that refresh in turn. -/
theorem refresh_eq (w : Workspace) :
    w.refresh = (w.report [.refreshing w.roots.length]).refreshIndex refresh idle w.roots
      w.settings := by
  have hnested : refresh = nestedRefresh := funext fun v => (nestedRefresh_eq_refresh v).symm
  conv_rhs => rw [hnested]
  rfl

/-! ## 4. Observers that do not refresh -/

/-- Whether no script refreshes the workspace. -/
def Quiet (w : Workspace) : Prop := ∀ s ∈ w.scripts, .refresh ∉ s.2

theorem unspent_of_quiet {w : Workspace} (h : w.Quiet) : w.unspent = 0 := by
  refine List.countP_eq_zero.mpr fun s hs => ?_
  simp [h s hs]

/-- Whether a workspace has the same setup and the same index. -/
structure SameIndex (w v : Workspace) : Prop extends SameSetup w v where
  index : v.index = w.index

theorem kept_sameIndex : Kept SameIndex where
  refl w := ⟨kept_sameSetup.refl w, rfl⟩
  trans h k := ⟨kept_sameSetup.trans h.toSameSetup k.toSameSetup, k.index.trans h.index⟩
  report w ns := ⟨kept_sameSetup.report w ns, rfl⟩
  record w o := ⟨kept_sameSetup.record w o, rfl⟩
  watch w change := ⟨kept_sameSetup.watch w change, rfl⟩

/-- Calls of observers that do not refresh leave the index alone. -/
theorem notify_sameIndex_of_quiet {w : Workspace} (h : w.Quiet) {nested : Change Bool}
    (hnested : ∀ v, SameSetup v (nested v).1) : SameIndex w (w.notify nested) := by
  have hnone : w.notify nested = w.notify innermost :=
    notify_congr hnested agree_below_zero ⟨rfl, Nat.le_of_eq (unspent_of_quiet h)⟩
  rw [hnone]
  exact kept_sameIndex.notify kept_sameIndex.refl (fun v o => ⟨sameSetup_called v o, rfl⟩) w

end Marginalia.Workspace
