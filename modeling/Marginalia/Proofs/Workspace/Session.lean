/-
Marginalia.Proofs.Workspace.Session — what holds in the course of time.

Whatever happens to a workspace is a schedule of rounds. Every deed takes the
turns that belong to it (`afterDeed_enacts`), so from a new workspace on its
deeds follow one another in a schedule from the opening state whose end fits,
with every refresh ended and every round over (`exists_schedule`). What holds
after every schedule is handed over to workspaces that way.

* `Overlap.Sound` gives that the generation never goes back, and that what is
  visible was gathered, hence is coherent.
* `Rounds.Orderly` gives whom the rounds have called.
* What has been closed stays closed, so the rounds that come later call no
  subscriber (`exists_schedule_closed`).
-/
import Marginalia.Proofs.Workspace.Deeds
import Marginalia.Proofs.Workspace.Orderly
import Marginalia.Proofs.Workspace.Schedule

namespace Marginalia

namespace Rounds

/-- What is visible after a schedule is coherent. -/
theorem coherent_of_run? {listeners : List Listener} {subscribers : List Text} {turns : List Turn}
    {s : Rounds} (hrun : (opening listeners subscribers).run? turns = some s)
    (hgenuine : Genuine turns) : Coherent s.overlap.index.snapshot := by
  have hsound := Overlap.sound_of_run? Overlap.Sound.init (run?_overlap hrun)
  rcases hsound.origin with hinit | ⟨call, hcall⟩
  · have hempty : s.overlap.index.snapshot = {} := congrArg Prod.fst hinit
    rw [hempty]
    exact gathered_nil.tidy.coherent
  · have hgathered := hsound.gathered hcall rfl
    rw [List.nil_append, List.mem_filterMap] at hgathered
    obtain ⟨turn, hturn, hmove⟩ := hgathered
    cases turn with
    | index move =>
      obtain rfl := Option.some.inj hmove
      exact (hgenuine hturn).tidy.coherent
    | _ => cases hmove

end Rounds

namespace Workspace

open Rounds (Does Follows opening)

/-! ## 1. Deeds are schedules -/

theorem answer_enacts (w : Workspace) (request : Request) :
    Enacts (Does (.scripted w.scripts) (.request request)) w (w.answer request).1 := by
  cases hleads : w.leadsToRefresh request with
  | true =>
    obtain ⟨roots, settings, hinstalled⟩ := exists_installed_eq w request
    have hrefresh : Enacts (Does (.scripted w.scripts) (.request request))
        { w with roots, settings } (refresh { w with roots, settings }).1 :=
      (refresh_performs _).enacts.imp .request
    rw [answer_of_leadsToRefresh hleads, hinstalled]
    exact hrefresh.of_fits fun h => ⟨h.index, h.watchers, h.called⟩
  | false =>
    obtain ⟨ns, hanswer⟩ := answer_of_not_leadsToRefresh hleads
    rw [hanswer]
    exact .still (fun h => h.report ns) fun _ => .idle hleads

theorem refreshIndexFor_enacts (roots : List Text) (settings : Settings) (w : Workspace) :
    Enacts (Does (.scripted w.scripts) (.refreshIndex roots settings)) w
      (w.refreshIndexFor roots settings).1 :=
  (refreshIndexFor_performs roots settings w).enacts.imp .refreshIndex

theorem watch_enacts (conduct : Conduct) (change : Watching) (w : Workspace) :
    Enacts (Does conduct (.watch change)) w (w.watch change) := by
  have hstill : Enacts (fun s turns t => turns = [] ∧ t = s) (w.watch change) (w.watch change) :=
    .still id fun _ => ⟨rfl, rfl⟩
  refine hstill.watch ?_
  rintro s t turns ⟨rfl, rfl⟩
  exact .watch

/-- A newer refresh is a deed that is done meanwhile. -/
theorem raceRefresh_enacts (newerRoots : List Text) (newerSettings : Settings) (w : Workspace) :
    Enacts (Does (.scripted w.scripts) (.raceRefresh newerRoots newerSettings)) w
      (w.raceRefresh newerRoots newerSettings).1 := by
  have hkeeps : ∀ v : Workspace, v.scripts = w.scripts →
      (newerRefresh newerRoots newerSettings v).1.scripts = w.scripts :=
    fun v hv => (keptByDeeds_scripts.newerRefresh newerRoots newerSettings v).trans hv
  have hduring : ∀ v : Workspace, v.scripts = w.scripts →
      Enacts (Follows (.scripted w.scripts) [.refreshIndex newerRoots newerSettings]) v
        (newerRefresh newerRoots newerSettings v).1 := by
    intro v hv
    have hnewer := refreshIndexFor_enacts newerRoots newerSettings v
    rw [newerRefresh_fst, ← hv]
    exact hnewer.trans (.still id fun _ => .nil) .cons
  have hrace := refreshIndex_performs_amid (newerRefresh newerRoots newerSettings) hkeeps hduring
    w.roots w.settings (w := w.report [.refreshing w.roots.length]) rfl
  exact hrace.of_report.enacts.imp .raceRefresh

mutual

/-- **The step lemma.** A deed takes the turns that belong to it. -/
theorem afterDeed_enacts : ∀ (deed : Deed) (w : Workspace),
    Enacts (Does (.scripted w.scripts) deed) w (w.afterDeed deed)
  | .request request, w => answer_enacts w request
  | .refreshIndex roots settings, w => refreshIndexFor_enacts roots settings w
  | .refreshAmid meanwhile roots settings, w => by
      have hperforms := refreshIndex_performs_amid (fun v => (v.afterDeeds meanwhile, .ok ()))
        (fun v hv => (keptByDeeds_scripts.afterDeeds meanwhile v).trans hv)
        (fun v hv => hv ▸ afterDeeds_enacts meanwhile v) roots settings (w := w) rfl
      exact hperforms.enacts.imp .refreshAmid
  | .raceRefresh newerRoots newerSettings, w => raceRefresh_enacts newerRoots newerSettings w
  | .watch change, w => watch_enacts _ change w
  | .change _, _ => .still (fun h => ⟨h.index, h.watchers, h.called⟩) fun _ => .change

/-- **The run lemma.** Deeds take their turns one after the other. -/
theorem afterDeeds_enacts : ∀ (deeds : List Deed) (w : Workspace),
    Enacts (Follows (.scripted w.scripts) deeds) w (w.afterDeeds deeds)
  | [], _ => .still id fun _ => .nil
  | deed :: rest, w => by
      have hrest := afterDeeds_enacts rest (w.afterDeed deed)
      rw [keptByDeeds_scripts.afterDeed] at hrest
      exact (afterDeed_enacts deed w).trans hrest .cons

end

/-! ## 2. From a new workspace on -/

/-- Whether nothing has happened to a workspace yet, other than that somebody watches. -/
structure New (w : Workspace) : Prop where
  index : w.index = {}
  called : w.called = []
  outline_le : w.listeners.count .outline ≤ 1

theorem new_make (disk : Disk) (roots : List Text) (settings : Settings) (limit : Option Int)
    (scripts : List (Text × List Reaction)) : (make disk roots settings limit scripts).New := by
  rw [make, withRoots_eq]
  exact ⟨rfl, rfl, Nat.le_refl 1⟩

theorem New.fits {w : Workspace} (h : w.New) : (opening w.listeners w.subscribers).Fits w :=
  ⟨h.index.symm, rfl, h.called⟩

/-- All that has happened to a workspace is a schedule, and it is over. -/
theorem exists_schedule {w : Workspace} (h : w.New) (deeds : List Deed) :
    ∃ turns s, Follows (.scripted w.scripts) deeds (opening w.listeners w.subscribers) turns s ∧
      Genuine turns ∧ s.Fits (w.afterDeeds deeds) ∧ s.Finished := by
  obtain ⟨turns, s, hfollows, hgenuine, hend, hgrown⟩ := afterDeeds_enacts deeds w _ h.fits
  obtain ⟨calls, hcalls, hended⟩ := hgrown.calls
  obtain ⟨rounds, hrounds, hover⟩ := hgrown.rounds
  refine ⟨turns, s, hfollows, hgenuine, hend, ⟨?_, ?_⟩⟩
  · rw [hcalls]
    exact hended
  · rw [hrounds]
    exact hover

theorem afterDeeds_append : ∀ (first second : List Deed) (w : Workspace),
    w.afterDeeds (first ++ second) = (w.afterDeeds first).afterDeeds second
  | [], second, w => rfl
  | deed :: rest, second, w => by
      rw [List.cons_append, afterDeeds, afterDeeds, afterDeeds_append rest second]

/-- The generation of a workspace never goes back, and it is the number of a refresh that has
started. -/
theorem generation_mono {w : Workspace} (h : w.New) (deeds later : List Deed) :
    (w.afterDeeds deeds).index.generation ≤ (w.afterDeeds (deeds ++ later)).index.generation ∧
      (w.afterDeeds deeds).index.generation ≤ (w.afterDeeds deeds).index.started := by
  obtain ⟨turns, s, hfollows, -, hfits, -⟩ := exists_schedule h deeds
  obtain ⟨more, t, hmore, -, hend, -⟩ := afterDeeds_enacts later _ s hfits
  have hsound := Overlap.sound_of_run? Overlap.Sound.init (Rounds.run?_overlap hfollows.run?)
  rw [afterDeeds_append, ← hfits.index, ← hend.index]
  exact ⟨(hsound.run_mono (Rounds.run?_overlap hmore.run?)).2, hsound.generation_le⟩

/-- **What closing does.** When its outline has been closed, a workspace never has it listen again,
whatever is done later, and no refresh that takes effect from then on calls a subscriber. -/
theorem exists_schedule_closed {w : Workspace} (h : w.New) (deeds later : List Deed) :
    .outline ∉ ((w.afterDeeds deeds).close.afterDeeds later).listeners ∧
    ∃ turns more s t,
      Follows (.scripted w.scripts) deeds (opening w.listeners w.subscribers) turns s ∧
      s.Fits (w.afterDeeds deeds) ∧ Follows (.scripted w.scripts) later (s.watch .close) more t ∧
      t.Fits ((w.afterDeeds deeds).close.afterDeeds later) ∧
      ∀ r, s.rounds.length ≤ r → ∀ observer, .subscriber observer ∉ t.callsOf r := by
  obtain ⟨turns, s, hfollows, -, hfits, -⟩ := exists_schedule h deeds
  have hscripts : (w.afterDeeds deeds).close.scripts = w.scripts :=
    keptByDeeds_scripts.afterDeeds deeds w
  have hlater := afterDeeds_enacts later (w.afterDeeds deeds).close
  rw [hscripts] at hlater
  obtain ⟨more, t, hmore, -, hend, -⟩ := hlater _ (hfits.watch .close)
  have hsound := Rounds.sound_of_run? (Rounds.Sound.opening _ h.outline_le) hfollows.run?
  have hsound' : Rounds.Sound _ (turns ++ [.watch .close]) (s.watch .close) := hsound.step rfl
  have hnone := hsound.outline_not_mem_of_close rfl
  refine ⟨?_, turns, more, s, t, hfollows, hfits, hmore, hend, fun r hr observer => ?_⟩
  · rw [← hend.listeners]
    exact (Rounds.later_of_run? hmore.run?).2 hnone
  · exact hsound'.subscriber_not_mem hmore.run? hnone hr observer

/-! ## 3. Coherence -/

/-- **Everything that is read off an index agrees**, whatever happened to its workspace and to the
disk. It agrees at every moment of every schedule of refreshes, rounds and observers in which what
is gathered can be gathered. -/
theorem coherent_always :
    (∀ (w : Workspace) (deeds : List Deed), w.New →
      Coherent (w.afterDeeds deeds).index.snapshot) ∧
    (∀ (listeners : List Listener) (subscribers : List Text) (turns : List Turn) (s : Rounds),
      (opening listeners subscribers).run? turns = some s → Genuine turns →
      Coherent s.overlap.index.snapshot) := by
  have hschedules : ∀ (listeners : List Listener) (subscribers : List Text) (turns : List Turn)
      (s : Rounds), (opening listeners subscribers).run? turns = some s → Genuine turns →
      Coherent s.overlap.index.snapshot :=
    fun _ _ _ _ hrun hgenuine => Rounds.coherent_of_run? hrun hgenuine
  refine ⟨fun w deeds hnew => ?_, hschedules⟩
  obtain ⟨turns, s, hfollows, hgenuine, hfits, -⟩ := exists_schedule hnew deeds
  rw [← hfits.index]
  exact hschedules _ _ turns s hfollows.run? hgenuine

/-- Deeds of which the third is a refresh that is superseded, with a disk that is empty when it
comes to the scan, and the last one is a refresh that faults. -/
def eventful : List Deed :=
  [.request .refresh, .watch (.subscribe ['a']),
    .refreshAmid [.refreshIndex ["/w/lib".toList] pythonSettings, .change {}] ["/w".toList]
      pythonSettings,
    .change overlapping.disk, .request (.updateSettings unusable)]

/-- A file is found, found again, and read. -/
def foundTwice : List FileRecord := recordsOf overlapping.disk ["/w/a.py".toList]

theorem coherent_eventful :
    let w := make overlapping.disk ["w".toList] pythonSettings none [(['a'], [.fail])]
    let turns : List Turn :=
      [.index .start, .watch (.listen ['a']), .index .start,
        .index (.gather 1 (.error .zeroInPath)), .index (.gather 0 (.ok foundTwice)),
        .index .start, .index (.gather 2 (.ok foundTwice)), .index (.conclude 2),
        .index (.conclude 0)]
    w.New ∧ Coherent (w.afterDeeds eventful).index.snapshot ∧
      (w.afterDeeds eventful).index.snapshot.records.map (·.path) = ["/w/lib/c.py".toList] ∧
      Genuine turns ∧ ∃ s, (opening [.outline] []).run? turns = some s ∧
      Coherent s.overlap.index.snapshot ∧ s.overlap.index.snapshot = ⟨foundTwice⟩ := by
  intro w turns
  have hnew : w.New := new_make _ _ _ _ _
  have hgathered : Gathered foundTwice :=
    ⟨["/w/a.py".toList, "/w/a.py".toList], fun _ => overlapping.disk, by cbv⟩
  have hgenuine : Genuine turns := by
    intro call records hmem
    have hfound : records = foundTwice := by
      simp only [turns, List.mem_cons, Turn.index.injEq, Move.gather.injEq, reduceCtorEq,
        Except.ok.injEq, List.not_mem_nil, and_false, false_or, or_false] at hmem
      exact hmem.elim And.right And.right
    exact hfound ▸ hgathered
  obtain ⟨hsessions, hschedules⟩ := coherent_always
  refine ⟨hnew, hsessions w eventful hnew, by cbv, hgenuine, ?_⟩
  exact ⟨_, rfl, hschedules _ _ turns _ rfl hgenuine, rfl⟩

/-! ## 4. Rounds -/

/-- **Rounds of calls are orderly.** Every schedule keeps what `Rounds.Orderly` says, and what is
done to a workspace takes the turns that belong to it and no others: a refresh from any state that
fits, whatever is under way there, an observer's refresh like any other; every deed; and all that
happens from a new workspace on. Once the outline was closed, no round of a later refresh calls a
subscriber. -/
theorem rounds_orderly :
    (∀ (listeners : List Listener) (subscribers : List Text) (turns : List Turn) (s : Rounds),
      listeners.count .outline ≤ 1 → (opening listeners subscribers).run? turns = some s →
      Rounds.Orderly (opening listeners subscribers) turns s) ∧
    (∀ w : Workspace, Performs (.scripted w.scripts) [] w w.refresh.1 w.refresh.2 ∧
      nestedRefresh w = w.refresh) ∧
    (∀ (w : Workspace) (meanwhile : List Deed) (roots : List Text) (settings : Settings),
      let during : Change Unit := fun v => (v.afterDeeds meanwhile, .ok ())
      let refreshed := w.refreshIndex nestedRefresh during roots settings
      Performs (.scripted w.scripts) meanwhile w refreshed.1 refreshed.2) ∧
    (∀ (w : Workspace) (deed : Deed),
      Enacts (Does (.scripted w.scripts) deed) w (w.afterDeed deed)) ∧
    (∀ (w : Workspace) (deeds : List Deed), w.New → ∃ turns s,
      Follows (.scripted w.scripts) deeds (opening w.listeners w.subscribers) turns s ∧
      (opening w.listeners w.subscribers).run? turns = some s ∧ s.Fits (w.afterDeeds deeds) ∧
      s.Finished ∧ Rounds.Orderly (opening w.listeners w.subscribers) turns s) ∧
    (∀ (w : Workspace) (deeds later : List Deed), w.New →
      .outline ∉ ((w.afterDeeds deeds).close.afterDeeds later).listeners ∧
      ∃ turns more s t,
        Follows (.scripted w.scripts) deeds (opening w.listeners w.subscribers) turns s ∧
        s.Fits (w.afterDeeds deeds) ∧ Follows (.scripted w.scripts) later (s.watch .close) more t ∧
        t.Fits ((w.afterDeeds deeds).close.afterDeeds later) ∧
        ∀ r, s.rounds.length ≤ r → ∀ observer, .subscriber observer ∉ t.callsOf r) := by
  have horderly : ∀ (listeners : List Listener) (subscribers : List Text) (turns : List Turn)
      (s : Rounds), listeners.count .outline ≤ 1 →
      (opening listeners subscribers).run? turns = some s →
      Rounds.Orderly (opening listeners subscribers) turns s := by
    intro listeners subscribers turns s hcount hrun
    have hopening := Rounds.Sound.opening subscribers hcount
    exact Rounds.Sound.orderly hopening (Rounds.sound_of_run? hopening hrun)
  refine ⟨horderly, fun w => ⟨refresh_performs w, nestedRefresh_eq_refresh w⟩, ?_,
    fun w deed => afterDeed_enacts deed w, fun w deeds hnew => ?_,
    fun w deeds later hnew => exists_schedule_closed hnew deeds later⟩
  · intro w meanwhile roots settings during refreshed
    exact refreshIndex_performs_amid during (fun v hv => (keptByDeeds_scripts.afterDeeds meanwhile v).trans hv)
      (fun v hv => hv ▸ afterDeeds_enacts meanwhile v) roots settings rfl
  · obtain ⟨turns, s, hfollows, -, hfits, hfinished⟩ := exists_schedule hnew deeds
    have hrun := hfollows.run?
    exact ⟨turns, s, hfollows, hrun, hfits, hfinished, horderly _ _ turns s hnew.outline_le hrun⟩

/-- Three rounds. In the first one the subscriber `c` registers two observers, refreshes and fails;
the round of that refresh is made meanwhile, and its call of `a` fails. Then the outline is closed,
a refresh fails, `n` stops listening, and another refresh takes effect. -/
def nestedRounds : List Turn :=
  [.index .start, .index (.gather 0 (.ok [])), .index (.conclude 0), .copy 0, .call 0, .call 0,
    .watch (.subscribe ['d']), .watch (.listen ['n']),
    .index .start, .index (.gather 1 (.ok [])), .index (.conclude 1), .copy 1, .call 1, .call 1,
    .call 1, .call 1, .fail 1, .call 1,
    .fail 0, .call 0, .watch .close,
    .index .start, .index (.gather 2 (.error .zeroInPath)), .watch (.subscribe ['e']),
    .watch (.unlisten ['n']),
    .index .start, .index (.gather 3 (.ok [])), .index (.conclude 3), .copy 2, .call 2]

/-- After `nestedRounds`. -/
def afterNestedRounds : Rounds :=
  ((opening [.outline, .observer ['a']] [['c']]).run? nestedRounds).getD {}

/-- A workspace with the observers of the first of those rounds. -/
def nesting : Workspace :=
  (make overlapping.disk ["w".toList] pythonSettings none
    [(['c'], [.subscribe ['d'], .listen ['n'], .refresh, .fail]), (['a'], [.fail])]).listen ['a']
    |>.subscribe ['c']

theorem rounds_orderly_nested :
    let start := opening [.outline, .observer ['a']] [['c']]
    let closing : List Deed := [.request .refresh, .watch .close, .request .refresh]
    start.run? nestedRounds = some afterNestedRounds ∧
      Rounds.Orderly start nestedRounds afterNestedRounds ∧
      afterNestedRounds.rounds.map (·.call) = [0, 1, 3] ∧
      afterNestedRounds.callsOf 0
        = [.listener .outline, .subscriber ['c'], .listener (.observer ['a'])] ∧
      afterNestedRounds.callsOf 1
        = [.listener .outline, .subscriber ['c'], .subscriber ['d'], .listener (.observer ['a']),
          .listener (.observer ['n'])] ∧
      afterNestedRounds.callsOf 2 = [.listener (.observer ['a'])] ∧
      nesting.New ∧
      (nesting.afterDeeds closing).called
        = [['n'], ['n'], ['a'], ['a'], ['n'], ['a'], ['d'], ['c'], ['c']] ∧
      (∃ turns s, Follows (.scripted nesting.scripts) closing start turns s ∧
        s.Fits (nesting.afterDeeds closing) ∧ s.Finished ∧ Rounds.Orderly start turns s) ∧
      .outline ∉ (nesting.afterDeeds closing).listeners := by
  intro start closing
  have hrun : start.run? nestedRounds = some afterNestedRounds := by decide
  have hmade := new_make overlapping.disk ["w".toList] pythonSettings none
    [(['c'], [.subscribe ['d'], .listen ['n'], .refresh, .fail]), (['a'], [.fail])]
  have hnew : nesting.New := ⟨hmade.index, hmade.called, by decide⟩
  obtain ⟨hschedules, -, -, -, hsessions, hclosings⟩ := rounds_orderly
  have horderly := hschedules _ _ nestedRounds afterNestedRounds (by decide) hrun
  obtain ⟨turns, s, hfollows, -, hfits, hfinished, hsorderly⟩ := hsessions nesting closing hnew
  have hclosed := (hclosings nesting [.request .refresh] [.request .refresh] hnew).1
  exact ⟨hrun, horderly, by decide, by decide, by decide, by decide, hnew, by cbv,
    ⟨turns, s, hfollows, hfits, hfinished, hsorderly⟩, hclosed⟩

end Workspace

end Marginalia
