/-
Marginalia.Proofs.Workspace.Schedule — a workspace acts by schedules.

`Rounds` speaks of refreshes, rounds and observers that overlap in any way, and
`Rounds.Refreshes` and its companions say which turns belong to what is done.
Here every operation of a workspace is shown to take just these turns, from any
state that fits the workspace, whatever else is under way there. So what holds
after every schedule holds in a workspace, and whom its rounds call is whom the
schedule says.

* `Fits` ties a state to a workspace: the index, who watches and who was
  called, in order, are the same.
* `Enacts` is for what is done between the turns of others, `Serves` for what a
  round does with its queue, and `Performs` for a refresh, whose answer is the
  stage at which its own call ends (`Stage.Answers`).
* A round serves its queue if the refreshes that observers make in it perform.
  Such a refresh spends a script, so refreshes perform by induction on the
  scripts that are left (`refresh_performs`).
-/
import Marginalia.Proofs.Workspace.Conduct
import Marginalia.Proofs.Workspace.Nesting

namespace Marginalia

/-- Whether a state shows what a workspace shows: the index, who watches and who was called. -/
structure Rounds.Fits (s : Rounds) (w : Workspace) : Prop where
  index : s.overlap.index = w.index
  watchers : s.toWatchers = w.toWatchers
  called : w.called = s.observersCalled.reverse

namespace Rounds.Fits

variable {s : Rounds} {w : Workspace} (h : s.Fits w)

include h

theorem listeners : s.listeners = w.listeners := congrArg Watchers.listeners h.watchers

theorem subscribers : s.subscribers = w.subscribers := congrArg Watchers.subscribers h.watchers

/-- What is reported does not show. -/
theorem report (ns : List Notice) : s.Fits (w.report ns) := ⟨h.index, h.watchers, h.called⟩

theorem watch (change : Watching) : (s.watch change).Fits (w.watch change) :=
  ⟨h.index, congrArg (·.after change) h.watchers, h.called⟩

theorem left (r call : Nat) (queue : List Callee) : (s.left r call queue).Fits w :=
  ⟨h.index, h.watchers, h.called⟩

/-- What is noticed without an observer being called does not show. -/
theorem noticed {happening : Happening} (hnone : happening.observer? = none) :
    (s.noticed happening).Fits w := by
  refine ⟨h.index, h.watchers, ?_⟩
  rw [observersCalled_noticed_of_none hnone]
  exact h.called

/-- Observers do the same where a state fits. -/
theorem reactionsOf_eq (observer : Text) :
    Conduct.scripted w.scripts observer s = reactionsOf w.scripts w.called observer := by
  rw [Conduct.scripted, reactionsOf, reactionsOf, h.called, List.contains_reverse]

end Rounds.Fits

namespace Workspace

open Rounds (Acts Completes Does Follows Gathers Grown Refreshes traceOf withCall)

/-! ## 1. Schedules with a frame -/

/-- Whether one workspace becomes another by a schedule of some kind, whatever else is under way. -/
def Enacts (kind : Rounds → List Turn → Rounds → Prop) (w v : Workspace) : Prop :=
  ∀ s : Rounds, s.Fits w →
    ∃ turns t, kind s turns t ∧ Genuine turns ∧ t.Fits v ∧ Grown s t

section

variable {kind other both : Rounds → List Turn → Rounds → Prop} {w v u : Workspace}

/-- What does not show takes no turns. -/
theorem Enacts.still (hfits : ∀ {s : Rounds}, s.Fits w → s.Fits v)
    (hkind : ∀ s : Rounds, kind s [] s) : Enacts kind w v :=
  fun s h => ⟨[], s, hkind s, genuine_nil, hfits h, .of_eq rfl rfl⟩

theorem Enacts.of_fits (h : Enacts kind v u) (hfits : ∀ {s : Rounds}, s.Fits w → s.Fits v) :
    Enacts kind w u :=
  fun s hs => h s (hfits hs)

theorem Enacts.report (h : Enacts kind w v) (ns : List Notice) : Enacts kind w (v.report ns) := by
  intro s hfits
  obtain ⟨turns, t, hkind, hgenuine, hend, hgrown⟩ := h s hfits
  exact ⟨turns, t, hkind, hgenuine, hend.report ns, hgrown⟩

theorem Enacts.imp (h : Enacts kind w v)
    (himp : ∀ {s t : Rounds} {turns : List Turn}, kind s turns t → other s turns t) :
    Enacts other w v := by
  intro s hfits
  obtain ⟨turns, t, hkind, hrest⟩ := h s hfits
  exact ⟨turns, t, himp hkind, hrest⟩

theorem Enacts.trans (h : Enacts kind w v) (k : Enacts other v u)
    (happend : ∀ {s t x : Rounds} {turns later : List Turn}, kind s turns t → other t later x →
      both s (turns ++ later) x) : Enacts both w u := by
  intro s hfits
  obtain ⟨turns, t, hkind, hgenuine, hend, hgrown⟩ := h s hfits
  obtain ⟨later, x, hother, hgenuine', hend', hgrown'⟩ := k t hend
  exact ⟨turns ++ later, x, happend hkind hother, hgenuine.append hgenuine', hend',
    hgrown.trans hgrown'⟩

/-- A change of who watches is a turn of its own. -/
theorem Enacts.watch {change : Watching} (h : Enacts kind (w.watch change) v)
    (hcons : ∀ {s t : Rounds} {turns : List Turn}, kind (s.watch change) turns t →
      other s (.watch change :: turns) t) : Enacts other w v := by
  intro s hfits
  obtain ⟨turns, t, hkind, hgenuine, hend, hgrown⟩ := h _ (hfits.watch change)
  exact ⟨_, t, hcons hkind, hgenuine.cons (by simp), hend, ⟨hgrown.calls, hgrown.rounds⟩⟩

end

/-- Whether one workspace becomes another by the turns of a refresh that answers with a result. The
refresh is the next one to be started, and all that is new when it is over is over too. -/
def Performs (conduct : Conduct) (meanwhile : List Deed) (w v : Workspace)
    (answer : Except Fault Bool) : Prop :=
  ∀ s : Rounds, s.Fits w → ∃ turns t stage, Refreshes conduct meanwhile s turns t answer ∧
    stage.Answers answer ∧ Genuine turns ∧ t.Fits v ∧
    Grown (withCall s (w.index.started + 1) stage) t

section

variable {conduct : Conduct} {meanwhile : List Deed} {w v u : Workspace}
  {answer : Except Fault Bool}

theorem Performs.enacts (h : Performs conduct meanwhile w v answer) :
    Enacts (Refreshes conduct meanwhile · · · answer) w v := by
  intro s hfits
  obtain ⟨turns, t, stage, hrefresh, hanswers, hgenuine, hend, hgrown⟩ := h s hfits
  have hnew := Rounds.grown_withCall s (w.index.started + 1) hanswers.hasEnded
  exact ⟨turns, t, hrefresh, hgenuine, hend, hnew.trans hgrown⟩

/-- What only reports comes before a refresh as if it were part of it. -/
theorem Performs.of_report {ns : List Notice}
    (h : Performs conduct meanwhile (w.report ns) v answer) :
    Performs conduct meanwhile w v answer :=
  fun s hfits => h s (hfits.report ns)

end

/-! ## 2. Rounds -/

/-- Whether one workspace becomes another while a round goes through its queue down to a rest. -/
def Serves (conduct : Conduct) (queue rest : List Callee) (w v : Workspace) : Prop :=
  ∀ (s : Rounds) (r call : Nat), s.Fits w → s.rounds[r]? = some ⟨call, some queue⟩ →
    ∃ turns t, (∀ later x, Completes conduct r t later x →
        Completes conduct r s (turns ++ later) x) ∧
      Genuine turns ∧ t.Fits v ∧ Grown (s.left r call rest) t

section

variable {conduct : Conduct} {w v u : Workspace} {queue queue' rest : List Callee}

theorem serves_nil (conduct : Conduct) (w : Workspace) (queue : List Callee) :
    Serves conduct queue queue w w := by
  intro s r call hfits hround
  rw [Rounds.left_self hround]
  exact ⟨[], s, fun later x hlater => hlater, genuine_nil, hfits, .of_eq rfl rfl⟩

theorem Serves.report (h : Serves conduct queue rest w v) (ns : List Notice) :
    Serves conduct queue rest w (v.report ns) := by
  intro s r call hfits hround
  obtain ⟨turns, t, hserves, hgenuine, hend, hgrown⟩ := h s r call hfits hround
  exact ⟨turns, t, hserves, hgenuine, hend.report ns, hgrown⟩

theorem Serves.trans (h : Serves conduct queue queue' w v) (k : Serves conduct queue' rest v u) :
    Serves conduct queue rest w u := by
  intro s r call hfits hround
  obtain ⟨turns, t, hserves, hgenuine, hend, hgrown⟩ := h s r call hfits hround
  have hthere : (s.left r call queue').rounds[r]? = some ⟨call, some queue'⟩ := by
    rw [Rounds.getElem?_left hround, if_pos rfl]
  obtain ⟨later, x, hserves', hgenuine', hend', hgrown'⟩ :=
    k t r call hend (hgrown.getElem?_rounds hthere)
  refine ⟨turns ++ later, x, fun last y hlast => ?_, hgenuine.append hgenuine', hend', ?_⟩
  · rw [List.append_assoc]
    exact hserves _ y (hserves' last y hlast)
  · have hleft := hgrown.left (List.getElem?_eq_some_iff.mp hthere).1 call rest
    rw [Rounds.left_left] at hleft
    exact hleft.trans hgrown'

/-- A round calls the outline: its subscribers are next. -/
theorem serves_outline (conduct : Conduct) (rest : List Callee) (w : Workspace) :
    Serves conduct (.listener .outline :: rest) (w.subscribers.map .subscriber ++ rest) w w := by
  intro s r call hfits hround
  have hstep : s.step? (.call r) = some ((s.left r call
      (w.subscribers.map .subscriber ++ rest)).noticed
      (.called r (.listener .outline) s.overlap.index)) := by
    simp [Rounds.step?, hround, Rounds.following, hfits.subscribers]
  exact ⟨[.call r], _, fun later x hlater => .outline (by simp [Rounds.next?, hround]) hstep hlater,
    genuine_nil.cons (by simp), (hfits.left r call _).noticed rfl, .of_eq rfl rfl⟩

end

/-- A call that did not come to its end leaves its trace, and nothing else. -/
theorem exists_trace {s : Rounds} {w : Workspace} {r call : Nat} {queue : List Callee}
    (hfits : s.Fits w) (hround : s.rounds[r]? = some ⟨call, some queue⟩) (ended : Bool) :
    ∃ t, s.run? (traceOf r ended) = some t ∧ Genuine (traceOf r ended) ∧ t.Fits w ∧ Grown s t := by
  cases ended with
  | true => exact ⟨s, rfl, genuine_nil, hfits, .of_eq rfl rfl⟩
  | false =>
    have hstep : s.step? (.fail r) = some (s.noticed (.failed r)) := by
      simp [Rounds.step?, hround]
    exact ⟨_, Rounds.run?_cons_of hstep rfl, genuine_nil.cons (by simp), hfits.noticed rfl,
      .of_eq rfl rfl⟩

section

/-! Observers refresh by turns as long as scripts are left. -/

variable {scripts : List (Text × List Reaction)} {bound : Nat} {nested : Change Bool}
  (hsetup : ∀ w, SameSetup w (nested w).1)
  (hnested : ∀ w : Workspace, w.scripts = scripts → w.unspent < bound →
    Enacts (Refreshes (.scripted scripts) [] · · · (nested w).2) w (nested w).1)

include hsetup hnested

/-- An observer takes the turns of its reactions: each of them is one case of `Rounds.Acts`. -/
theorem reactAll_enacts (observer : Text) : ∀ (reactions : List Reaction) (w : Workspace),
    w.scripts = scripts → (.refresh ∈ reactions → w.unspent < bound) →
    Enacts (Acts (.scripted scripts) reactions · · · (w.reactAll nested observer reactions).2) w
      (w.reactAll nested observer reactions).1
  | [], w, _, _ => .still id fun _ => .nil
  | .record :: rest, w, hscripts, hbound => by
      have hrest := reactAll_enacts observer rest (w.record observer) hscripts
        fun hrefresh => hbound (List.mem_cons_of_mem _ hrefresh)
      exact (hrest.imp .record).of_fits fun h => ⟨h.index, h.watchers, h.called⟩
  | .fail :: _, w, _, _ => .still id fun _ => .fail
  | .watch change :: rest, w, hscripts, hbound => by
      have hrest := reactAll_enacts observer rest (w.watch change) hscripts
        fun hrefresh => hbound (List.mem_cons_of_mem _ hrefresh)
      exact Enacts.watch hrest .watch
  | .refresh :: rest, w, hscripts, hbound => by
      have hrefresh := hnested w hscripts (hbound List.mem_cons_self)
      have hsame := hsetup w
      rw [reactAll]
      simp only [react]
      cases hv : nested w with
      | mk v result =>
        rw [hv] at hrefresh hsame
        cases result with
        | error f => exact hrefresh.imp .fault
        | ok answer =>
          have hrest := reactAll_enacts observer rest v (hsame.scripts.trans hscripts) fun hmem =>
            Nat.lt_of_le_of_lt hsame.unspent_le (hbound (List.mem_cons_of_mem _ hmem))
          exact hrefresh.trans hrest .refresh

/-- A round calls an observer, who acts before the next one is called. -/
theorem call_serves (callee : Callee) {observer : Text}
    (hobserver : callee.observer? = some observer) (rest : List Callee) {w : Workspace}
    (hw : w.Within scripts bound) :
    Serves (.scripted scripts) (callee :: rest) rest w (w.call nested observer).1 := by
  obtain ⟨rfl, hbound⟩ := hw
  intro s r call hfits hround
  have hnone : s.following callee = [] :=
    Rounds.following_of_ne s (by rintro rfl; cases hobserver)
  let begun := (s.left r call rest).noticed (.called r callee s.overlap.index)
  have hcall : s.step? (.call r) = some begun := by simp [Rounds.step?, hround, hnone, begun]
  have hbegun : begun.Fits { w with called := observer :: w.called } := by
    refine ⟨hfits.index, hfits.watchers, ?_⟩
    have hcalled : (s.left r call rest).observersCalled = s.observersCalled := rfl
    rw [Rounds.observersCalled_noticed, hcalled, Happening.observer?, hobserver,
      Option.toList_some, List.reverse_concat, ← hfits.called]
  have hround' : begun.rounds[r]? = some ⟨call, some rest⟩ :=
    (Rounds.getElem?_left hround rest r).trans (if_pos rfl)
  -- the script is run from the state in which the call has been made
  obtain ⟨turns, t, hacts, hgenuine, hend, hgrown⟩ := reactAll_enacts hsetup hnested observer
    (reactionsOf w.scripts w.called observer) { w with called := observer :: w.called } rfl
    (fun hrefresh => Nat.lt_of_lt_of_le (unspent_called_lt hrefresh) hbound) begun hbegun
  obtain ⟨x, htrace, hgenuine', hend', hgrown'⟩ :=
    exists_trace hend (hgrown.getElem?_rounds hround') (w.call nested observer).2
  refine ⟨.call r :: (turns ++ traceOf r (w.call nested observer).2), x, fun later y hlater => ?_,
    Genuine.cons (hgenuine.append hgenuine') (by simp), hend', ?_⟩
  · rw [List.cons_append, List.append_assoc]
    refine .observer (by simp [Rounds.next?, hround]) hobserver hcall ?_ htrace hlater
    rw [hfits.reactionsOf_eq observer]
    exact hacts
  · exact ⟨(hgrown.trans hgrown').calls, (hgrown.trans hgrown').rounds⟩

theorem callSubscriber_serves {w : Workspace} (hw : w.Within scripts bound) (observer : Text)
    (rest : List Callee) : Serves (.scripted scripts) (.subscriber observer :: rest) rest w
      (w.callSubscriber nested observer) := by
  have hcall := call_serves hsetup hnested (.subscriber observer) rfl rest hw
  unfold callSubscriber
  split
  next v heq => rwa [heq] at hcall
  next v heq =>
    rw [heq] at hcall
    exact hcall.report _

omit hsetup hnested in
/-- Calls that are made one after the other. -/
theorem serves_foldl {α : Type} {callee : α → Callee} {f : Workspace → α → Workspace}
    (hsame : ∀ w a, SameSetup w (f w a))
    (hf : ∀ (w : Workspace) a rest, w.Within scripts bound →
      Serves (.scripted scripts) (callee a :: rest) rest w (f w a)) (rest : List Callee) :
    ∀ (l : List α) (w : Workspace), w.Within scripts bound →
      Serves (.scripted scripts) (l.map callee ++ rest) rest w (l.foldl f w)
  | [], w, _ => serves_nil _ w rest
  | a :: others, w, hw =>
      (hf w a _ hw).trans (serves_foldl hsame hf rest others (f w a) ((hsame w a).within hw))

theorem callListener_serves {w : Workspace} (hw : w.Within scripts bound) (listener : Listener)
    (rest : List Callee) : Serves (.scripted scripts) (.listener listener :: rest) rest w
      (w.callListener nested listener) := by
  cases listener with
  | outline =>
    have hsubscribers := serves_foldl (kept_sameSetup.callSubscriber hsetup sameSetup_called)
      (fun v o last hv => callSubscriber_serves hsetup hnested hv o last) rest w.subscribers w hw
    exact (serves_outline _ rest w).trans hsubscribers
  | observer name =>
    have hcall := call_serves hsetup hnested (.listener (.observer name)) rfl rest hw
    unfold callListener
    simp only
    split
    next v heq => rwa [heq] at hcall
    next v heq =>
      rw [heq] at hcall
      exact hcall.report _

/-- A round that is due copies the listeners, and goes on until nobody is left. -/
theorem exists_completes {w : Workspace} (hw : w.Within scripts bound) {s : Rounds} {r call : Nat}
    (hfits : s.Fits w) (hround : s.rounds[r]? = some ⟨call, none⟩) :
    ∃ begun turns t, s.step? (.copy r) = some begun ∧
      Completes (.scripted scripts) r begun turns t ∧ Genuine turns ∧ t.Fits (w.notify nested) ∧
      Grown (s.left r call []) t := by
  have hserves := serves_foldl (kept_sameSetup.callListener hsetup sameSetup_called)
    (fun v l last hv => callListener_serves hsetup hnested hv l last) [] w.listeners w hw
  rw [List.append_nil] at hserves
  let begun := s.left r call (w.listeners.map .listener)
  have hstep : s.step? (.copy r) = some begun := by
    simp [Rounds.step?, hround, hfits.listeners, begun]
  have hround' : begun.rounds[r]? = some ⟨call, some (w.listeners.map .listener)⟩ := by
    rw [Rounds.getElem?_left hround, if_pos rfl]
  obtain ⟨turns, t, hcompletes, hgenuine, hend, hgrown⟩ :=
    hserves begun r call (hfits.left r call _) hround'
  rw [Rounds.left_left] at hgrown
  have hover : (s.left r call []).rounds[r]? = some ⟨call, some []⟩ := by
    rw [Rounds.getElem?_left hround, if_pos rfl]
  have hnobody := hcompletes [] t (.nil (hgrown.getElem?_rounds hover))
  rw [List.append_nil] at hnobody
  exact ⟨begun, turns, t, hstep, hnobody, hgenuine, hend, hgrown⟩

end

/-! ## 3. Rebuilds -/

section

variable {conduct : Conduct} {during : Change Unit} {meanwhile done : List Deed} {s : Rounds}
  {w v : Workspace}

/-- What a refresh gathers can be gathered. -/
theorem gathered_of_gatherRoots {roots : List Text} {settings : Settings}
    {records : List FileRecord} (h : w.gatherRoots during roots settings = (v, .ok records)) :
    Gathered records := by
  obtain ⟨files, u, hfiles, -, hrecords, -⟩ := gatherRoots_of_ok (congrArg Prod.snd h)
  exact gathered_of_gather hfiles hrecords

/-- What is done while a refresh gathers is done after the enumeration, if that succeeds. -/
theorem gatherRoots_enacts {u : Workspace}
    (hduring : ∀ ns, Enacts (Follows conduct meanwhile) (u.report ns) (during (u.report ns)).1)
    (roots : List Text) (settings : Settings) :
    ∃ done, (done = meanwhile ∨ done = [] ∧
        ∀ records, (u.gatherRoots during roots settings).2 = .ok records → records = []) ∧
      Enacts (Follows conduct done) u (u.gatherRoots during roots settings).1 := by
  unfold gatherRoots
  simp only [follow]
  have henumerated := hduring (candidates u.disk settings u.limit [] roots).notices
  cases hfiles : (candidates u.disk settings u.limit [] roots).result with
  | error e =>
    exact ⟨[], .inr ⟨rfl, by simp⟩, .still (fun h => h.report _) fun _ => .nil⟩
  | ok files =>
    refine ⟨meanwhile, .inl rfl, ?_⟩
    simp only
    cases hv : during (u.report (candidates u.disk settings u.limit [] roots).notices) with
    | mk v result =>
      rw [hv] at henumerated
      have hdone : Enacts (Follows conduct meanwhile) u v :=
        henumerated.of_fits fun h => h.report _
      cases result with
      | error e => exact hdone
      | ok _ => exact hdone.report _

/-- A refresh starts, and comes up with a result. -/
theorem exists_gathers (result : Except Fault (List FileRecord))
    (hdone : done = meanwhile ∨ done = [] ∧ ∀ records, result = .ok records → records = [])
    (h : Enacts (Follows conduct done) w.start v) (hfits : s.Fits w)
    (hgathered : ∀ records, result = .ok records → Gathered records) :
    ∃ turns t, Gathers conduct meanwhile s turns t result ∧ Genuine turns ∧ t.Fits v ∧
      Grown (withCall s (w.index.started + 1) (.ofResult result)) t := by
  let started : Rounds := { s with overlap := s.overlap.started }
  have hstart : s.step? (.index .start) = some started := Rounds.step?_index rfl rfl
  have hstarted : started.Fits w.start :=
    ⟨congrArg Index.start hfits.index, hfits.watchers, hfits.called⟩
  obtain ⟨turns, t, hfollows, hgenuine, hend, hgrown⟩ := h started hstarted
  have hgathering : Grown (withCall s (w.index.started + 1) .gathering) t := by
    rw [← hfits.index]
    exact ⟨hgrown.calls, hgrown.rounds⟩
  have hgather := Rounds.step?_gather hgathering result
  have hlast : Genuine [.index (.gather s.overlap.calls.length result)] := by
    refine genuine_nil.cons fun call records heq => ?_
    obtain ⟨-, rfl⟩ := Move.gather.inj (Turn.index.inj heq)
    exact hgathered records rfl
  exact ⟨_, _, .intro hdone hstart hfollows hgather,
    Genuine.cons (hgenuine.append hlast) (by simp), ⟨hend.index, hend.watchers, hend.called⟩,
    hgathering.advance _ _⟩

end

/-! ## 4. Refreshes -/

section

variable {scripts : List (Text × List Reaction)} {bound : Nat} {nested : Change Bool}
  {meanwhile done : List Deed} {during : Change Unit} {roots : List Text} {settings : Settings}
  {w v : Workspace}

/-- Whatever is within bounds stays so if that is kept by what happens meanwhile. -/
theorem kept_within (scripts : List (Text × List Reaction)) (bound : Nat) :
    Kept fun w v => w.Within scripts bound → v.Within scripts bound where
  refl _ := id
  trans h k hw := k (h hw)
  report w ns := (kept_sameSetup.report w ns).within
  record w o := (kept_sameSetup.record w o).within
  watch w change := (kept_sameSetup.watch w change).within

/-- What follows gathering. -/
theorem conclude_performs (hsetup : ∀ w, SameSetup w (nested w).1)
    (hnested : ∀ w : Workspace, w.scripts = scripts → w.unspent < bound →
      Enacts (Refreshes (.scripted scripts) [] · · · (nested w).2) w (nested w).1)
    {records : List FileRecord} (hdone : done = meanwhile ∨ done = [] ∧ records = [])
    (h : Enacts (Follows (.scripted scripts) done) w.start v) (hv : v.Within scripts bound)
    (hrecords : Gathered records)
    (hrebuild : w.rebuild during roots settings = v.conclude (w.index.started + 1) records) :
    Performs (.scripted scripts) meanwhile w (w.refreshIndex nested during roots settings).1
      (w.refreshIndex nested during roots settings).2 := by
  intro s hfits
  obtain ⟨turns, t, hgathers, hgenuine, hend, hgrown⟩ :=
    exists_gathers (.ok records) (by simpa using hdone) h hfits (by simpa using hrecords)
  unfold refreshIndex
  rw [hrebuild, conclude_eq]
  by_cases hnewer : w.index.started + 1 < v.index.started
  · have hconclude := Rounds.step?_supersede hgrown (by rwa [hend.index])
    rw [if_pos hnewer]
    exact ⟨_, _, .returned records false, .superseded hgathers hconclude rfl, rfl,
      hgenuine.append (genuine_nil.cons (by simp)), ⟨hend.index, hend.watchers, hend.called⟩,
      hgrown.advance _ _⟩
  · obtain ⟨due, hconclude, hindex, hwatchers, hcalled, hround, hover⟩ :=
      Rounds.exists_commit hgrown (by rwa [hend.index])
    have hdue : due.Fits (v.committed (w.index.started + 1) records) := by
      refine ⟨?_, hwatchers.trans hend.watchers, ?_⟩
      · rw [hindex, hend.index, committed_index]
      · rw [hcalled]
        exact hend.called
    have hcommitted : (v.committed (w.index.started + 1) records).Within scripts bound :=
      ⟨hv.scripts, hv.unspent_le⟩
    obtain ⟨begun, later, u, hcopy, hcompletes, hgenuine', hend', hgrown'⟩ :=
      exists_completes hsetup hnested hcommitted hdue hround
    have hround' : Genuine (.index (.conclude s.overlap.calls.length) :: .copy t.rounds.length ::
        later) := Genuine.cons (Genuine.cons hgenuine' (by simp)) (by simp)
    rw [if_neg hnewer]
    exact ⟨_, u, .returned records true, .commit hgathers hconclude hcopy hcompletes, rfl,
      hgenuine.append hround', hend', hover.trans hgrown'⟩

/-- **The step lemma.** A refresh of the index takes the turns of a refresh, whatever happens
meanwhile and whatever observers do. -/
theorem refreshIndex_performs (hsetup : ∀ w, SameSetup w (nested w).1)
    (hnested : ∀ w : Workspace, w.scripts = scripts → w.unspent < bound →
      Enacts (Refreshes (.scripted scripts) [] · · · (nested w).2) w (nested w).1)
    (hkeeps : ∀ w : Workspace, w.Within scripts bound → (during w).1.Within scripts bound)
    (hduring : ∀ w : Workspace, w.Within scripts bound →
      Enacts (Follows (.scripted scripts) meanwhile) w (during w).1)
    (roots : List Text) (settings : Settings) {w : Workspace} (hw : w.Within scripts bound) :
    Performs (.scripted scripts) meanwhile w (w.refreshIndex nested during roots settings).1
      (w.refreshIndex nested during roots settings).2 := by
  have hstart : w.start.Within scripts bound := ⟨hw.scripts, hw.unspent_le⟩
  by_cases hroots : roots.isEmpty = true
  · refine conclude_performs hsetup hnested (.inr ⟨rfl, rfl⟩) ?_ (v := w.start.report [.noRoots])
      ⟨hstart.scripts, hstart.unspent_le⟩ gathered_nil (rebuild_of_empty hroots)
    exact .still (fun h => h.report _) fun _ => .nil
  · have hmeanwhile : ∀ ns, Enacts (Follows (.scripted scripts) meanwhile) (w.start.report ns)
        (during (w.start.report ns)).1 :=
      fun ns => hduring _ ⟨hstart.scripts, hstart.unspent_le⟩
    obtain ⟨done, hdone, hgathering⟩ := gatherRoots_enacts hmeanwhile roots settings
    have hwithin := (kept_within scripts bound).gatherRoots hkeeps roots settings w.start hstart
    cases hgather : w.start.gatherRoots during roots settings with
    | mk v result =>
      rw [hgather] at hdone hgathering hwithin
      cases result with
      | ok records =>
        exact conclude_performs hsetup hnested (by simpa using hdone) hgathering hwithin
          (gathered_of_gatherRoots hgather) (rebuild_of_records hroots hgather)
      | error f =>
        intro s hfits
        obtain ⟨turns, t, hgathers, hgenuine, hend, hgrown⟩ :=
          exists_gathers (.error f) hdone hgathering hfits (by simp)
        unfold refreshIndex
        rw [rebuild_of_fault hroots hgather]
        exact ⟨turns, t, .failed f, .fault hgathers, rfl, hgenuine, hend, hgrown⟩

end

/-- **The run lemma.** A refresh takes the turns of a refresh, by induction on the scripts that are
left. -/
theorem refresh_performs (w : Workspace) :
    Performs (.scripted w.scripts) [] w w.refresh.1 w.refresh.2 := by
  have hw : (w.report [.refreshing w.roots.length]).Within w.scripts w.unspent :=
    ⟨rfl, Nat.le_refl _⟩
  rw [refresh_eq]
  refine (refreshIndex_performs refresh_sameSetup (fun v hscripts hless => ?_) (fun _ => id)
    (fun _ _ => .still id fun _ => .nil) w.roots w.settings hw).of_report
  have hperforms := refresh_performs v
  rw [hscripts] at hperforms
  exact hperforms.enacts
termination_by w.unspent

section

variable {scripts : List (Text × List Reaction)} {meanwhile : List Deed} (during : Change Unit)
  (hkeeps : ∀ w : Workspace, w.scripts = scripts → (during w).1.scripts = scripts)
  (hduring : ∀ w : Workspace, w.scripts = scripts →
    Enacts (Follows (.scripted scripts) meanwhile) w (during w).1)

theorem within_length {w : Workspace} (h : w.scripts = scripts) :
    w.Within scripts scripts.length :=
  ⟨h, h ▸ w.unspent_le_length⟩

include hkeeps hduring

/-- So does a refresh during which other things are done, observers and all. -/
theorem refreshIndex_performs_amid (roots : List Text) (settings : Settings) {w : Workspace}
    (hw : w.scripts = scripts) :
    Performs (.scripted scripts) meanwhile w (w.refreshIndex nestedRefresh during roots settings).1
      (w.refreshIndex nestedRefresh during roots settings).2 := by
  have hnested : nestedRefresh = refresh := funext nestedRefresh_eq_refresh
  rw [hnested]
  refine refreshIndex_performs refresh_sameSetup
    (fun v hscripts _ => ?_) (fun v hv => within_length (hkeeps v hv.scripts))
    (fun v hv => hduring v hv.scripts) roots settings (within_length hw)
  have hperforms := refresh_performs v
  rw [hscripts] at hperforms
  exact hperforms.enacts

end

theorem refreshIndexFor_performs (roots : List Text) (settings : Settings) (w : Workspace) :
    Performs (.scripted w.scripts) [] w (w.refreshIndexFor roots settings).1
      (w.refreshIndexFor roots settings).2 :=
  refreshIndex_performs_amid idle (fun _ => id) (fun _ _ => .still id fun _ => .nil) roots settings
    rfl

end Workspace

end Marginalia
