/-
Marginalia.Proofs.Workspace.Rounds — whom a round calls, and when it is made.

Rounds overlap with refreshes, with each other and with changes of who
watches. What a round calls is settled at two moments all the same: when it
copies the listeners, and when it calls the outline.

* `Overlap.Step.committedBy` says what a move of a refresh has to do with
  rounds, and `Step` what a turn can do.
* `Progress` says how far a round has come: it is due, or what it has called
  and what is left together are the listeners that it copied, or, once the
  outline was called, those with the subscribers of that moment put in
  (`inTurn`). The outline is among the listeners at most once, so there is one
  such moment.
* `Sound` is the invariant. The rounds are those of the refreshes that took
  effect, one each, and all of them have come as far as `Progress` says.
  `Sound.step` is the step lemma, `sound_of_run?` the run lemma.
-/
import Marginalia.Proofs.Index.Generation
import Marginalia.Workspace.Rounds

namespace Marginalia

/-! ## 1. Refreshes that took effect -/

namespace Overlap

/-- Whether a refresh has taken effect. -/
def HasCommitted (s : Overlap) (call : Nat) : Prop :=
  ∃ number records, s.calls[call]? = some ⟨number, .returned records true⟩

theorem hasCommitted_started (s : Overlap) (j : Nat) :
    s.started.HasCommitted j ↔ s.HasCommitted j := by
  simp only [HasCommitted, calls_started]
  split
  next => rfl
  next h =>
    have hnone : s.calls[j]? = none := List.getElem?_eq_none (Nat.le_of_not_lt h)
    rw [hnone]
    split <;> simp

theorem hasCommitted_advance {s : Overlap} {call number : Nat} {old stage : Stage}
    (h : s.calls[call]? = some ⟨number, old⟩) (index : Index) (j : Nat) :
    (s.advance call ⟨number, stage⟩ index).HasCommitted j ↔
      if call = j then ∃ records, stage = .returned records true else s.HasCommitted j := by
  simp only [HasCommitted, calls_advance h]
  split
  next => simp
  next => rfl

/-- A refresh that moves on without having taken effect, before or after, changes nothing about who
has. -/
theorem hasCommitted_advance_of_not {s : Overlap} {call number : Nat} {old stage : Stage}
    (h : s.calls[call]? = some ⟨number, old⟩) (hold : ∀ records, old ≠ .returned records true)
    (hstage : ∀ records, stage ≠ .returned records true) (index : Index) (j : Nat) :
    (s.advance call ⟨number, stage⟩ index).HasCommitted j ↔ s.HasCommitted j := by
  rw [hasCommitted_advance h]
  split
  next hj =>
    subst hj
    simp [HasCommitted, h, hold, hstage]
  next => rfl

/-- A move that lets no refresh take effect leaves alone what is visible. Another one lets one more
refresh take effect. -/
theorem Step.committedBy {s t : Overlap} {move : Move} (h : Step s move t) :
    (t.committedBy move = none ∧ t.index.visible = s.index.visible ∧
      ∀ j, t.HasCommitted j ↔ s.HasCommitted j) ∨
    ∃ call, t.committedBy move = some call ∧ ¬s.HasCommitted call ∧
      ∀ j, t.HasCommitted j ↔ j = call ∨ s.HasCommitted j := by
  cases h with
  | start => exact .inl ⟨rfl, rfl, hasCommitted_started s⟩
  | gather result hcall =>
    refine .inl ⟨rfl, rfl, fun j => hasCommitted_advance_of_not hcall (by simp) ?_ _ j⟩
    intro records
    cases result <;> simp [Stage.ofResult]
  | @supersede call number records hcall hnewer =>
    refine .inl ⟨?_, rfl, fun j => hasCommitted_advance_of_not hcall (by simp) (by simp) _ j⟩
    simp [Overlap.committedBy, calls_advance hcall]
  | @commit call number records hcall hlast =>
    refine .inr ⟨call, ?_, ?_, fun j => ?_⟩
    · simp [Overlap.committedBy, calls_advance hcall]
    · simp [HasCommitted, hcall]
    · rw [hasCommitted_advance hcall]
      by_cases hj : call = j
      · simp [hj]
      · simp [hj, Ne.symm hj]

end Overlap

/-- Whatever changes who watches does not make the outline listen more often. -/
theorem Watchers.count_outline_after_le (w : Watchers) (change : Watching) :
    (w.after change).listeners.count .outline ≤ w.listeners.count .outline := by
  cases change with
  | listen observer => simp [after]
  | unlisten observer => exact List.erase_sublist.count_le _
  | subscribe observer => exact Nat.le_refl _
  | unsubscribe observer => exact Nat.le_refl _
  | close => exact List.erase_sublist.count_le _

namespace Rounds

/-! ## 2. What a turn can do -/

/-- A turn from one state to another. -/
inductive Step (s : Rounds) : Turn → Rounds → Prop where
  | move {move : Move} {overlap : Overlap} (hstep : s.overlap.step? move = some overlap)
      (hnone : overlap.committedBy move = none) : Step s (.index move) { s with overlap }
  | commit {move : Move} {overlap : Overlap} {call : Nat}
      (hstep : s.overlap.step? move = some overlap)
      (hcommit : overlap.committedBy move = some call) :
      Step s (.index move) { s with
        overlap, rounds := s.rounds ++ [⟨call, none⟩]
        log := s.log ++ [.committed s.rounds.length] }
  | copy {round call : Nat} (hround : s.rounds[round]? = some ⟨call, none⟩) :
      Step s (.copy round) (s.left round call (s.listeners.map .listener))
  | call {round call : Nat} {callee : Callee} {rest : List Callee}
      (hround : s.rounds[round]? = some ⟨call, some (callee :: rest)⟩) :
      Step s (.call round) ((s.left round call (s.following callee ++ rest)).noticed
        (.called round callee s.overlap.index))
  | fail {round call : Nat} {queue : List Callee}
      (hround : s.rounds[round]? = some ⟨call, some queue⟩) :
      Step s (.fail round) (s.noticed (.failed round))
  | watch (change : Watching) : Step s (.watch change) (s.watch change)

theorem step_of_step? {s t : Rounds} {turn : Turn} (h : s.step? turn = some t) :
    Step s turn t := by
  cases turn with
  | index move =>
    obtain ⟨overlap, hstep, rfl⟩ := Option.map_eq_some_iff.mp h
    unfold moved
    split
    next hnone => exact .move hstep hnone
    next call hcommit => exact .commit hstep hcommit
  | copy round =>
    simp only [step?] at h
    split at h
    next hround =>
      obtain rfl := Option.some.inj h
      exact .copy hround
    next => cases h
  | call round =>
    simp only [step?] at h
    split at h
    next hround =>
      obtain rfl := Option.some.inj h
      exact .call hround
    next => cases h
  | fail round =>
    simp only [step?] at h
    split at h
    next hround =>
      obtain rfl := Option.some.inj h
      exact .fail hround
    next => cases h
  | watch change =>
    obtain rfl := Option.some.inj h
    exact .watch change

/-- The turns that are moves on the index are a schedule of refreshes. -/
theorem run?_overlap : ∀ {turns : List Turn} {s t : Rounds}, s.run? turns = some t →
    s.overlap.run? (turns.filterMap Turn.move?) = some t.overlap
  | [], s, t, h => by
      obtain rfl := Option.some.inj h
      rfl
  | turn :: rest, s, t, h => by
      rw [run?_cons] at h
      obtain ⟨u, hu, hrest⟩ := Option.bind_eq_some_iff.mp h
      have ih := run?_overlap hrest
      cases step_of_step? hu with
      | move hstep => simpa [Turn.move?, Overlap.run?_cons, hstep] using ih
      | commit hstep => simpa [Turn.move?, Overlap.run?_cons, hstep] using ih
      | copy => exact ih
      | call => exact ih
      | fail => exact ih
      | watch => exact ih

/-! ## 3. What a round has called -/

theorem getElem?_left {s : Rounds} {round call : Nat} {queue : Option (List Callee)}
    (h : s.rounds[round]? = some ⟨call, queue⟩) (rest : List Callee) (r : Nat) :
    (s.left round call rest).rounds[r]?
      = if round = r then some ⟨call, some rest⟩ else s.rounds[r]? := by
  have hlt : round < s.rounds.length := (List.getElem?_eq_some_iff.mp h).1
  rw [left, List.getElem?_set]
  by_cases hr : round = r
  · subst hr
    simp [hlt]
  · simp [hr]

/-- A round that goes on belongs to the same refresh. -/
theorem map_call_left {s : Rounds} {round call : Nat} {queue : Option (List Callee)}
    (h : s.rounds[round]? = some ⟨call, queue⟩) (rest : List Callee) :
    (s.left round call rest).rounds.map (·.call) = s.rounds.map (·.call) := by
  refine List.ext_getElem? fun r => ?_
  rw [List.getElem?_map, List.getElem?_map, getElem?_left h]
  split
  next hr =>
    subst hr
    rw [h]
    rfl
  next => rfl

/-- Whom something that is noticed shows to be called by a round. -/
theorem callsOf_noticed (s : Rounds) (happening : Happening) (r : Nat) :
    (s.noticed happening).callsOf r = s.callsOf r ++ (happening.callIn r).toList := by
  rw [callsOf, noticed, List.filterMap_append]
  rfl

theorem callsOf_noticed_of_none {happening : Happening} {r : Nat}
    (h : happening.callIn r = none) (s : Rounds) :
    (s.noticed happening).callsOf r = s.callsOf r := by
  rw [callsOf_noticed, h, Option.toList_none, List.append_nil]

theorem observersCalled_noticed (s : Rounds) (happening : Happening) :
    (s.noticed happening).observersCalled
      = s.observersCalled ++ happening.observer?.toList := by
  rw [observersCalled, noticed, List.filterMap_append]
  rfl

theorem observersCalled_noticed_of_none {happening : Happening} (h : happening.observer? = none)
    (s : Rounds) : (s.noticed happening).observersCalled = s.observersCalled := by
  rw [observersCalled_noticed, h, Option.toList_none, List.append_nil]

theorem callsOf_eq_nil {s : Rounds} {r : Nat} (h : ∀ happening ∈ s.log, happening.round ≠ r) :
    s.callsOf r = [] := by
  refine List.filterMap_eq_nil_iff.mpr fun happening hmem => ?_
  cases happening with
  | called round callee seen => exact if_neg (h _ hmem)
  | _ => rfl

theorem inTurn_append (first last : List Listener) (subscribers : List Text) :
    inTurn (first ++ last) subscribers = inTurn first subscribers ++ inTurn last subscribers :=
  List.flatMap_append

/-- Where the outline does not listen, the subscribers do not matter. -/
theorem inTurn_of_not_mem (subscribers : List Text) : ∀ {listeners : List Listener},
    .outline ∉ listeners → inTurn listeners subscribers = listeners.map .listener
  | [], _ => rfl
  | .outline :: _, h => absurd List.mem_cons_self h
  | .observer name :: rest, h => by
      have ih := inTurn_of_not_mem subscribers fun hrest => h (List.mem_cons_of_mem _ hrest)
      rw [List.map_cons, ← ih]
      rfl

/-- The outline is called once, and its subscribers are next. -/
theorem inTurn_of_called {listeners : List Listener} (subscribers : List Text)
    {called rest : List Callee} (hcount : listeners.count .outline ≤ 1)
    (hcalled : called ++ .listener .outline :: rest = listeners.map .listener)
    (hbefore : .listener .outline ∉ called) :
    .outline ∈ listeners ∧ .listener .outline ∉ rest ∧ inTurn listeners subscribers
      = called ++ .listener .outline :: (subscribers.map .subscriber ++ rest) := by
  obtain ⟨first, others, rfl, rfl, hothers⟩ := List.map_eq_append_iff.mp hcalled.symm
  obtain ⟨middle, last, rfl, hmiddle, rfl⟩ := List.map_eq_cons_iff.mp hothers
  obtain rfl := Callee.listener.inj hmiddle
  have hfirst : .outline ∉ first := fun h => hbefore (List.mem_map_of_mem h)
  have hlast : .outline ∉ last := by
    rw [List.count_append, List.count_cons_self] at hcount
    exact List.count_eq_zero.mp (by omega)
  refine ⟨by simp, by simpa using hlast, ?_⟩
  rw [inTurn_append, inTurn_of_not_mem _ hfirst]
  show _ ++ (.listener .outline :: subscribers.map .subscriber ++ inTurn last subscribers) = _
  rw [inTurn_of_not_mem _ hlast, List.cons_append]

theorem following_of_ne (s : Rounds) {callee : Callee} (h : callee ≠ .listener .outline) :
    s.following callee = [] := by
  unfold following
  split
  next => exact absurd rfl h
  next => rfl

/-! ## 4. The invariant -/

/-- How far a round has come in a schedule: who is left, if it has begun, and who was called. -/
inductive Progress (start : Rounds) (turns : List Turn) (r : Nat) :
    Option (List Callee) → List Callee → Prop where
  | due : Progress start turns r none []
  /-- The listeners are copied, and the outline is not called. -/
  | listeners {before after : List Turn} {u : Rounds} {called queue : List Callee}
      (hturns : turns = before ++ .copy r :: after) (hu : start.run? before = some u)
      (hcount : u.listeners.count .outline ≤ 1)
      (hcalled : called ++ queue = u.listeners.map .listener)
      (hbefore : .listener .outline ∉ called) : Progress start turns r (some queue) called
  /-- The outline is called. -/
  | outline {before middle after : List Turn} {u v : Rounds} {called queue : List Callee}
      (hturns : turns = before ++ .copy r :: (middle ++ .call r :: after))
      (hu : start.run? before = some u) (houtline : .outline ∈ u.listeners)
      (hv : start.run? (before ++ .copy r :: middle) = some v)
      (hnext : v.next? r = some (.listener .outline))
      (hcalled : called ++ queue = inTurn u.listeners v.subscribers)
      (hafter : .listener .outline ∉ queue) : Progress start turns r (some queue) called

theorem Progress.extend {start : Rounds} {turns : List Turn} {r : Nat}
    {queue : Option (List Callee)} {called : List Callee} (h : Progress start turns r queue called)
    (turn : Turn) : Progress start (turns ++ [turn]) r queue called := by
  cases h with
  | due => exact .due
  | @listeners before after _ _ _ hturns hu hcount hcalled hbefore =>
    have hlonger : turns ++ [turn] = before ++ .copy r :: (after ++ [turn]) := by
      rw [hturns, List.append_assoc, List.cons_append]
    exact .listeners hlonger hu hcount hcalled hbefore
  | @outline before middle after _ _ _ _ hturns hu houtline hv hnext hcalled hafter =>
    have hlonger : turns ++ [turn]
        = before ++ .copy r :: (middle ++ .call r :: (after ++ [turn])) := by
      rw [hturns, List.append_assoc, List.cons_append, List.append_assoc, List.cons_append]
    exact .outline hlonger hu houtline hv hnext hcalled hafter

theorem Progress.called_of_none {start : Rounds} {turns : List Turn} {r : Nat}
    {called : List Callee} (h : Progress start turns r none called) : called = [] := by
  cases h
  rfl

/-- What holds after a schedule. -/
structure Sound (start : Rounds) (turns : List Turn) (s : Rounds) : Prop where
  run : start.run? turns = some s
  /-- The outline listens at most once. -/
  outline_le : s.listeners.count .outline ≤ 1
  /-- No refresh has two rounds. -/
  nodup_rounds : (s.rounds.map (·.call)).Nodup
  /-- Those that took effect have one. -/
  mem_rounds : ∀ call, call ∈ s.rounds.map (·.call) ↔ s.overlap.HasCommitted call
  /-- Nothing is noticed about rounds that are not there. -/
  log_lt : ∀ happening ∈ s.log, happening.round < s.rounds.length
  progress : ∀ {r call : Nat} {queue : Option (List Callee)}, s.rounds[r]? = some ⟨call, queue⟩ →
    Progress start turns r queue (s.callsOf r)

namespace Sound

variable {start : Rounds} {turns : List Turn} {s t : Rounds} {turn : Turn}

theorem opening {listeners : List Listener} (subscribers : List Text)
    (hcount : listeners.count .outline ≤ 1) :
    Sound (opening listeners subscribers) [] (opening listeners subscribers) where
  run := rfl
  outline_le := hcount
  nodup_rounds := List.nodup_nil
  mem_rounds := by simp [Rounds.opening, Overlap.HasCommitted]
  log_lt := by simp [Rounds.opening]
  progress := by simp [Rounds.opening]

theorem log_lt_append {log : List Happening} {happening : Happening} {n : Nat}
    (h : ∀ x ∈ log, x.round < n) (hlast : happening.round < n) :
    ∀ x ∈ log ++ [happening], x.round < n := by
  intro x hx
  rcases List.mem_append.mp hx with hx | hx
  · exact h x hx
  · obtain rfl := List.mem_singleton.mp hx
    exact hlast

/-- A call moves the round on, whether it is the outline that is called or somebody else. -/
theorem progress_call (h : Sound start turns s) {round call : Nat} {callee : Callee}
    {rest : List Callee} (hround : s.rounds[round]? = some ⟨call, some (callee :: rest)⟩) :
    Progress start (turns ++ [.call round]) round (some (s.following callee ++ rest))
      (s.callsOf round ++ [callee]) := by
  have hold := h.progress hround
  generalize s.callsOf round = called at hold
  cases hold with
  | @listeners before after u _ _ hturns hu hcount hcalled hbefore =>
    have hlonger : turns ++ [.call round] = before ++ .copy round :: (after ++ [.call round]) := by
      rw [hturns, List.append_assoc, List.cons_append]
    by_cases hcallee : callee = .listener .outline
    · subst hcallee
      obtain ⟨houtline, hrest, hturn⟩ := inTurn_of_called s.subscribers hcount hcalled hbefore
      refine .outline hlonger hu houtline (hturns ▸ h.run) (by simp [next?, hround]) ?_ ?_
      · rw [hturn, List.append_assoc]
        rfl
      · simpa [following] using hrest
    · rw [following_of_ne s hcallee, List.nil_append]
      refine .listeners hlonger hu hcount ?_ ?_
      · rw [List.append_assoc]
        exact hcalled
      · simpa [hbefore] using Ne.symm hcallee
  | @outline before middle after u v _ _ hturns hu houtline hv hnext hcalled hafter =>
    have hlonger : turns ++ [.call round]
        = before ++ .copy round :: (middle ++ .call round :: (after ++ [.call round])) := by
      rw [hturns, List.append_assoc, List.cons_append, List.append_assoc, List.cons_append]
    -- the outline is no longer in the queue
    have hcallee : callee ≠ .listener .outline := fun heq => hafter (heq ▸ List.mem_cons_self)
    rw [following_of_ne s hcallee, List.nil_append]
    refine .outline hlonger hu houtline hv hnext ?_ ?_
    · rw [List.append_assoc]
      exact hcalled
    · exact fun hrest => hafter (List.mem_cons_of_mem _ hrest)

/-- A turn that leaves alone the rounds and what they have called. -/
theorem unchanged (h : Sound start turns s) (hrun : start.run? (turns ++ [turn]) = some t)
    (houtline : t.listeners.count .outline ≤ s.listeners.count .outline)
    (hrounds : t.rounds = s.rounds)
    (hcommitted : ∀ call, t.overlap.HasCommitted call ↔ s.overlap.HasCommitted call)
    (hlog : ∀ x ∈ t.log, x.round < s.rounds.length) (hcalls : ∀ r, t.callsOf r = s.callsOf r) :
    Sound start (turns ++ [turn]) t where
  run := hrun
  outline_le := Nat.le_trans houtline h.outline_le
  nodup_rounds := hrounds ▸ h.nodup_rounds
  mem_rounds call := by
    rw [hrounds, hcommitted]
    exact h.mem_rounds call
  log_lt := hrounds ▸ hlog
  progress := by
    intro r call queue hround
    rw [hcalls]
    exact (h.progress (hrounds ▸ hround)).extend turn

/-- A turn that moves one round on and leaves alone what the others have called. -/
theorem goes_on (h : Sound start turns s) (hrun : start.run? (turns ++ [turn]) = some t)
    {round call : Nat} {queue : Option (List Callee)} {rest : List Callee}
    (hround : s.rounds[round]? = some ⟨call, queue⟩)
    (hlisteners : t.listeners = s.listeners) (hoverlap : t.overlap = s.overlap)
    (hrounds : t.rounds = (s.left round call rest).rounds)
    (hlog : ∀ x ∈ t.log, x.round < s.rounds.length)
    (hprogress : Progress start (turns ++ [turn]) round (some rest) (t.callsOf round))
    (hothers : ∀ r, round ≠ r → t.callsOf r = s.callsOf r) :
    Sound start (turns ++ [turn]) t where
  run := hrun
  outline_le := hlisteners ▸ h.outline_le
  nodup_rounds := by
    rw [hrounds, map_call_left hround]
    exact h.nodup_rounds
  mem_rounds := by
    rw [hrounds, map_call_left hround, hoverlap]
    exact h.mem_rounds
  log_lt := by
    rw [hrounds, left, List.length_set]
    exact hlog
  progress := by
    intro r c q hr
    rw [hrounds, getElem?_left hround] at hr
    split at hr
    next heq =>
      subst heq
      obtain ⟨-, rfl⟩ := Round.mk.inj (Option.some.inj hr)
      exact hprogress
    next hne =>
      rw [hothers r hne]
      exact (h.progress hr).extend turn

/-- A move that lets a refresh take effect: a further round is due. -/
theorem commits (h : Sound start turns s) (hrun : start.run? (turns ++ [turn]) = some t)
    {call : Nat} (hlisteners : t.listeners = s.listeners)
    (hrounds : t.rounds = s.rounds ++ [⟨call, none⟩])
    (hlog : t.log = s.log ++ [.committed s.rounds.length])
    (hnew : ¬s.overlap.HasCommitted call)
    (hcommitted : ∀ j, t.overlap.HasCommitted j ↔ j = call ∨ s.overlap.HasCommitted j) :
    Sound start (turns ++ [turn]) t where
  run := hrun
  outline_le := hlisteners ▸ h.outline_le
  nodup_rounds := by
    rw [hrounds, List.map_append, List.nodup_append]
    refine ⟨h.nodup_rounds, List.Pairwise.cons (by simp) .nil, ?_⟩
    rintro c hc d hd rfl
    obtain rfl := List.mem_singleton.mp hd
    exact hnew ((h.mem_rounds _).mp hc)
  mem_rounds := by
    intro c
    rw [hrounds, hcommitted, ← h.mem_rounds, List.map_append, List.mem_append, or_comm]
    simp
  log_lt := by
    rw [hlog, hrounds, List.length_append, List.length_singleton]
    exact log_lt_append (fun x hx => Nat.lt_succ_of_lt (h.log_lt x hx)) (Nat.lt_succ_self _)
  progress := by
    intro r c queue hround
    have hcalls : t.callsOf r = s.callsOf r := by
      rw [callsOf, hlog]
      exact callsOf_noticed_of_none rfl s
    rw [hcalls]
    rw [hrounds, List.getElem?_append] at hround
    split at hround
    next => exact (h.progress hround).extend turn
    next hle =>
      -- the new round: nothing is noticed about it yet
      rw [List.getElem?_singleton] at hround
      split at hround
      next =>
        obtain ⟨-, rfl⟩ := Round.mk.inj (Option.some.inj hround)
        rw [callsOf_eq_nil fun x hx => ?_]
        · exact .due
        · exact Nat.ne_of_lt (Nat.lt_of_lt_of_le (h.log_lt x hx) (Nat.le_of_not_lt hle))
      next => cases hround

/-- **The step lemma.** Every turn keeps the invariant. -/
theorem step (h : Sound start turns s) (hturn : s.step? turn = some t) :
    Sound start (turns ++ [turn]) t := by
  have hrun : start.run? (turns ++ [turn]) = some t := by
    rw [run?_append, h.run, Option.bind_some, run?_cons, hturn]
    rfl
  cases step_of_step? hturn with
  | move hstep hnone =>
    obtain ⟨-, -, hcommitted⟩ | ⟨call, hcommit, -⟩ := (Overlap.step_of_step? hstep).committedBy
    · exact h.unchanged hrun (Nat.le_refl _) rfl hcommitted h.log_lt fun _ => rfl
    · rw [hnone] at hcommit
      cases hcommit
  | commit hstep hcommit =>
    obtain ⟨hnone, -⟩ | ⟨call, hcommit', hnew, hcommitted⟩ :=
      (Overlap.step_of_step? hstep).committedBy
    · rw [hnone] at hcommit
      cases hcommit
    · obtain rfl := Option.some.inj (hcommit.symm.trans hcommit')
      exact h.commits hrun rfl rfl rfl hnew hcommitted
  | @copy round call hround =>
    have hprogress : Progress start (turns ++ [.copy round]) round
        (some (s.listeners.map .listener)) (s.callsOf round) := by
      rw [(h.progress hround).called_of_none]
      exact .listeners rfl h.run h.outline_le rfl List.not_mem_nil
    exact h.goes_on hrun hround rfl rfl rfl h.log_lt hprogress fun _ _ => rfl
  | @call round call callee rest hround =>
    have hlt : round < s.rounds.length := (List.getElem?_eq_some_iff.mp hround).1
    have hcalls := callsOf_noticed (s.left round call (s.following callee ++ rest))
      (.called round callee s.overlap.index)
    refine h.goes_on hrun hround rfl rfl rfl (log_lt_append h.log_lt hlt) ?_ fun r hne => ?_
    · rw [hcalls, Happening.callIn, if_pos rfl]
      exact h.progress_call hround
    · rw [hcalls, Happening.callIn, if_neg hne, Option.toList_none, List.append_nil]
      rfl
  | @fail round call queue hround =>
    have hlt : round < s.rounds.length := (List.getElem?_eq_some_iff.mp hround).1
    exact h.unchanged hrun (Nat.le_refl _) rfl (fun _ => .rfl) (log_lt_append h.log_lt hlt)
      fun _ => callsOf_noticed_of_none rfl s
  | watch change =>
    exact h.unchanged hrun (s.toWatchers.count_outline_after_le change) rfl (fun _ => .rfl) h.log_lt
      fun _ => rfl

end Sound

/-- **The run lemma.** The invariant holds after every schedule. -/
theorem sound_of_run? {start : Rounds} : ∀ {later turns : List Turn} {s t : Rounds},
    Sound start turns s → s.run? later = some t → Sound start (turns ++ later) t
  | [], turns, s, t, h, hrun => by
      obtain rfl := Option.some.inj hrun
      rwa [List.append_nil]
  | turn :: rest, turns, s, t, h, hrun => by
      rw [run?_cons] at hrun
      obtain ⟨u, hu, hrest⟩ := Option.bind_eq_some_iff.mp hrun
      have hnext := sound_of_run? (h.step hu) hrest
      rwa [List.append_assoc] at hnext

end Rounds

end Marginalia
