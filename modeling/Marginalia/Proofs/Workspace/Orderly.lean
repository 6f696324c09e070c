/-
Marginalia.Proofs.Workspace.Orderly — what may be relied on in a schedule of
rounds.

The guarantees are read off the invariant of the state that a schedule leads
to (`Sound.orderly`).

* `CalledInTurn` names the two moments that settle whom a round calls, and the
  states of the schedule at these moments. What is added or removed later, in
  the round or elsewhere, does not show.
* Once the outline is closed it never listens again, and a round that begins
  then has no subscribers. A round that began before belongs to a refresh that
  had taken effect by then (`Sound.subscriber_not_mem`).
* Counting in `inTurn` turns "in order, as often as registered" into "exactly
  once" for whoever is registered once.
-/
import Marginalia.Proofs.Workspace.Rounds

namespace Marginalia.Rounds

/-! ## 1. Going on -/

/-- What a schedule leads to goes on from what its beginning leads to. -/
theorem run?_after {s t u : Rounds} {before after : List Turn} (hu : s.run? before = some u)
    (ht : s.run? (before ++ after) = some t) : u.run? after = some t := by
  rwa [run?_append, hu, Option.bind_some] at ht

/-- What the beginning of a schedule leads to is on its way. -/
theorem mem_trail {after : List Turn} : ∀ {before : List Turn} {s u : Rounds},
    s.run? before = some u → u ∈ s.trail (before ++ after)
  | [], s, u, h => by
      obtain rfl := Option.some.inj h
      cases after <;> exact List.mem_cons_self
  | turn :: rest, s, u, h => by
      rw [run?_cons] at h
      obtain ⟨t, ht, hrest⟩ := Option.bind_eq_some_iff.mp h
      rw [List.cons_append, trail, ht]
      exact List.mem_cons_of_mem _ (mem_trail hrest)

/-- A round that begins is there. -/
theorem lt_of_copy {s t : Rounds} {r : Nat} (h : s.step? (.copy r) = some t) :
    r < s.rounds.length := by
  simp only [step?] at h
  split at h
  next hround => exact (List.getElem?_eq_some_iff.mp hround).1
  next => cases h

/-- Who fails is noticed, and that is all. -/
theorem eq_noticed_of_fail {s t : Rounds} {r : Nat} (h : s.step? (.fail r) = some t) :
    t = s.noticed (.failed r) := by
  simp only [step?] at h
  split at h
  next => exact (Option.some.inj h).symm
  next => cases h

/-- No turn takes rounds away, and once the outline does not listen it never does again. -/
theorem later_of_run? : ∀ {turns : List Turn} {s t : Rounds}, s.run? turns = some t →
    s.rounds.map (·.call) <+: t.rounds.map (·.call) ∧
      (.outline ∉ s.listeners → .outline ∉ t.listeners)
  | [], s, t, h => by
      obtain rfl := Option.some.inj h
      exact ⟨List.prefix_rfl, id⟩
  | turn :: rest, s, t, h => by
      rw [run?_cons] at h
      obtain ⟨u, hu, hrest⟩ := Option.bind_eq_some_iff.mp h
      obtain ⟨hcalls, houtline⟩ := later_of_run? hrest
      have hstep : s.rounds.map (·.call) <+: u.rounds.map (·.call) ∧
          (.outline ∉ s.listeners → .outline ∉ u.listeners) := by
        cases step_of_step? hu with
        | move => exact ⟨List.prefix_rfl, id⟩
        | commit =>
          refine ⟨?_, id⟩
          rw [List.map_append]
          exact List.prefix_append _ _
        | copy hround => exact ⟨map_call_left hround _ ▸ List.prefix_rfl, id⟩
        | call hround => exact ⟨map_call_left hround _ ▸ List.prefix_rfl, id⟩
        | fail => exact ⟨List.prefix_rfl, id⟩
        | watch change =>
          refine ⟨List.prefix_rfl, fun hnone => List.count_eq_zero.mp ?_⟩
          have hle := s.toWatchers.count_outline_after_le change
          exact Nat.le_zero.mp (List.count_eq_zero.mpr hnone ▸ hle)
      exact ⟨hstep.1.trans hcalls, fun hnone => houtline (hstep.2 hnone)⟩

/-! ## 2. Counting -/

theorem count_listener_inTurn (listener : Listener) (subscribers : List Text) :
    ∀ listeners : List Listener,
      (inTurn listeners subscribers).count (.listener listener) = listeners.count listener
  | [] => rfl
  | .outline :: rest => by
      have ih := count_listener_inTurn listener subscribers rest
      have hnone : (subscribers.map Callee.subscriber).count (.listener listener) = 0 :=
        List.count_eq_zero.mpr (by simp)
      show (.listener .outline :: (subscribers.map .subscriber ++ inTurn rest subscribers)).count _
        = _
      simp [List.count_cons, hnone, ih]
  | .observer name :: rest => by
      have ih := count_listener_inTurn listener subscribers rest
      show (.listener (.observer name) :: inTurn rest subscribers).count _ = _
      simp [List.count_cons, ih]

theorem count_map_subscriber (observer : Text) (subscribers : List Text) :
    (subscribers.map Callee.subscriber).count (.subscriber observer)
      = subscribers.count observer := by
  rw [List.count, List.countP_map, List.count]
  congr 1
  funext other
  rw [Bool.eq_iff_iff]
  simp

theorem count_subscriber_inTurn (observer : Text) (subscribers : List Text) :
    ∀ listeners : List Listener, (inTurn listeners subscribers).count (.subscriber observer)
      = listeners.count .outline * subscribers.count observer
  | [] => by simp [inTurn]
  | .outline :: rest => by
      have ih := count_subscriber_inTurn observer subscribers rest
      show (.listener .outline :: (subscribers.map .subscriber ++ inTurn rest subscribers)).count _
        = _
      rw [List.count_cons_of_ne (by simp), List.count_append, count_map_subscriber, ih,
        List.count_cons_self, Nat.add_mul, Nat.one_mul, Nat.add_comm]
  | .observer name :: rest => by
      have ih := count_subscriber_inTurn observer subscribers rest
      show (.listener (.observer name) :: inTurn rest subscribers).count _ = _
      rw [List.count_cons_of_ne (by simp), List.count_cons_of_ne (by simp), ih]

/-! ## 3. Rounds -/

/-- Whether a round has called the listeners of the moment when it began and, if the outline was
among them, the subscribers of the moment when it called the outline. -/
def CalledInTurn (start : Rounds) (turns : List Turn) (s : Rounds) (r : Nat) : Prop :=
  ∃ (before after : List Turn) (u : Rounds) (subscribers : List Text),
    turns = before ++ .copy r :: after ∧ start.run? before = some u ∧
    s.callsOf r = inTurn u.listeners subscribers ∧
    (.outline ∈ u.listeners → ∃ (middle later : List Turn) (v : Rounds),
      after = middle ++ .call r :: later ∧
      start.run? (before ++ .copy r :: middle) = some v ∧
      v.next? r = some (.listener .outline) ∧ v.subscribers = subscribers)

namespace Sound

variable {start : Rounds} {turns : List Turn} {s : Rounds}

theorem calledInTurn (h : Sound start turns s) {r call : Nat}
    (hround : s.rounds[r]? = some ⟨call, some []⟩) : CalledInTurn start turns s r := by
  have hover := h.progress hround
  unfold CalledInTurn
  generalize s.callsOf r = called at hover
  cases hover with
  | @listeners before after u _ _ hturns hu hcount hcalled hbefore =>
    rw [List.append_nil] at hcalled
    have hnone : .outline ∉ u.listeners := fun hmem =>
      hbefore (hcalled ▸ List.mem_map_of_mem hmem)
    refine ⟨before, after, u, [], hturns, hu, ?_, fun hmem => absurd hmem hnone⟩
    rw [inTurn_of_not_mem _ hnone, hcalled]
  | @outline before middle after u v _ _ hturns hu houtline hv hnext hcalled hafter =>
    rw [List.append_nil] at hcalled
    exact ⟨before, _, u, v.subscribers, hturns, hu, hcalled,
      fun _ => ⟨middle, after, v, rfl, hv, hnext, rfl⟩⟩

/-- A round of a refresh that took effect when the outline was closed calls no subscriber. -/
theorem subscriber_not_mem {before after : List Turn} {u : Rounds} (h : Sound start before u)
    (hrun : u.run? after = some s) (hclosed : .outline ∉ u.listeners) {r : Nat}
    (hr : u.rounds.length ≤ r) (observer : Text) : .subscriber observer ∉ s.callsOf r := by
  have hs := sound_of_run? h hrun
  cases hround : s.rounds[r]? with
  | none =>
    have hle := List.getElem?_eq_none_iff.mp hround
    rw [callsOf_eq_nil fun x hx => Nat.ne_of_lt (Nat.lt_of_lt_of_le (hs.log_lt x hx) hle)]
    exact List.not_mem_nil
  | some round =>
    obtain ⟨call, queue⟩ := round
    have hprogress := hs.progress hround
    generalize s.callsOf r = called at hprogress
    cases hprogress with
    | due => exact List.not_mem_nil
    | @listeners _ _ _ _ queue _ _ _ hcalled _ =>
      intro hmem
      have hlistener := List.mem_append_left queue hmem
      rw [hcalled] at hlistener
      simp at hlistener
    | @outline before' middle after' u' v _ _ hturns hu' houtline =>
      exfalso
      have hrest := run?_after hu' (hturns ▸ hs.run)
      rw [run?_cons] at hrest
      obtain ⟨w, hcopy, -⟩ := Option.bind_eq_some_iff.mp hrest
      have hlt := lt_of_copy hcopy
      -- the round began before the outline was closed, or when it did not listen any more
      rcases List.append_eq_append_iff.mp hturns with ⟨between, hbefore, -⟩ | ⟨between, hbefore, -⟩
      · have hlater := later_of_run? (run?_after h.run (hbefore ▸ hu'))
        exact hlater.2 hclosed houtline
      · have hlater := (later_of_run? (run?_after hu' (hbefore ▸ h.run))).1.length_le
        rw [List.length_map, List.length_map] at hlater
        omega

/-- After it was closed, the outline does not listen. -/
theorem outline_not_mem_of_close {t : Rounds} (h : Sound start turns s)
    (hclose : s.step? (.watch .close) = some t) : .outline ∉ t.listeners := by
  obtain rfl := Option.some.inj hclose
  have hle := h.outline_le
  have hcount : (s.listeners.erase .outline).count .outline = s.listeners.count .outline - 1 :=
    List.count_erase_self
  exact List.count_eq_zero.mp (by show (s.listeners.erase .outline).count .outline = 0; omega)

/-- The rounds of refreshes that take effect later come later. -/
theorem length_le_of_not_hasCommitted {before after : List Turn} {u : Rounds}
    (h : Sound start before u) (hrun : u.run? after = some s) {r call : Nat}
    {queue : Option (List Callee)} (hround : s.rounds[r]? = some ⟨call, queue⟩)
    (hnew : ¬u.overlap.HasCommitted call) : u.rounds.length ≤ r := by
  refine Nat.le_of_not_lt fun hlt => hnew ((h.mem_rounds call).mp ?_)
  have hprefix := (later_of_run? hrun).1
  have hget : (u.rounds.map (·.call))[r]? = (s.rounds.map (·.call))[r]? := by
    obtain ⟨rest, hrest⟩ := hprefix
    rw [← hrest, List.getElem?_append_left (by simpa using hlt)]
  have hcall : (s.rounds.map (·.call))[r]? = some call := by rw [List.getElem?_map, hround]; rfl
  exact List.mem_of_getElem? (hget.trans hcall)

end Sound

/-! ## 4. The guarantees -/

/-- What may be relied on in a schedule, however refreshes, rounds and changes of who watches
overlap. -/
structure Orderly (start : Rounds) (turns : List Turn) (s : Rounds) : Prop where
  /-- A refresh that takes effect has one round. One that is superseded or fails has none. -/
  one_round : (s.rounds.map (·.call)).Nodup ∧
    ∀ call, call ∈ s.rounds.map (·.call) ↔ s.overlap.HasCommitted call
  /-- A round calls those who listen when it begins and those who are subscribed when it calls the
  outline, in order and as often as they are registered. -/
  in_turn : ∀ {r call : Nat}, s.rounds[r]? = some ⟨call, some []⟩ → CalledInTurn start turns s r
  /-- Who fails changes neither whom the rounds call nor what the refreshes answer. -/
  fail_harmless : ∀ {r : Nat} {t : Rounds}, s.step? (.fail r) = some t →
    t.overlap = s.overlap ∧ t.rounds = s.rounds ∧ t.listeners = s.listeners ∧
      t.subscribers = s.subscribers ∧ ∀ round, t.callsOf round = s.callsOf round
  /-- The round of a refresh that takes effect after the outline was closed calls no subscriber. -/
  closed : ∀ {before after : List Turn} {u : Rounds}, turns = before ++ .watch .close :: after →
    start.run? (before ++ [.watch .close]) = some u →
    ∀ {r call : Nat} {queue : Option (List Callee)}, s.rounds[r]? = some ⟨call, queue⟩ →
      ¬u.overlap.HasCommitted call → ∀ observer, .subscriber observer ∉ s.callsOf r
  /-- Who listens throughout, registered once, is called once by each round. -/
  listener_once : ∀ {observer : Text},
    (∀ u ∈ start.trail turns, u.listeners.count (.observer observer) = 1) →
    ∀ {r call : Nat}, s.rounds[r]? = some ⟨call, some []⟩ →
      (s.callsOf r).count (.listener (.observer observer)) = 1
  /-- So is who is subscribed throughout while the outline listens. -/
  subscriber_once : ∀ {observer : Text},
    (∀ u ∈ start.trail turns, .outline ∈ u.listeners ∧ u.subscribers.count observer = 1) →
    ∀ {r call : Nat}, s.rounds[r]? = some ⟨call, some []⟩ →
      (s.callsOf r).count (.subscriber observer) = 1

theorem Sound.orderly {start : Rounds} {turns : List Turn} {s : Rounds}
    (hstart : Sound start [] start) (h : Sound start turns s) : Orderly start turns s where
  one_round := ⟨h.nodup_rounds, h.mem_rounds⟩
  in_turn := h.calledInTurn
  fail_harmless := by
    intro r t hstep
    obtain rfl := eq_noticed_of_fail hstep
    exact ⟨rfl, rfl, rfl, rfl, fun round => callsOf_noticed_of_none rfl s⟩
  closed := by
    intro before after u hturns hu r call queue hround hnew observer
    have hsound : Sound start ([] ++ (before ++ [.watch .close])) u := sound_of_run? hstart hu
    have hrest : u.run? after = some s := by
      refine run?_after hu ?_
      rw [List.append_assoc, List.singleton_append, ← hturns]
      exact h.run
    have hclosed : .outline ∉ u.listeners := by
      rw [run?_append] at hu
      obtain ⟨v, hv, hclose⟩ := Option.bind_eq_some_iff.mp hu
      rw [run?_cons] at hclose
      obtain ⟨_, hstep, hu⟩ := Option.bind_eq_some_iff.mp hclose
      obtain rfl := Option.some.inj hu
      exact (sound_of_run? hstart hv).outline_not_mem_of_close hstep
    have hlater := hsound.length_le_of_not_hasCommitted hrest hround hnew
    exact hsound.subscriber_not_mem hrest hclosed hlater observer
  listener_once := by
    intro observer hthroughout r call hround
    obtain ⟨before, after, u, subscribers, hturns, hu, hcalls, -⟩ := h.calledInTurn hround
    rw [hcalls, count_listener_inTurn]
    exact hthroughout u (hturns ▸ mem_trail hu)
  subscriber_once := by
    intro observer hthroughout r call hround
    obtain ⟨before, after, u, subscribers, hturns, hu, hcalls, hlater⟩ := h.calledInTurn hround
    have hlistens := (hthroughout u (hturns ▸ mem_trail hu)).1
    have honce : u.listeners.count .outline = 1 :=
      Nat.le_antisymm (sound_of_run? hstart hu).outline_le (List.count_pos_iff.mpr hlistens)
    obtain ⟨middle, later, v, rfl, hv, -, rfl⟩ := hlater hlistens
    have hsplit : turns = (before ++ .copy r :: middle) ++ .call r :: later := by
      rw [hturns, List.append_assoc, List.cons_append]
    rw [hcalls, count_subscriber_inTurn, honce, Nat.one_mul]
    exact (hthroughout v (hsplit ▸ mem_trail hv)).2

end Marginalia.Rounds
