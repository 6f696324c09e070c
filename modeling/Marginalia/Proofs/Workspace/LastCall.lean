/-
Marginalia.Proofs.Workspace.LastCall — nobody is left with an old index.

The calls of a round may be delayed past the commits of other refreshes, so
rounds overtake each other and an observer may hear of refreshes out of order.
What matters is the last call. The log is split at the last commit: what stands
behind it sees what is visible from then on (`Settled`), and the whole round of
that commit stands behind it. Every listener of the moment when that round
began was called there, whatever else was called late.

The argument needs the last round to be over and says nothing about the order
of the calls of different rounds.
-/
import Marginalia.Proofs.Workspace.Orderly

namespace Marginalia

/-- Whether nothing is committed, and who is called sees what an index shows. -/
def Happening.Shows (index : Index) : Happening → Prop
  | .committed _ => False
  | .called _ _ seen => seen.visible = index.visible
  | .failed _ => True

theorem Happening.Shows.congr {index other : Index} {x : Happening} (h : x.Shows index)
    (hvisible : other.visible = index.visible) : x.Shows other := by
  cases x with
  | committed => exact h
  | called => exact h.trans hvisible.symm
  | failed => trivial

theorem Happening.Shows.visible_of_seenBy {index seen : Index} {x : Happening} {callee : Callee}
    (h : x.Shows index) (hseen : x.seenBy callee = some seen) : seen.visible = index.visible := by
  cases x with
  | called round c i =>
    simp only [Happening.seenBy, Option.ite_none_right_eq_some, Option.some.injEq] at hseen
    obtain ⟨-, rfl⟩ := hseen
    exact h
  | committed => cases hseen
  | failed => cases hseen

namespace Rounds

/-! ## 1. The log since the last commit -/

/-- Whether the log is split at the last commit. -/
structure Settled (s : Rounds) (before : List Happening) (last : Nat) (after : List Happening) :
    Prop where
  length : s.rounds.length = last + 1
  log : s.log = before ++ .committed last :: after
  before : ∀ x ∈ before, x.round < last
  after : ∀ x ∈ after, x.Shows s.overlap.index

variable {s t : Rounds} {before after : List Happening} {last : Nat}

/-- What does not commit leaves the split where it is. -/
theorem Settled.extend (h : Settled s before last after) {new : List Happening}
    (hrounds : t.rounds.length = s.rounds.length)
    (hvisible : t.overlap.index.visible = s.overlap.index.visible) (hlog : t.log = s.log ++ new)
    (hnew : ∀ x ∈ new, x.Shows s.overlap.index) : Settled t before last (after ++ new) where
  length := hrounds.trans h.length
  log := by rw [hlog, h.log, List.append_assoc, List.cons_append]
  before := h.before
  after := by
    intro x hx
    refine Happening.Shows.congr ?_ hvisible
    rcases List.mem_append.mp hx with hx | hx
    · exact h.after x hx
    · exact hnew x hx

/-- Whether the log is split at the last commit, if there is one. -/
def IsSettled (s : Rounds) : Prop :=
  s.rounds = [] ∨ ∃ before last after, Settled s before last after

theorem IsSettled.extend (h : IsSettled s) {new : List Happening}
    (hrounds : t.rounds.length = s.rounds.length)
    (hvisible : t.overlap.index.visible = s.overlap.index.visible) (hlog : t.log = s.log ++ new)
    (hnew : ∀ x ∈ new, x.Shows s.overlap.index) : IsSettled t := by
  rcases h with hnone | ⟨before, last, after, hs⟩
  · refine .inl (List.length_eq_zero_iff.mp ?_)
    rw [hrounds, hnone, List.length_nil]
  · exact .inr ⟨before, last, after ++ new, hs.extend hrounds hvisible hlog hnew⟩

/-- **The step lemma.** Every turn keeps the split or makes a new one. -/
theorem Sound.settled_step {start : Rounds} {turns : List Turn} {turn : Turn}
    (h : Sound start turns s) (hstep : Step s turn t) (hs : IsSettled s) : IsSettled t := by
  have hnone : ∀ x ∈ ([] : List Happening), x.Shows s.overlap.index := by simp
  cases hstep with
  | move hmove hcommitted =>
    obtain ⟨-, hvisible, -⟩ | ⟨call, hcommit, -⟩ := (Overlap.step_of_step? hmove).committedBy
    · exact hs.extend rfl hvisible (List.append_nil _).symm hnone
    · rw [hcommitted] at hcommit
      cases hcommit
  | commit =>
    refine .inr ⟨s.log, s.rounds.length, [], ?_⟩
    exact ⟨List.length_append, rfl, h.log_lt, by simp⟩
  | copy => exact hs.extend List.length_set rfl (List.append_nil _).symm hnone
  | call =>
    refine hs.extend List.length_set rfl rfl fun x hx => ?_
    obtain rfl := List.mem_singleton.mp hx
    rfl
  | fail =>
    refine hs.extend rfl rfl rfl fun x hx => ?_
    obtain rfl := List.mem_singleton.mp hx
    trivial
  | watch => exact hs.extend rfl rfl (List.append_nil _).symm hnone

/-- **The run lemma.** -/
theorem Sound.settled_of_run? {start : Rounds} : ∀ {later turns : List Turn} {s t : Rounds},
    Sound start turns s → s.run? later = some t → IsSettled s → IsSettled t
  | [], _, _, _, _, hrun, hs => by
      obtain rfl := Option.some.inj hrun
      exact hs
  | turn :: rest, turns, s, t, h, hrun, hs => by
      rw [run?_cons] at hrun
      obtain ⟨u, hu, hrest⟩ := Option.bind_eq_some_iff.mp hrun
      exact settled_of_run? (h.step hu) hrest (h.settled_step (step_of_step? hu) hs)

/-! ## 2. The last call -/

/-- Whether somebody was called in the round of the last commit, and saw in the last call of all
what is visible now. -/
structure SeesLast (s : Rounds) (callee : Callee) : Prop where
  called : ∃ before last after seen, s.log = before ++ .committed last :: after ∧
    (∀ round, .committed round ∉ after) ∧ .called last callee seen ∈ after
  seen : (s.lastSeen callee).map Index.visible = some s.overlap.index.visible

theorem mem_log_of_mem_callsOf {r : Nat} {callee : Callee} (h : callee ∈ s.callsOf r) :
    ∃ seen, .called r callee seen ∈ s.log := by
  obtain ⟨x, hx, heq⟩ := List.mem_filterMap.mp h
  cases x with
  | called round c seen =>
    simp only [Happening.callIn, Option.ite_none_right_eq_some, Option.some.injEq] at heq
    obtain ⟨rfl, rfl⟩ := heq
    exact ⟨seen, hx⟩
  | committed => cases heq
  | failed => cases heq

/-- Whom the round of the last commit has called has seen what is visible. -/
theorem Settled.seesLast (h : Settled s before last after) {callee : Callee}
    (hcalled : callee ∈ s.callsOf last) : SeesLast s callee := by
  obtain ⟨seen, hseen⟩ := mem_log_of_mem_callsOf hcalled
  have hmem : .called last callee seen ∈ after := by
    rw [h.log] at hseen
    rcases List.mem_append.mp hseen with hseen | hseen
    · exact absurd (h.before _ hseen) (Nat.lt_irrefl _)
    · rcases List.mem_cons.mp hseen with hseen | hseen
      · cases hseen
      · exact hseen
  constructor
  case called =>
    exact ⟨before, last, after, seen, h.log, fun round hround => h.after _ hround, hmem⟩
  case seen =>
    -- the callee has seen something since the last commit, so the last of it is there
    have hsince : seen ∈ after.filterMap (·.seenBy callee) :=
      List.mem_filterMap.mpr ⟨_, hmem, if_pos rfl⟩
    have hlast := List.getLast?_eq_some_getLast (List.ne_nil_of_mem hsince)
    obtain ⟨x, hx, heq⟩ := List.mem_filterMap.mp (List.mem_of_getLast? hlast)
    have hlog : s.lastSeen callee = (after.filterMap (·.seenBy callee)).getLast? := by
      rw [lastSeen, h.log, List.filterMap_append, List.getLast?_append]
      show (after.filterMap _).getLast?.or _ = _
      rw [hlast, Option.some_or]
    rw [hlog, hlast, Option.map_some, (h.after x hx).visible_of_seenBy heq]

theorem listener_mem_inTurn {listener : Listener} {listeners : List Listener}
    (subscribers : List Text) (h : listener ∈ listeners) :
    .listener listener ∈ inTurn listeners subscribers := by
  refine List.mem_flatMap.mpr ⟨listener, h, ?_⟩
  cases listener <;> simp

theorem subscriber_mem_inTurn {observer : Text} {subscribers : List Text}
    {listeners : List Listener} (h : observer ∈ subscribers) (houtline : .outline ∈ listeners) :
    .subscriber observer ∈ inTurn listeners subscribers :=
  List.mem_flatMap.mpr ⟨.outline, houtline, List.mem_cons_of_mem _ (List.mem_map_of_mem h)⟩

/-- **Nobody is left with an old index.** When all refreshes have ended and all rounds are over, and
some refresh took effect, everyone who listened throughout was called in the round of the last
commit, and whatever they were called for last, they could see what is visible now. So does everyone
who was subscribed throughout while the outline listened. -/
theorem seesLast_of_finished {listeners : List Listener} {subscribers : List Text}
    (hcount : listeners.count .outline ≤ 1) {turns : List Turn} {s : Rounds}
    (hrun : (opening listeners subscribers).run? turns = some s) (hfinished : s.Finished)
    {call : Nat} (hcommitted : s.overlap.HasCommitted call) :
    (∀ listener, (∀ u ∈ (opening listeners subscribers).trail turns, listener ∈ u.listeners) →
      s.SeesLast (.listener listener)) ∧
    (∀ observer, (∀ u ∈ (opening listeners subscribers).trail turns,
        .outline ∈ u.listeners ∧ observer ∈ u.subscribers) →
      s.SeesLast (.subscriber observer)) := by
  have hopening := Sound.opening subscribers hcount
  have hsound := sound_of_run? hopening hrun
  rw [List.nil_append] at hsound
  have hround : call ∈ s.rounds.map (·.call) := (hsound.mem_rounds call).mpr hcommitted
  obtain ⟨before, last, after, hs⟩ :=
    (hopening.settled_of_run? hrun (.inl rfl)).resolve_left (by rintro h; simp [h] at hround)
  have hlt : last < s.rounds.length := by
    rw [hs.length]
    exact Nat.lt_succ_self last
  have hover : s.rounds[last]? = some ⟨s.rounds[last].call, some []⟩ := by
    rw [List.getElem?_eq_getElem hlt, ← hfinished.rounds _ (List.getElem_mem hlt)]
  obtain ⟨first, later, u, watching, hturns, hu, hcalls, houtline⟩ := hsound.calledInTurn hover
  have hthen : u ∈ (opening listeners subscribers).trail turns := hturns ▸ mem_trail hu
  constructor
  · intro listener hthroughout
    refine hs.seesLast ?_
    rw [hcalls]
    exact listener_mem_inTurn _ (hthroughout u hthen)
  · intro observer hthroughout
    obtain ⟨middle, rest, v, rfl, hv, -, rfl⟩ := houtline (hthroughout u hthen).1
    have hsplit : turns = (first ++ .copy last :: middle) ++ .call last :: rest := by
      rw [hturns, List.append_assoc, List.cons_append]
    have hlater : v ∈ (opening listeners subscribers).trail turns := hsplit ▸ mem_trail hv
    refine hs.seesLast ?_
    rw [hcalls]
    exact subscriber_mem_inTurn (hthroughout v hlater).2 (hthroughout u hthen).1

/-- Two refreshes. The second one starts, takes effect and makes its round while the first round has
called nobody but one listener; what is left of the first round comes last. An observer who listens
meanwhile is called by the second round only, and fails. -/
def delayed : List Turn :=
  [.index .start, .index (.gather 0 (.ok [⟨['x'], []⟩])), .index (.conclude 0), .copy 0, .call 0,
    .watch (.listen ['n']), .index .start, .index (.gather 1 (.ok [⟨['y'], []⟩])), .index (.conclude 1),
    .copy 1, .call 1, .call 1, .call 1, .call 1, .call 1, .fail 1, .call 0, .call 0, .call 0]

/-- Those who watch before `delayed`. -/
def watched : Rounds := opening [.observer ['a'], .outline, .observer ['b']] [['c']]

/-- After `delayed`. -/
def afterDelayed : Rounds := (watched.run? delayed).getD {}

theorem seesLast_delayed :
    watched.listeners.count .outline ≤ 1 ∧ watched.run? delayed = some afterDelayed ∧
      afterDelayed.Finished ∧ afterDelayed.overlap.HasCommitted 1 ∧
      afterDelayed.callsOf 0 = [.listener (.observer ['a']), .listener .outline,
        .subscriber ['c'], .listener (.observer ['b'])] ∧
      afterDelayed.overlap.index.visible = (⟨[⟨['y'], []⟩]⟩, 2) ∧
      afterDelayed.SeesLast (.listener (.observer ['b'])) ∧
      afterDelayed.SeesLast (.subscriber ['c']) := by
  have hcount : watched.listeners.count .outline ≤ 1 := by decide
  have hrun : watched.run? delayed = some afterDelayed := by decide
  have hfinished : afterDelayed.Finished := ⟨by decide, by decide⟩
  have hcommitted : afterDelayed.overlap.HasCommitted 1 := ⟨2, [⟨['y'], []⟩], by decide⟩
  obtain ⟨hlisteners, hsubscribers⟩ := seesLast_of_finished hcount hrun hfinished hcommitted
  refine ⟨hcount, hrun, hfinished, hcommitted, by decide, by decide, ?_, ?_⟩
  · exact hlisteners (.observer ['b']) (by decide)
  · exact hsubscribers ['c'] (by decide)

end Rounds

end Marginalia
