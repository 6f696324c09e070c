/-
Marginalia.Proofs.Workspace.Ledger — whom the next refresh calls, subscription
by subscription.

Subscriptions are meant to be independent: after any enrolments, the outline
calls the observers of the registrations that stand. But an unsubscribe
function takes out the oldest subscription of its observer, whosesoever it is.
For an observer that is subscribed more than once this goes wrong in two ways:
calls come in another order, and an unsubscribe function that is called again
takes out a subscription that stands.

* `Ledger.TakesOwn` says when the call of an unsubscribe function makes no
  difference of that kind. It is the exact condition: enrolments keep to the
  ledger at every moment iff each of them satisfies it (`keepsTo_iff`). If every
  observer is subscribed once, all do (`takesOwn_of_nodup`).
* If no unsubscribe function is called again, only the order may be another one
  (`subscribers_perm`).
* `refreshIndex_of_open` says whom a refresh calls, in terms of the list that
  the outline has.
-/
import Marginalia.Proofs.Workspace.Rebuild
import Marginalia.Workspace.Ledger

namespace Marginalia

/-! ## 1. The first of several equals -/

/-- Taking `a` out of its place leaves the same as moving it in front, if there are only equals
between. -/
theorem append_cons_eq_cons_append_iff {α : Type} {a : α} : ∀ {first last : List α},
    first ++ a :: last = a :: (first ++ last) ↔ ∀ x ∈ first, x = a
  | [], last => by simp
  | x :: first, last => by
      rw [List.cons_append, List.cons_append, List.cons.injEq, List.forall_mem_cons]
      refine and_congr_right ?_
      rintro rfl
      exact append_cons_eq_cons_append_iff

/-- The first `a` is as good as the one in the middle, if there are only equals between. -/
theorem erase_append_cons_eq_iff {α : Type} [BEq α] [LawfulBEq α] {a : α} :
    ∀ {first last : List α},
    (first ++ a :: last).erase a = first ++ last ↔ ∀ x ∈ first.dropWhile (· != a), x = a
  | [], last => by simp
  | x :: first, last => by
      by_cases hx : x = a
      · subst hx
        rw [List.cons_append, List.erase_cons_head, List.cons_append,
          append_cons_eq_cons_append_iff]
        simp
      · have ih := @erase_append_cons_eq_iff _ _ _ a first last
        rw [List.cons_append, List.erase_cons_tail (by simpa using hx), List.cons_append,
          List.cons.injEq, List.dropWhile_cons_of_pos (by simpa using hx)]
        simpa using ih

namespace Ledger

/-! ## 2. Registrations that stand -/

variable {l : Ledger} {k : Nat} {r : Registration}

@[simp] theorem standing_append (first last : Ledger) :
    standing (first ++ last) = first.standing ++ last.standing := by
  simp [standing]

theorem standing_cons_of_stands (h : r.stands = true) (rest : Ledger) :
    standing (r :: rest) = r.observer :: rest.standing := by
  simp [standing, h]

theorem standing_cons_of_not_stands (h : r.stands = false) (rest : Ledger) :
    standing (r :: rest) = rest.standing := by
  simp [standing, h]

theorem eq_append_of_getElem? (h : l[k]? = some r) : l = l.take k ++ r :: l.drop (k + 1) := by
  obtain ⟨hlt, rfl⟩ := List.getElem?_eq_some_iff.mp h
  rw [List.cons_getElem_drop_succ, List.take_append_drop]

theorem step_unsubscribe (h : l[k]? = some r) :
    l.step (.unsubscribe k) = l.take k ++ { r with stands := false } :: l.drop (k + 1) := by
  obtain ⟨hlt, rfl⟩ := List.getElem?_eq_some_iff.mp h
  exact List.modify_eq_take_cons_drop hlt

theorem step_of_none (h : l[k]? = none) : l.step (.unsubscribe k) = l :=
  List.modify_eq_self (List.getElem?_eq_none_iff.mp h)

/-- The call of an unsubscribe function is meant to end its own registration. -/
theorem standing_step_unsubscribe (h : l[k]? = some r) :
    (l.step (.unsubscribe k)).standing = standing (l.take k) ++ standing (l.drop (k + 1)) := by
  rw [step_unsubscribe h, standing_append, standing_cons_of_not_stands rfl]

theorem standing_of_stands (h : l[k]? = some r) (hr : r.stands = true) :
    l.standing = standing (l.take k) ++ r.observer :: standing (l.drop (k + 1)) := by
  conv_lhs => rw [eq_append_of_getElem? h, standing_append, standing_cons_of_stands hr]

theorem standing_of_not_stands (h : l[k]? = some r) (hr : r.stands = false) :
    l.standing = standing (l.take k) ++ standing (l.drop (k + 1)) := by
  conv_lhs => rw [eq_append_of_getElem? h, standing_append, standing_cons_of_not_stands hr]

theorem standing_step_subscribe (l : Ledger) (observer : Text) :
    (l.step (.subscribe observer)).standing = l.standing ++ [observer] :=
  standing_append l [⟨observer, true⟩]

/-! ## 3. Unsubscribe functions that take out their own -/

/-- Whether an enrolment does what it is meant to do. The unsubscribe function of a registration
that stands may find an older one of its observer, but nothing else may stand between the two; that
of a registration that ended may find none. -/
def TakesOwn (l : Ledger) : Enrolment → Prop
  | .subscribe _ => True
  | .unsubscribe k => ∀ r ∈ l[k]?,
      (r.stands = true → ∀ o ∈ (standing (l.take k)).dropWhile (· != r.observer), o = r.observer) ∧
      (r.stands = false → r.observer ∉ l.standing)

/-- Whether an enrolment is no second call of an unsubscribe function. -/
def IsFirst (l : Ledger) : Enrolment → Prop
  | .subscribe _ => True
  | .unsubscribe k => ∀ r ∈ l[k]?, r.stands = true

instance (l : Ledger) : ∀ e : Enrolment, Decidable (l.TakesOwn e)
  | .subscribe _ => inferInstanceAs (Decidable True)
  | .unsubscribe k => inferInstanceAs (Decidable (∀ r ∈ l[k]?, _ ∧ _))

/-- Whether something holds of each of the enrolments when it is made. -/
def Along (P : Ledger → Enrolment → Prop) (l : Ledger) : List Enrolment → Prop
  | [] => True
  | e :: rest => P l e ∧ (l.step e).Along P rest

instance decidableAlong (P : Ledger → Enrolment → Prop) [∀ l e, Decidable (P l e)] :
    ∀ (l : Ledger) (enrolments : List Enrolment), Decidable (l.Along P enrolments)
  | _, [] => inferInstanceAs (Decidable True)
  | l, e :: rest =>
    have := decidableAlong P (l.step e) rest
    inferInstanceAs (Decidable (_ ∧ _))

theorem takesOwn_unsubscribe (h : l[k]? = some r) :
    l.TakesOwn (.unsubscribe k) ↔
      (r.stands = true →
        ∀ o ∈ (standing (l.take k)).dropWhile (· != r.observer), o = r.observer) ∧
      (r.stands = false → r.observer ∉ l.standing) := by
  simp [TakesOwn, h]

theorem takesOwn_of_none (h : l[k]? = none) : l.TakesOwn (.unsubscribe k) := by
  simp [TakesOwn, h]

/-- The observers that were ever subscribed, as often as they were. -/
def observers (l : Ledger) : List Text := l.map (·.observer)

theorem standing_subset (l : Ledger) : l.standing ⊆ l.observers :=
  (List.filter_sublist.map _).subset

theorem observers_step (l : Ledger) (e : Enrolment) : l.observers <+: (l.step e).observers := by
  cases e with
  | subscribe observer => simp [observers, step]
  | unsubscribe k =>
    cases hk : l[k]? with
    | none => rw [step_of_none hk]
    | some r =>
      conv_lhs => rw [eq_append_of_getElem? hk]
      simp [observers, step_unsubscribe hk]

/-- No registration is ever struck out. -/
theorem observers_after : ∀ (enrolments : List Enrolment) (l : Ledger),
    l.observers <+: (l.after enrolments).observers
  | [], _ => List.prefix_rfl
  | e :: rest, l => (observers_step l e).trans (observers_after rest (l.step e))

/-- Where every observer is subscribed once, an unsubscribe function finds its own or none. -/
theorem takesOwn_of_nodup (h : l.observers.Nodup) (e : Enrolment) : l.TakesOwn e := by
  cases e with
  | subscribe observer => trivial
  | unsubscribe k =>
    cases hk : l[k]? with
    | none => exact takesOwn_of_none hk
    | some r =>
      rw [eq_append_of_getElem? hk, observers, List.map_append, List.map_cons, List.nodup_middle,
        List.nodup_cons, List.mem_append, not_or] at h
      obtain ⟨⟨hbefore, hafter⟩, -⟩ := h
      have hfirst : r.observer ∉ standing (l.take k) := fun hmem => hbefore (standing_subset _ hmem)
      have hlast : r.observer ∉ standing (l.drop (k + 1)) :=
        fun hmem => hafter (standing_subset _ hmem)
      refine (takesOwn_unsubscribe hk).mpr ⟨fun _ o ho => ?_, fun hr => ?_⟩
      · have hnone : (standing (l.take k)).dropWhile (· != r.observer) = [] := by
          refine List.dropWhile_eq_nil_iff.mpr fun x hx => ?_
          simpa using fun heq : x = r.observer => hfirst (heq ▸ hx)
        rw [hnone] at ho
        cases ho
      · rw [standing_of_not_stands hk hr, List.mem_append, not_or]
        exact ⟨hfirst, hlast⟩

theorem along_takesOwn_of_nodup : ∀ {enrolments : List Enrolment} {l : Ledger},
    (l.after enrolments).observers.Nodup → l.Along TakesOwn enrolments
  | [], _, _ => trivial
  | e :: rest, l, h =>
      ⟨takesOwn_of_nodup (((observers_after (e :: rest) l).sublist).nodup h) e,
        @along_takesOwn_of_nodup rest _ h⟩

end Ledger

namespace Workspace

variable {w : Workspace} {l : Ledger}

/-! ## 4. What the outline has -/

theorem enrol_unsubscribe {k : Nat} {r : Registration} (h : l[k]? = some r) (w : Workspace) :
    w.enrol l (.unsubscribe k) = w.unsubscribe r.observer := by
  simp [enrol, h]

theorem enrol_of_none {k : Nat} (h : l[k]? = none) (w : Workspace) :
    w.enrol l (.unsubscribe k) = w := by
  simp [enrol, h]

theorem unsubscribe_of_not_mem {observer : Text} (h : observer ∉ w.subscribers) :
    w.unsubscribe observer = w := by
  rw [unsubscribe, watch, Watchers.after, List.erase_of_not_mem h]

theorem enrolAll_append (first last : List Enrolment) : ∀ (w : Workspace) (l : Ledger),
    w.enrolAll l (first ++ last) = (w.enrolAll l first).enrolAll (l.after first) last := by
  induction first with
  | nil => exact fun _ _ => rfl
  | cons e rest ih => exact fun w l => ih (w.enrol l e) (l.step e)

/-- **The step lemma.** An enrolment does to the outline what it is meant to do exactly if an
unsubscribe function takes out its own. -/
theorem subscribers_enrol_iff (h : w.subscribers = l.standing) (e : Enrolment) :
    (w.enrol l e).subscribers = (l.step e).standing ↔ l.TakesOwn e := by
  cases e with
  | subscribe observer =>
    rw [Ledger.standing_step_subscribe, ← h]
    exact iff_of_true rfl trivial
  | unsubscribe k =>
    cases hk : l[k]? with
    | none =>
      rw [enrol_of_none hk, Ledger.step_of_none hk]
      exact iff_of_true h (Ledger.takesOwn_of_none hk)
    | some r =>
      rw [enrol_unsubscribe hk, Ledger.standing_step_unsubscribe hk, Ledger.takesOwn_unsubscribe hk]
      show w.subscribers.erase r.observer = _ ↔ _
      cases hr : r.stands with
      | true =>
        rw [h, Ledger.standing_of_stands hk hr, erase_append_cons_eq_iff]
        simp
      | false =>
        rw [h, ← Ledger.standing_of_not_stands hk hr, List.erase_eq_self_iff]
        simp

/-- **The run lemma.** At every moment the outline has what the ledger says, exactly if no
unsubscribe function takes out another one's. -/
theorem keepsTo_iff : ∀ {enrolments : List Enrolment} {w : Workspace} {l : Ledger},
    w.subscribers = l.standing →
    ((∀ before, before <+: enrolments →
        (w.enrolAll l before).subscribers = (l.after before).standing) ↔
      l.Along Ledger.TakesOwn enrolments)
  | [], w, l, h => by
      refine iff_of_true (fun before hbefore => ?_) trivial
      obtain rfl := List.prefix_nil.mp hbefore
      exact h
  | e :: rest, w, l, h => by
      constructor
      · intro hall
        have hfirst : (w.enrol l e).subscribers = (l.step e).standing :=
          hall [e] (List.prefix_append [e] rest)
        have hlater : ∀ later, later <+: rest →
            ((w.enrol l e).enrolAll (l.step e) later).subscribers
              = ((l.step e).after later).standing :=
          fun later hlater => hall (e :: later) (List.cons_prefix_cons.mpr ⟨rfl, hlater⟩)
        exact ⟨(subscribers_enrol_iff h e).mp hfirst, (keepsTo_iff hfirst).mp hlater⟩
      · rintro ⟨hown, hrest⟩ before hbefore
        rcases List.prefix_cons_iff.mp hbefore with rfl | ⟨later, rfl, hlater⟩
        · exact h
        · exact (keepsTo_iff ((subscribers_enrol_iff h e).mpr hown)).mpr hrest later hlater

theorem subscribers_enrolAll {enrolments : List Enrolment} (h : w.subscribers = l.standing)
    (hown : l.Along Ledger.TakesOwn enrolments) :
    (w.enrolAll l enrolments).subscribers = (l.after enrolments).standing :=
  (keepsTo_iff h).mpr hown enrolments List.prefix_rfl

/-- If no unsubscribe function is called again, the outline has the right subscribers, though
maybe in another order. -/
theorem subscribers_perm : ∀ {enrolments : List Enrolment} {w : Workspace} {l : Ledger},
    w.subscribers.Perm l.standing → l.Along Ledger.IsFirst enrolments →
    (w.enrolAll l enrolments).subscribers.Perm (l.after enrolments).standing
  | [], _, _, h, _ => h
  | .subscribe observer :: rest, w, l, h, ⟨_, hrest⟩ => by
      refine @subscribers_perm rest _ _ ?_ hrest
      rw [Ledger.standing_step_subscribe]
      exact h.append_right [observer]
  | .unsubscribe k :: rest, w, l, h, ⟨hfirst, hrest⟩ => by
      refine @subscribers_perm rest _ _ ?_ hrest
      cases hk : l[k]? with
      | none => rwa [enrol_of_none hk, Ledger.step_of_none hk]
      | some r =>
        rw [enrol_unsubscribe hk, Ledger.standing_step_unsubscribe hk]
        rw [Ledger.standing_of_stands hk (hfirst r hk)] at h
        have herase := (h.trans List.perm_middle).erase r.observer
        rwa [List.erase_cons_head] at herase

/-! ## 5. Whom a refresh calls -/

/-- A refresh that takes effect leaves alone who watches, as far as it calls nobody. -/
theorem watchers_rebuild {roots : List Text} {settings : Settings}
    (h : (w.rebuild idle roots settings).2 = .ok true) :
    (w.rebuild idle roots settings).1.listeners = w.listeners ∧
      (w.rebuild idle roots settings).1.subscribers = w.subscribers := by
  obtain ⟨found, scanned, records, -, -, heq⟩ := rebuild_of_true (fun _ => rfl) h
  rw [heq, meanwhile]
  split <;> exact ⟨rfl, rfl⟩

/-- A refresh that takes effect calls the listeners; when the turn of the outline comes, it calls
the subscribers of that moment. -/
theorem refreshIndex_of_open {before others : List Listener} {nested : Change Bool}
    {roots : List Text} {settings : Settings} {v : Workspace}
    (hopen : w.listeners = before ++ .outline :: others)
    (hcommits : (w.refreshIndex nested idle roots settings).2 = .ok true)
    (hv : v = before.foldl (callListener nested) (w.rebuild idle roots settings).1) :
    (w.refreshIndex nested idle roots settings).1
      = others.foldl (callListener nested) (v.subscribers.foldl (callSubscriber nested) v) := by
  have hrebuild := rebuild_of_refreshIndex hcommits
  rw [refreshIndex_of_rebuild nested hrebuild, notify, (watchers_rebuild hrebuild).1, hopen,
    List.foldl_append, List.foldl_cons, hv]
  rfl

/-- **Whom the next refresh calls.** If no unsubscribe function takes out the subscription of
another one, then after any enrolments the next refresh that takes effect calls, when the turn of
the outline comes, the observers of the registrations that stand, in order and once each; and an
unsubscribe function that is called again changes nothing. -/
theorem refreshIndex_calls_standing {v : Workspace} {enrolments : List Enrolment}
    {before others : List Listener} {nested : Change Bool} {roots : List Text} {settings : Settings}
    (hledger : w.subscribers = l.standing) (hown : l.Along Ledger.TakesOwn enrolments)
    (hsince : v.subscribers = (w.enrolAll l enrolments).subscribers)
    (hopen : v.listeners = before ++ .outline :: others)
    (hcommits : (v.refreshIndex nested idle roots settings).2 = .ok true)
    (hbefore : (before.foldl (callListener nested) (v.rebuild idle roots settings).1).subscribers
      = v.subscribers) :
    (v.refreshIndex nested idle roots settings).1
      = others.foldl (callListener nested) ((l.after enrolments).standing.foldl
          (callSubscriber nested)
          (before.foldl (callListener nested) (v.rebuild idle roots settings).1)) ∧
    ∀ (k : Nat) (r : Registration), (l.after enrolments)[k]? = some r → r.stands = false →
      (l.after enrolments).TakesOwn (.unsubscribe k) →
      w.enrolAll l (enrolments ++ [.unsubscribe k]) = w.enrolAll l enrolments := by
  have hstanding := subscribers_enrolAll hledger hown
  constructor
  · rw [refreshIndex_of_open hopen hcommits rfl, hbefore, hsince, hstanding]
  · intro k r hk hr hfinds
    have hnone := ((Ledger.takesOwn_unsubscribe hk).mp hfinds).2 hr
    rw [enrolAll_append]
    show (w.enrolAll l enrolments).enrol (l.after enrolments) (.unsubscribe k) = _
    rw [enrol_unsubscribe hk, unsubscribe_of_not_mem (hstanding ▸ hnone)]

/-- A workspace without roots, and two observers that write down what they see. -/
def onlookers : Workspace where
  disk := { root := [] }
  scripts := [("a".toList, [.record]), ("b".toList, [.record])]

/-- One observer is subscribed twice and gives up its later subscription; another one gives up its
only one, twice. -/
def givenUp : List Enrolment :=
  [.subscribe "a".toList, .subscribe "a".toList, .subscribe "b".toList, .unsubscribe 1,
    .unsubscribe 2, .unsubscribe 2]

theorem refresh_onlookers_givenUp :
    (Ledger.after [] givenUp).standing = ["a".toList] ∧
    (onlookers.enrolAll [] givenUp).refresh.1.events = [⟨"a".toList, 1, ⟨0, 0⟩⟩] ∧
    onlookers.enrolAll [] (givenUp ++ [.unsubscribe 2]) = onlookers.enrolAll [] givenUp := by
  obtain ⟨hcalls, hagain⟩ := @refreshIndex_calls_standing onlookers []
    ((onlookers.enrolAll [] givenUp).report [.refreshing 0]) givenUp [] [] nestedRefresh [] {} rfl
    (by decide) rfl rfl (by decide +kernel) (by decide +kernel)
  refine ⟨by decide, ?_, hagain 2 ⟨"b".toList, false⟩ rfl rfl (by decide)⟩
  exact (congrArg events hcalls).trans (by decide +kernel)

/-- Of two subscriptions of one observer the later is given up, and its unsubscribe function is
called again: both are gone. If another observer was subscribed between the two, one call is enough
to change the order in which they are called. -/
theorem refresh_onlookers_shared :
    (Ledger.after [] [.subscribe "a".toList, .subscribe "a".toList, .unsubscribe 1,
      .unsubscribe 1]).standing = ["a".toList] ∧
    (onlookers.enrolAll [] [.subscribe "a".toList, .subscribe "a".toList, .unsubscribe 1,
      .unsubscribe 1]).refresh.2 = .ok true ∧
    (onlookers.enrolAll [] [.subscribe "a".toList, .subscribe "a".toList, .unsubscribe 1,
      .unsubscribe 1]).refresh.1.events.map (·.observer) = [] ∧
    (Ledger.after [] [.subscribe "a".toList, .subscribe "b".toList, .subscribe "a".toList,
      .unsubscribe 2]).standing = ["a".toList, "b".toList] ∧
    (onlookers.enrolAll [] [.subscribe "a".toList, .subscribe "b".toList, .subscribe "a".toList,
      .unsubscribe 2]).refresh.2 = .ok true ∧
    (onlookers.enrolAll [] [.subscribe "a".toList, .subscribe "b".toList, .subscribe "a".toList,
      .unsubscribe 2]).refresh.1.events.map (·.observer) = ["b".toList, "a".toList] :=
  ⟨by decide, by decide +kernel, by decide +kernel, by decide, by decide +kernel,
    by decide +kernel⟩

end Workspace

end Marginalia
