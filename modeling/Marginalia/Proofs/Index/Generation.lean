/-
Marginalia.Proofs.Index.Generation — what is visible is never replaced by
something older.

However refreshes overlap, the index shows what one of them gathered, and the
generations of what it shows only grow. The reason is a single comparison: a
refresh commits if its number is the last one given out.

* `Step` says once what a move can do; `step_of_step?` is its only use of the
  program text.
* `Sound` is the invariant. Numbers are given out in turn, so the number of a
  refresh tells its place and the count of started refreshes bounds them all.
  The refresh whose generation is visible has committed what is visible, and
  nobody commits beyond it: a commit with the last number is answered with
  success, and a refresh that was turned away does not have the last number.
* `guarded_of_run?` reads the guarantees off the invariant of the state that a
  schedule leads to, and for those about the future off that of later states.
-/
import Marginalia.Index.Overlap

namespace Marginalia

namespace Index

/-- What readers of an index see. -/
def visible (i : Index) : Snapshot × Nat := (i.snapshot, i.generation)

end Index

namespace Overlap

/-! ## 1. What a move can do -/

/-- A move from one state to another. A refresh concludes in one of two ways. -/
inductive Step (s : Overlap) : Move → Overlap → Prop where
  | start : Step s .start s.started
  | gather {call number : Nat} (result : Except Fault (List FileRecord))
      (hcall : s.calls[call]? = some ⟨number, .gathering⟩) :
      Step s (.gather call result) (s.advance call ⟨number, .ofResult result⟩ s.index)
  | supersede {call number : Nat} {records : List FileRecord}
      (hcall : s.calls[call]? = some ⟨number, .gathered records⟩)
      (hnewer : number < s.index.started) :
      Step s (.conclude call) (s.advance call ⟨number, .returned records false⟩ s.index)
  | commit {call number : Nat} {records : List FileRecord}
      (hcall : s.calls[call]? = some ⟨number, .gathered records⟩)
      (hlast : s.index.started ≤ number) :
      Step s (.conclude call) (s.advance call ⟨number, .returned records true⟩
        { s.index with generation := number, snapshot := ⟨records⟩ })

theorem step_of_step? {s t : Overlap} {move : Move} (h : s.step? move = some t) :
    Step s move t := by
  cases move with
  | start =>
    obtain rfl := Option.some.inj h
    exact .start
  | gather call result =>
    simp only [step?] at h
    split at h
    next hcall =>
      obtain rfl := Option.some.inj h
      exact .gather result hcall
    next => cases h
  | conclude call =>
    simp only [step?, Index.commit?] at h
    split at h
    next hcall =>
      split at h
      next hnone =>
        obtain rfl := Option.some.inj h
        have hnewer := Index.commit?_eq_none_iff.mp hnone
        exact .supersede hcall hnewer
      next hsome =>
        obtain rfl := Option.some.inj h
        split at hsome
        next => cases hsome
        next hlast =>
          obtain rfl := Option.some.inj hsome
          exact .commit hcall (Nat.le_of_not_lt hlast)
    next => cases h

/-- A refresh that has its records can conclude, and the last number decides how. -/
theorem step?_conclude {s : Overlap} {call number : Nat} {records : List FileRecord}
    (hcall : s.calls[call]? = some ⟨number, .gathered records⟩) :
    s.step? (.conclude call) = some (if number < s.index.started
      then s.advance call ⟨number, .returned records false⟩ s.index
      else s.advance call ⟨number, .returned records true⟩
        { s.index with generation := number, snapshot := ⟨records⟩ }) := by
  by_cases h : number < s.index.started
  · simp [step?, hcall, Index.commit?, h]
  · simp [step?, hcall, Index.commit?, h]

/-! ## 2. The calls after a move -/

theorem calls_started (s : Overlap) (j : Nat) :
    s.started.calls[j]? = if j < s.calls.length then s.calls[j]?
      else if j = s.calls.length then some ⟨s.index.started + 1, .gathering⟩ else none := by
  rw [started, List.getElem?_append]
  split
  · rfl
  · rw [List.getElem?_singleton, Index.start_started]
    congr 1
    rw [eq_iff_iff]
    omega

/-- Only the refresh that moves changes its stage. -/
theorem calls_advance {s : Overlap} {call : Nat} {old c : Call} (h : s.calls[call]? = some old)
    (index : Index) (j : Nat) :
    (s.advance call c index).calls[j]? = if call = j then some c else s.calls[j]? := by
  rw [advance, List.getElem?_set]
  have hlt : call < s.calls.length := (List.getElem?_eq_some_iff.mp h).1
  by_cases hj : call = j
  · subst hj
    simp [hlt]
  · simp [hj]

/-! ## 3. The invariant -/

/-- What holds after a schedule. -/
structure Sound (schedule : List Move) (s : Overlap) : Prop where
  /-- As many refreshes have started as numbers were given out. -/
  length_calls : s.calls.length = s.index.started
  /-- The numbers were given out in the order of the starts. -/
  number_eq : ∀ {j : Nat} {c : Call}, s.calls[j]? = some c → c.number = j + 1
  /-- Whatever a refresh has come up with, it gathered itself. -/
  gathered : ∀ {j : Nat} {c : Call} {records : List FileRecord}, s.calls[j]? = some c →
    c.stage.records? = some records → .gather j (.ok records) ∈ schedule
  /-- What is visible is the beginning, or was committed by the refresh of its generation. -/
  origin : s.index.visible = ({}, 0) ∨
    ∃ j : Nat, s.calls[j]? = some ⟨s.index.generation, .returned s.index.snapshot.records true⟩
  /-- No refresh has committed beyond the visible generation. -/
  committed_le : ∀ {j number : Nat} {records : List FileRecord},
    s.calls[j]? = some ⟨number, .returned records true⟩ → number ≤ s.index.generation
  /-- A refresh that was turned away is not the last one. -/
  turned_away_lt : ∀ {j number : Nat} {records : List FileRecord},
    s.calls[j]? = some ⟨number, .returned records false⟩ → number < s.index.started

namespace Sound

variable {schedule : List Move} {s t : Overlap} {move : Move}

theorem number_le (h : Sound schedule s) {j : Nat} {c : Call} (hj : s.calls[j]? = some c) :
    c.number ≤ s.index.started := by
  have hlt := (List.getElem?_eq_some_iff.mp hj).1
  rw [h.number_eq hj, ← h.length_calls]
  omega

/-- Refreshes of one number are one refresh. -/
theorem eq_of_number_eq (h : Sound schedule s) {i j : Nat} {c d : Call}
    (hi : s.calls[i]? = some c) (hj : s.calls[j]? = some d) (hn : c.number = d.number) :
    i = j ∧ c = d := by
  have hij : i = j := by
    have h1 := h.number_eq hi
    have h2 := h.number_eq hj
    omega
  subst hij
  exact ⟨rfl, Option.some.inj (hi.symm.trans hj)⟩

theorem generation_le (h : Sound schedule s) : s.index.generation ≤ s.index.started := by
  rcases h.origin with hinit | ⟨j, hj⟩
  · have hzero : s.index.generation = 0 := congrArg Prod.snd hinit
    omega
  · exact h.number_le hj

/-- The generation of a refresh that has yet to conclude is not visible. -/
theorem generation_ne (h : Sound schedule s) {j number : Nat} {records : List FileRecord}
    (hj : s.calls[j]? = some ⟨number, .gathered records⟩) : s.index.generation ≠ number := by
  intro hgen
  rcases h.origin with hinit | ⟨i, hi⟩
  · have hzero : s.index.generation = 0 := congrArg Prod.snd hinit
    have hnumber : number = j + 1 := h.number_eq hj
    omega
  · cases (h.eq_of_number_eq hi hj hgen).2

theorem init : Sound [] {} where
  length_calls := rfl
  number_eq := by simp
  gathered := by simp
  origin := .inl rfl
  committed_le := by simp
  turned_away_lt := by simp

/-- A refresh that moves on keeps its number, and comes up with nothing that it did not gather. -/
theorem advance (h : Sound schedule s) {call : Nat} {old stage : Stage} {number : Nat}
    (hcall : s.calls[call]? = some ⟨number, old⟩)
    (hstage : ∀ records, stage.records? = some records → .gather call (.ok records) ∈ schedule)
    {index : Index} (hstarted : index.started = s.index.started)
    (horigin : index.visible = ({}, 0) ∨ ∃ j : Nat,
      (s.advance call ⟨number, stage⟩ index).calls[j]?
        = some ⟨index.generation, .returned index.snapshot.records true⟩)
    (hle : s.index.generation ≤ index.generation)
    (hcommitted : ∀ records, stage = .returned records true → number ≤ index.generation)
    (haway : ∀ records, stage = .returned records false → number < s.index.started) :
    Sound schedule (s.advance call ⟨number, stage⟩ index) where
  length_calls := by
    rw [Overlap.advance, List.length_set, h.length_calls, hstarted]
  number_eq := by
    intro j c hj
    rw [calls_advance hcall] at hj
    split at hj
    next hcj =>
      obtain rfl := Option.some.inj hj
      have hnumber : number = call + 1 := h.number_eq hcall
      rw [hnumber, hcj]
    next => exact h.number_eq hj
  gathered := by
    intro j c records hj hrecords
    rw [calls_advance hcall] at hj
    split at hj
    next hcj =>
      obtain rfl := Option.some.inj hj
      rw [← hcj]
      exact hstage records hrecords
    next => exact h.gathered hj hrecords
  origin := horigin
  committed_le := by
    intro j n records hj
    rw [calls_advance hcall] at hj
    split at hj
    next =>
      obtain ⟨rfl, hs⟩ := Call.mk.inj (Option.some.inj hj)
      exact hcommitted records hs
    next => exact Nat.le_trans (h.committed_le hj) hle
  turned_away_lt := by
    intro j n records hj
    show n < index.started
    rw [hstarted]
    rw [calls_advance hcall] at hj
    split at hj
    next =>
      obtain ⟨rfl, hs⟩ := Call.mk.inj (Option.some.inj hj)
      exact haway records hs
    next => exact h.turned_away_lt hj

/-- What is visible stays accounted for while a refresh that has not committed moves on. -/
theorem origin_advance (h : Sound schedule s) {call : Nat} {old c : Call}
    (hcall : s.calls[call]? = some old)
    (hold : ∀ records, old.stage ≠ .returned records true) :
    s.index.visible = ({}, 0) ∨ ∃ j : Nat, (s.advance call c s.index).calls[j]?
      = some ⟨s.index.generation, .returned s.index.snapshot.records true⟩ := by
  rcases h.origin with hinit | ⟨j, hj⟩
  · exact .inl hinit
  · refine .inr ⟨j, ?_⟩
    rw [calls_advance hcall, if_neg, hj]
    rintro rfl
    obtain rfl := Option.some.inj (hcall.symm.trans hj)
    exact hold _ rfl

theorem weaken (h : Sound schedule s) (move : Move) : Sound (schedule ++ [move]) s :=
  { h with gathered := fun hj hr => List.mem_append_left _ (h.gathered hj hr) }

/-- **The step lemma.** Every move keeps the invariant. -/
theorem step (h : Sound schedule s) (hstep : Step s move t) : Sound (schedule ++ [move]) t := by
  have hw := h.weaken move
  cases hstep with
  | start =>
    exact {
      length_calls := by
        simp only [Overlap.started, List.length_append, List.length_singleton, h.length_calls,
          Index.start_started]
      number_eq := by
        intro j c hj
        rw [calls_started] at hj
        split at hj
        next => exact h.number_eq hj
        next =>
          split at hj
          next hjl =>
            obtain rfl := Option.some.inj hj
            show s.index.started + 1 = j + 1
            rw [hjl, h.length_calls]
          next => cases hj
      gathered := by
        intro j c records hj hrecords
        rw [calls_started] at hj
        split at hj
        next => exact hw.gathered hj hrecords
        next =>
          split at hj
          next =>
            obtain rfl := Option.some.inj hj
            cases hrecords
          next => cases hj
      origin := by
        rcases h.origin with hinit | ⟨j, hj⟩
        · exact .inl hinit
        · refine .inr ⟨j, ?_⟩
          rw [calls_started, if_pos (List.getElem?_eq_some_iff.mp hj).1]
          exact hj
      committed_le := by
        intro j number records hj
        rw [calls_started] at hj
        split at hj
        next => exact h.committed_le hj
        next => split at hj <;> cases hj
      turned_away_lt := by
        intro j number records hj
        rw [calls_started] at hj
        split at hj
        next => exact Nat.lt_succ_of_lt (h.turned_away_lt hj)
        next => split at hj <;> cases hj }
  | gather result hcall =>
    refine hw.advance hcall ?_ rfl (hw.origin_advance hcall (by simp)) (Nat.le_refl _) ?_ ?_
    · intro records hrecords
      cases result with
      | ok gathered =>
        obtain rfl := Option.some.inj hrecords
        exact List.mem_append_right _ (List.mem_singleton.mpr rfl)
      | error fault => cases hrecords
    · intro records hs
      cases result <;> cases hs
    · intro records hs
      cases result <;> cases hs
  | supersede hcall hnewer =>
    refine hw.advance hcall ?_ rfl (hw.origin_advance hcall (by simp)) (Nat.le_refl _) ?_ ?_
    · exact fun records hrecords => hw.gathered hcall hrecords
    · intro records hs
      cases hs
    · exact fun _ _ => hnewer
  | @commit call number records hcall hlast =>
    have hle := Nat.le_trans h.generation_le hlast
    refine hw.advance hcall ?_ rfl (.inr ⟨call, ?_⟩) hle ?_ ?_
    · exact fun records hrecords => hw.gathered hcall hrecords
    · rw [calls_advance hcall, if_pos rfl]
    · exact fun _ _ => Nat.le_refl _
    · intro records hs
      cases hs

end Sound

/-- **The run lemma.** The invariant holds after every schedule. -/
theorem sound_of_run? {schedule : List Move} : ∀ {before : List Move} {s t : Overlap},
    Sound before s → s.run? schedule = some t → Sound (before ++ schedule) t := by
  induction schedule with
  | nil =>
    intro before s t h hrun
    obtain rfl := Option.some.inj hrun
    rwa [List.append_nil]
  | cons move rest ih =>
    intro before s t h hrun
    rw [run?_cons] at hrun
    obtain ⟨u, hu, hrest⟩ := Option.bind_eq_some_iff.mp hrun
    have hnext := ih (h.step (step_of_step? hu)) hrest
    rwa [List.append_assoc] at hnext

/-! ## 4. The guarantees -/

namespace Sound

variable {schedule : List Move} {s t : Overlap} {move : Move}

/-- The last number given out belongs to a refresh, so to be overtaken is to see a higher number. -/
theorem lt_started_iff (h : Sound schedule s) {number : Nat} :
    number < s.index.started ↔ ∃ c ∈ s.calls, number < c.number := by
  constructor
  · intro hlt
    have hlen := h.length_calls
    have hlast : s.index.started - 1 < s.calls.length := by omega
    have hget := List.getElem?_eq_getElem hlast
    refine ⟨_, List.getElem_mem hlast, ?_⟩
    rw [h.number_eq hget]
    omega
  · rintro ⟨c, hc, hlt⟩
    obtain ⟨j, hj⟩ := List.mem_iff_getElem?.mp hc
    exact Nat.lt_of_lt_of_le hlt (h.number_le hj)

/-- No move lowers a count. -/
theorem step_mono (h : Sound schedule s) (hstep : Step s move t) :
    s.index.started ≤ t.index.started ∧ s.index.generation ≤ t.index.generation := by
  cases hstep with
  | start => exact ⟨Nat.le_succ _, Nat.le_refl _⟩
  | gather => exact ⟨Nat.le_refl _, Nat.le_refl _⟩
  | supersede => exact ⟨Nat.le_refl _, Nat.le_refl _⟩
  | commit _ hlast => exact ⟨Nat.le_refl _, Nat.le_trans h.generation_le hlast⟩

theorem run_mono : ∀ {later schedule : List Move} {s t : Overlap}, Sound schedule s →
    s.run? later = some t →
    s.index.started ≤ t.index.started ∧ s.index.generation ≤ t.index.generation
  | [], _, _, _, _, hrun => by
      obtain rfl := Option.some.inj hrun
      exact ⟨Nat.le_refl _, Nat.le_refl _⟩
  | move :: rest, _, s, t, h, hrun => by
      rw [run?_cons] at hrun
      obtain ⟨u, hu, hrest⟩ := Option.bind_eq_some_iff.mp hrun
      have hstep := step_of_step? hu
      obtain ⟨hs1, hg1⟩ := h.step_mono hstep
      obtain ⟨hs2, hg2⟩ := run_mono (h.step hstep) hrest
      exact ⟨Nat.le_trans hs1 hs2, Nat.le_trans hg1 hg2⟩

/-- A refresh that has ended with the last number has committed, and is visible. -/
theorem visible_of_last (h : Sound schedule s) {call number : Nat} {records : List FileRecord}
    {answer : Bool} (hcall : s.calls[call]? = some ⟨number, .returned records answer⟩)
    (hlast : s.index.started ≤ number) : s.index.visible = (⟨records⟩, number) := by
  cases answer with
  | false => exact absurd (h.turned_away_lt hcall) (Nat.not_lt.mpr hlast)
  | true =>
    have hgen : s.index.generation = number :=
      Nat.le_antisymm (Nat.le_trans h.generation_le hlast) (h.committed_le hcall)
    rcases h.origin with hinit | ⟨j, hj⟩
    · have hzero : s.index.generation = 0 := congrArg Prod.snd hinit
      have hnumber : number = call + 1 := h.number_eq hcall
      omega
    · obtain ⟨-, heq⟩ := h.eq_of_number_eq hj hcall hgen
      obtain ⟨-, hstage⟩ := Call.mk.inj heq
      obtain ⟨hrecords, -⟩ := Stage.returned.inj hstage
      rw [Index.visible, hgen, ← hrecords]

end Sound

/-- A refresh with a number that is not the last one ends without any effect on the index. -/
theorem index_of_conclude_older {s t : Overlap} {call : Nat} {c : Call}
    (hcall : s.calls[call]? = some c) (hlt : c.number < s.index.started)
    (hstep : Step s (.conclude call) t) : t.index = s.index := by
  cases hstep with
  | supersede => rfl
  | commit hcall' hlast =>
    obtain rfl := Option.some.inj (hcall.symm.trans hcall')
    exact absurd hlt (Nat.not_lt.mpr hlast)

/-- What readers and callers of an index may rely on after a schedule, however refreshes
overlap. -/
structure Guarded (schedule : List Move) (s : Overlap) : Prop where
  /-- The numbers of refreshes differ. -/
  number_inj : ∀ {i j : Nat} {c d : Call}, s.calls[i]? = some c → s.calls[j]? = some d →
    c.number = d.number → i = j
  /-- What is visible is the empty index of generation zero, or what the refresh of the visible
  number gathered, and that refresh has answered with success. -/
  origin : s.index.visible = ({}, 0) ∨ ∃ (j : Nat) (records : List FileRecord),
    s.calls[j]? = some ⟨s.index.generation, .returned records true⟩ ∧
      .gather j (.ok records) ∈ schedule ∧ s.index.snapshot = ⟨records⟩
  /-- Nothing but a commit changes what is visible. -/
  changed_by_commit : ∀ {move : Move} {t : Overlap}, s.step? move = some t →
    t.index.visible ≠ s.index.visible → ∃ (call number : Nat) (records : List FileRecord),
      move = .conclude call ∧ t.calls[call]? = some ⟨number, .returned records true⟩
  /-- Every commit raises the generation. -/
  commit_increases : ∀ {call number : Nat} {records : List FileRecord} {t : Overlap},
    s.step? (.conclude call) = some t →
      t.calls[call]? = some ⟨number, .returned records true⟩ →
      s.index.generation < t.index.generation
  /-- The generation never goes back. -/
  never_back : ∀ {later : List Move} {t : Overlap}, s.run? later = some t →
    s.index.generation ≤ t.index.generation
  /-- A refresh answers with success if no refresh with a higher number has started, and is then
  visible; else it answers without success and leaves the index alone. -/
  concluded : ∀ {call number : Nat} {records : List FileRecord},
    s.calls[call]? = some ⟨number, .gathered records⟩ →
      ∃ (t : Overlap) (answer : Bool), s.step? (.conclude call) = some t ∧
        t.calls[call]? = some ⟨number, .returned records answer⟩ ∧
        (answer = true ↔ ¬ ∃ c ∈ s.calls, number < c.number) ∧
        (answer = true → t.index.visible = (⟨records⟩, number)) ∧
        (answer = false → t.index = s.index)
  /-- Once the last refresh that was started has ended without a fault, its records are visible. -/
  last_visible : ∀ {call number : Nat} {records : List FileRecord} {answer : Bool},
    s.calls[call]? = some ⟨number, .returned records answer⟩ →
      (¬ ∃ c ∈ s.calls, number < c.number) → s.index.visible = (⟨records⟩, number)
  /-- From then on, whatever else starts, no refresh that is older changes what is visible. -/
  older_harmless : ∀ {call number : Nat} {records : List FileRecord} {answer : Bool},
    s.calls[call]? = some ⟨number, .returned records answer⟩ →
      (¬ ∃ c ∈ s.calls, number < c.number) →
      ∀ {later : List Move} {t u : Overlap} {older : Nat} {c : Call}, s.run? later = some t →
        t.calls[older]? = some c → c.number < number → t.step? (.conclude older) = some u →
        u.index.visible = t.index.visible

/-- **The generation guard.** The guarantees hold after every schedule on a new index. -/
theorem guarded_of_run? {schedule : List Move} {s : Overlap}
    (hrun : Overlap.run? {} schedule = some s) : Guarded schedule s := by
  have h : Sound schedule s := sound_of_run? Sound.init hrun
  exact {
    number_inj := fun hi hj hn => (h.eq_of_number_eq hi hj hn).1
    origin := by
      rcases h.origin with hinit | ⟨j, hj⟩
      · exact .inl hinit
      · exact .inr ⟨j, s.index.snapshot.records, hj, h.gathered hj rfl, rfl⟩
    changed_by_commit := by
      intro move t hstep hne
      cases step_of_step? hstep with
      | start => exact absurd rfl hne
      | gather => exact absurd rfl hne
      | supersede => exact absurd rfl hne
      | commit hcall => exact ⟨_, _, _, rfl, by rw [calls_advance hcall, if_pos rfl]⟩
    commit_increases := by
      intro call number records t hstep hanswer
      cases step_of_step? hstep with
      | supersede hcall =>
        rw [calls_advance hcall, if_pos rfl] at hanswer
        cases hanswer
      | commit hcall hlast =>
        exact Nat.lt_of_le_of_ne (Nat.le_trans h.generation_le hlast) (h.generation_ne hcall)
    never_back := fun hlater => (h.run_mono hlater).2
    concluded := by
      intro call number records hcall
      rw [← h.lt_started_iff, step?_conclude hcall]
      by_cases hnewer : number < s.index.started
      · rw [if_pos hnewer]
        refine ⟨_, false, rfl, ?_, by simp [hnewer], by simp, fun _ => rfl⟩
        rw [calls_advance hcall, if_pos rfl]
      · rw [if_neg hnewer]
        refine ⟨_, true, rfl, ?_, by simp [hnewer], fun _ => rfl, by simp⟩
        rw [calls_advance hcall, if_pos rfl]
    last_visible := by
      intro call number records answer hcall hlast
      rw [← h.lt_started_iff, Nat.not_lt] at hlast
      exact h.visible_of_last hcall hlast
    older_harmless := by
      intro call number records answer hcall _ later t u older c hlater hold hlt hstep
      have ht := sound_of_run? h hlater
      have hnumber := h.number_le hcall
      have hstarted := (h.run_mono hlater).1
      have hlt' : c.number < t.index.started :=
        Nat.lt_of_lt_of_le hlt (Nat.le_trans hnumber hstarted)
      rw [index_of_conclude_older hold hlt' (step_of_step? hstep)] }

/-- Three refreshes, of which the second fails and the third overtakes the first. -/
def race : List Move :=
  [.start, .start, .gather 0 (.ok [⟨['a'], []⟩]), .start, .gather 1 (.error .zeroInPath),
    .gather 2 (.ok [⟨['b'], []⟩]), .conclude 2]

/-- After `race`: the third refresh is visible, the first has yet to conclude. -/
def afterRace : Overlap :=
  { index := { started := 3, generation := 3, snapshot := ⟨[⟨['b'], []⟩]⟩ }
    calls := [⟨1, .gathered [⟨['a'], []⟩]⟩, ⟨2, .failed .zeroInPath⟩,
      ⟨3, .returned [⟨['b'], []⟩] true⟩] }

theorem guarded_afterRace :
    Overlap.run? {} race = some afterRace ∧ Guarded race afterRace := by
  have hrun : Overlap.run? {} race = some afterRace := by decide
  exact ⟨hrun, guarded_of_run? hrun⟩

end Overlap

end Marginalia
