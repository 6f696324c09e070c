/-
Marginalia.Proofs.Workspace.Conduct — what a schedule leaves as it was.

What is done takes its turns whatever else is under way. Two things are to be
said of a state to which such turns lead: what it shows, and how it differs
from the state where they began.

* `Acts.run?`, `Completes.run?` and so on say that the turns that belong to
  something that is done can be taken, and where they lead.
* `Grown` is the frame. Refreshes and rounds that are under way stay as they
  are, and those that are new are over.
* A refresh is one more among those that were started (`withCall`), and moves
  on from one stage to the next (`Grown.advance`); a round is one more among
  the rounds, and its queue gets shorter (`Grown.left`).
-/
import Marginalia.Proofs.Index.Coherent
import Marginalia.Proofs.Workspace.Rounds
import Marginalia.Workspace.Conduct

namespace Marginalia

namespace Rounds

variable {conduct : Conduct} {s t u : Rounds}

/-! ## 1. Turns that can be taken -/

theorem run?_append_of {turns later : List Turn} (h : s.run? turns = some t)
    (hlater : t.run? later = some u) : s.run? (turns ++ later) = some u := by
  rw [run?_append, h, Option.bind_some, hlater]

theorem run?_cons_of {turn : Turn} {later : List Turn} (h : s.step? turn = some t)
    (hlater : t.run? later = some u) : s.run? (turn :: later) = some u := by
  rw [run?_cons, h, Option.bind_some, hlater]

mutual

theorem Acts.run? : ∀ {reactions : List Reaction} {s : Rounds} {turns : List Turn} {t : Rounds}
    {ended : Bool}, Acts conduct reactions s turns t ended → s.run? turns = some t
  | _, _, _, _, _, .nil => rfl
  | _, _, _, _, _, .record hrest => hrest.run?
  | _, _, _, _, _, .fail => rfl
  | _, _, _, _, _, .watch hrest => run?_cons_of rfl hrest.run?
  | _, _, _, _, _, .refresh hrefresh hrest => run?_append_of hrefresh.run? hrest.run?
  | _, _, _, _, _, .fault hrefresh => hrefresh.run?

theorem Completes.run? : ∀ {round : Nat} {s : Rounds} {turns : List Turn} {t : Rounds},
    Completes conduct round s turns t → s.run? turns = some t
  | _, _, _, _, .nil _ => rfl
  | _, _, _, _, .outline _ hcall hrest => run?_cons_of hcall hrest.run?
  | _, _, _, _, .observer _ _ hcall hacts htrace hrest =>
      run?_cons_of hcall (run?_append_of hacts.run? (run?_append_of htrace hrest.run?))

theorem Gathers.run? : ∀ {meanwhile : List Deed} {s : Rounds} {turns : List Turn} {t : Rounds}
    {result : Except Fault (List FileRecord)}, Gathers conduct meanwhile s turns t result →
    s.run? turns = some t
  | _, _, _, _, _, .intro _ hstart hmeanwhile hgather =>
      run?_cons_of hstart (run?_append_of hmeanwhile.run? (run?_cons_of hgather rfl))

theorem Refreshes.run? : ∀ {meanwhile : List Deed} {s : Rounds} {turns : List Turn} {t : Rounds}
    {answer : Except Fault Bool}, Refreshes conduct meanwhile s turns t answer →
    s.run? turns = some t
  | _, _, _, _, _, .fault hgathers => hgathers.run?
  | _, _, _, _, _, .superseded hgathers hconclude _ =>
      run?_append_of hgathers.run? (run?_cons_of hconclude rfl)
  | _, _, _, _, _, .commit hgathers hconclude hcopy hround =>
      run?_append_of hgathers.run? (run?_cons_of hconclude (run?_cons_of hcopy hround.run?))

theorem Does.run? : ∀ {deed : Deed} {s : Rounds} {turns : List Turn} {t : Rounds},
    Does conduct deed s turns t → s.run? turns = some t
  | _, _, _, _, .idle _ => rfl
  | _, _, _, _, .request hrefresh => hrefresh.run?
  | _, _, _, _, .refreshIndex hrefresh => hrefresh.run?
  | _, _, _, _, .refreshAmid hrefresh => hrefresh.run?
  | _, _, _, _, .raceRefresh hrefresh => hrefresh.run?
  | _, _, _, _, .watch => rfl
  | _, _, _, _, .change => rfl

/-- What is done takes turns that are possible. -/
theorem Follows.run? : ∀ {deeds : List Deed} {s : Rounds} {turns : List Turn} {t : Rounds},
    Follows conduct deeds s turns t → s.run? turns = some t
  | _, _, _, _, .nil => rfl
  | _, _, _, _, .cons hfirst hrest => run?_append_of hfirst.run? hrest.run?

end

end Rounds

/-! ## 2. Stages and records -/

/-- Whether a refresh that ended at a stage answers with a result. -/
def Stage.Answers : Stage → Except Fault Bool → Prop
  | .returned _ committed, .ok answer => committed = answer
  | .failed fault, .error f => fault = f
  | _, _ => False

theorem Stage.Answers.hasEnded {stage : Stage} {answer : Except Fault Bool}
    (h : stage.Answers answer) : stage.hasEnded = true := by
  cases stage with
  | returned => rfl
  | failed => rfl
  | gathering => cases answer <;> cases h
  | gathered => cases answer <;> cases h

/-- Whether whatever is gathered in a schedule can be gathered. -/
def Genuine (turns : List Turn) : Prop :=
  ∀ {call : Nat} {records : List FileRecord},
    .index (.gather call (.ok records)) ∈ turns → Gathered records

theorem genuine_nil : Genuine [] := fun hmem => absurd hmem List.not_mem_nil

theorem Genuine.append {first second : List Turn} (h : Genuine first) (k : Genuine second) :
    Genuine (first ++ second) := by
  intro call records hmem
  rcases List.mem_append.mp hmem with hmem | hmem
  · exact h hmem
  · exact k hmem

theorem Genuine.cons {turn : Turn} {rest : List Turn} (h : Genuine rest)
    (hturn : ∀ call records, turn = .index (.gather call (.ok records)) → Gathered records) :
    Genuine (turn :: rest) := by
  intro call records hmem
  rcases List.mem_cons.mp hmem with heq | hmem
  · exact hturn call records heq.symm
  · exact h hmem

/-! ## 3. The frame -/

namespace Rounds

/-- Whether the refreshes and rounds of a state are still as they were, and all newer ones are
over. -/
structure Grown (s t : Rounds) : Prop where
  calls : ∃ new, t.overlap.calls = s.overlap.calls ++ new ∧ ∀ c ∈ new, c.stage.hasEnded = true
  rounds : ∃ new, t.rounds = s.rounds ++ new ∧ ∀ r ∈ new, r.queue = some []

variable {s t u : Rounds}

theorem Grown.of_eq (hcalls : t.overlap.calls = s.overlap.calls) (hrounds : t.rounds = s.rounds) :
    Grown s t where
  calls := ⟨[], by rw [hcalls, List.append_nil], by simp⟩
  rounds := ⟨[], by rw [hrounds, List.append_nil], by simp⟩

theorem Grown.trans (h : Grown s t) (k : Grown t u) : Grown s u where
  calls := by
    obtain ⟨new, hnew, hended⟩ := h.calls
    obtain ⟨newer, hnewer, hended'⟩ := k.calls
    refine ⟨new ++ newer, by rw [hnewer, hnew, List.append_assoc], ?_⟩
    exact List.forall_mem_append.mpr ⟨hended, hended'⟩
  rounds := by
    obtain ⟨new, hnew, hover⟩ := h.rounds
    obtain ⟨newer, hnewer, hover'⟩ := k.rounds
    refine ⟨new ++ newer, by rw [hnewer, hnew, List.append_assoc], ?_⟩
    exact List.forall_mem_append.mpr ⟨hover, hover'⟩

theorem Grown.getElem?_rounds (h : Grown s t) {r : Nat} {round : Round}
    (hround : s.rounds[r]? = some round) : t.rounds[r]? = some round := by
  obtain ⟨new, hnew, -⟩ := h.rounds
  rw [hnew, List.getElem?_append_left (List.getElem?_eq_some_iff.mp hround).1, hround]

/-- A round that was there before goes on. -/
theorem Grown.left (h : Grown s t) {r : Nat} (hr : r < s.rounds.length) (call : Nat)
    (queue : List Callee) : Grown (s.left r call queue) (t.left r call queue) where
  calls := h.calls
  rounds := by
    obtain ⟨new, hnew, hover⟩ := h.rounds
    refine ⟨new, ?_, hover⟩
    rw [Rounds.left, hnew, List.set_append_left _ _ hr]
    rfl

theorem left_left (s : Rounds) (r call : Nat) (queue rest : List Callee) :
    (s.left r call queue).left r call rest = s.left r call rest := by
  simp [left]

theorem left_self {r call : Nat} {queue : List Callee}
    (h : s.rounds[r]? = some ⟨call, some queue⟩) : s.left r call queue = s := by
  obtain ⟨hr, hget⟩ := List.getElem?_eq_some_iff.mp h
  rw [left, ← hget, List.set_getElem_self]

/-- A state with one more refresh. -/
def withCall (s : Rounds) (number : Nat) (stage : Stage) : Rounds :=
  { s with overlap := ⟨s.overlap.index, s.overlap.calls ++ [⟨number, stage⟩]⟩ }

/-- A refresh that has ended is new and over. -/
theorem grown_withCall (s : Rounds) (number : Nat) {stage : Stage} (h : stage.hasEnded = true) :
    Grown s (withCall s number stage) where
  calls := ⟨[⟨number, stage⟩], rfl, by simpa using h⟩
  rounds := ⟨[], (List.append_nil _).symm, by simp⟩

theorem Grown.getElem?_calls {number : Nat} {stage : Stage}
    (h : Grown (withCall s number stage) t) :
    t.overlap.calls[s.overlap.calls.length]? = some ⟨number, stage⟩ := by
  obtain ⟨new, hnew, -⟩ := h.calls
  rw [hnew]
  simp [withCall]

/-- The first refresh that is new since a state moves on. -/
theorem Grown.advance {number : Nat} {stage : Stage} (h : Grown (withCall s number stage) t)
    (next : Stage) (index : Index) : Grown (withCall s number next)
      { t with overlap := t.overlap.advance s.overlap.calls.length ⟨number, next⟩ index } where
  calls := by
    obtain ⟨new, hnew, hended⟩ := h.calls
    refine ⟨new, ?_, hended⟩
    rw [Overlap.advance, hnew]
    simp [withCall]
  rounds := h.rounds

/-! ## 4. Single turns -/

theorem step?_index {move : Move} {overlap : Overlap}
    (hstep : s.overlap.step? move = some overlap) (hnone : overlap.committedBy move = none) :
    s.step? (.index move) = some { s with overlap } := by
  simp [step?, hstep, moved, hnone]

/-- A refresh that has not come up with a result yet does. -/
theorem step?_gather {number : Nat} (h : Grown (withCall s number .gathering) t)
    (result : Except Fault (List FileRecord)) :
    t.step? (.index (.gather s.overlap.calls.length result)) = some { t with
      overlap := t.overlap.advance s.overlap.calls.length ⟨number, .ofResult result⟩
        t.overlap.index } :=
  step?_index (by simp [Overlap.step?, h.getElem?_calls]) rfl

/-- A refresh that was overtaken is turned away. -/
theorem step?_supersede {number : Nat} {records : List FileRecord}
    (h : Grown (withCall s number (.gathered records)) t)
    (hnewer : number < t.overlap.index.started) :
    t.step? (.index (.conclude s.overlap.calls.length)) = some { t with
      overlap := t.overlap.advance s.overlap.calls.length ⟨number, .returned records false⟩
        t.overlap.index } := by
  have hcall := h.getElem?_calls
  have hmove := Overlap.step?_conclude hcall
  rw [if_pos hnewer] at hmove
  exact step?_index hmove (by simp [Overlap.committedBy, Overlap.calls_advance hcall])

/-- A refresh that was not overtaken takes effect, and its round is due. Once that is made, the
refresh and its round are new and over. -/
theorem exists_commit {number : Nat} {records : List FileRecord}
    (h : Grown (withCall s number (.gathered records)) t)
    (hlast : ¬number < t.overlap.index.started) :
    ∃ due, t.step? (.index (.conclude s.overlap.calls.length)) = some due ∧
      due.overlap.index
        = { t.overlap.index with generation := number, snapshot := ⟨records⟩ } ∧
      due.toWatchers = t.toWatchers ∧ due.observersCalled = t.observersCalled ∧
      due.rounds[t.rounds.length]? = some ⟨s.overlap.calls.length, none⟩ ∧
      Grown (withCall s number (.returned records true))
        (due.left t.rounds.length s.overlap.calls.length []) := by
  have hcall := h.getElem?_calls
  have hmove := Overlap.step?_conclude hcall
  rw [if_neg hlast] at hmove
  let due : Rounds := { t with
    overlap := t.overlap.advance s.overlap.calls.length ⟨number, .returned records true⟩
      { t.overlap.index with generation := number, snapshot := ⟨records⟩ }
    rounds := t.rounds ++ [⟨s.overlap.calls.length, none⟩]
    log := t.log ++ [.committed t.rounds.length] }
  have hnobody : (Happening.committed t.rounds.length).observer? = none := rfl
  have hsame : due.observersCalled = t.observersCalled := observersCalled_noticed_of_none hnobody t
  refine ⟨due, ?_, rfl, rfl, hsame, List.getElem?_concat_length, (h.advance _ _).calls, ?_⟩
  · simp [step?, hmove, moved, Overlap.committedBy, Overlap.calls_advance hcall, due]
  · obtain ⟨new, hnew, hover⟩ := h.rounds
    refine ⟨new ++ [⟨s.overlap.calls.length, some []⟩], ?_, ?_⟩
    · show (t.rounds ++ [_]).set t.rounds.length _ = _
      rw [List.set_append_right _ _ (Nat.le_refl _), Nat.sub_self, List.set_cons_zero, hnew,
        List.append_assoc]
      rfl
    · exact List.forall_mem_append.mpr ⟨hover, by simp⟩

end Rounds

end Marginalia
