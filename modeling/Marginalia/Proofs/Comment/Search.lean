/-
Marginalia.Proofs.Comment.Search — the linear scan finds what a search finds.

A delimited comment is what the pattern "opener, any characters, closer" finds
with as few characters in between as possible. A search for that pattern tries
every start: from the first opener that has a closer somewhere behind it, to
the first closer behind that opener, and on from there. The scan of
`delimitedMatches` is shorter: it takes the first opener, and if that one has no
closer it gives up for good.

* `Delimiters.Encloses` says which stretches the pattern can take at all. The
  closer begins behind the opener, so `/*/` is none of them.
* `Delimiters.Finds` picks one: the smallest start, and then the smallest stop.
  `Delimiters.Searched` goes on from its stop.
* A search has one outcome (`Searched.unique`), and it is that of the scan
  (`searched_delimitedMatches`). The first opener is the right start because a
  closer behind a later opener stands behind the first one too; that is also
  why nothing is lost when the scan gives up.
* `Searched.map` carries a search from one content to another in which the same
  stretches lie elsewhere.
-/
import Mathlib.Order.Monotone.Basic
import Marginalia.Proofs.Comment.Place

namespace Marginalia

/-! ## 1. The first occurrence -/

/-- Where a piece is found, it splits the text. -/
theorem indexOf?_eq_append {piece : Text} : ∀ {t : Text} {n i : Nat}, indexOf? piece n t = some i →
    ∃ before after, t = before ++ (piece ++ after) ∧ i = n + before.length
  | [], n, i, h => by
      unfold indexOf? at h
      split at h
      next hp =>
        obtain rfl := Option.some.inj h
        exact ⟨[], [], by simp [List.isEmpty_iff.mp hp], rfl⟩
      next => cases h
  | c :: rest, n, i, h => by
      unfold indexOf? at h
      split at h
      next hp =>
        obtain rfl := Option.some.inj h
        obtain ⟨after, hafter⟩ := List.isPrefixOf_iff_prefix.mp hp
        exact ⟨[], after, hafter.symm, rfl⟩
      next =>
        obtain ⟨before, after, rfl, rfl⟩ := indexOf?_eq_append h
        exact ⟨c :: before, after, rfl, by simp only [List.length_cons]; omega⟩

/-- A piece is found where it stands first. -/
theorem le_of_indexOf?_eq_some {piece : Text} : ∀ {t : Text} {n i k : Nat},
    indexOf? piece n t = some i → piece <+: t.drop k → i ≤ n + k
  | [], n, i, k, h, _ => by
      unfold indexOf? at h
      split at h
      next => exact (Option.some.inj h) ▸ Nat.le_add_right n k
      next => cases h
  | c :: rest, n, i, k, h, hk => by
      unfold indexOf? at h
      split at h
      next => exact (Option.some.inj h) ▸ Nat.le_add_right n k
      next hp =>
        cases k with
        | zero => exact absurd (List.isPrefixOf_iff_prefix.mpr hk) hp
        | succ k =>
          have := le_of_indexOf?_eq_some h hk
          omega

/-- A piece that is not found stands nowhere. -/
theorem not_isPrefix_of_indexOf?_eq_none {piece : Text} : ∀ {t : Text} {n : Nat} (k : Nat),
    indexOf? piece n t = none → ¬piece <+: t.drop k
  | [], n, k, h => by
      unfold indexOf? at h
      split at h
      next => cases h
      next hp =>
        intro hk
        rw [List.drop_nil] at hk
        exact hp (List.isEmpty_iff.mpr (List.prefix_nil.mp hk))
  | c :: rest, n, k, h => by
      unfold indexOf? at h
      split at h
      next => cases h
      next hp =>
        cases k with
        | zero => exact fun hk => hp (List.isPrefixOf_iff_prefix.mpr hk)
        | succ k => exact not_isPrefix_of_indexOf?_eq_none k h

/-! ## 2. Stretches -/

namespace Delimiters

/-- Whether the content from `start` up to `stop` reads opener, any characters, closer. -/
def Encloses (d : Delimiters) (content : Text) (start stop : Nat) : Prop :=
  ∃ before body after : Text, content = before ++ (d.opener ++ (body ++ (d.closer ++ after))) ∧
    start = before.length ∧ stop = start + d.opener.length + body.length + d.closer.length

/-- The match of a stretch. -/
def matchAt (d : Delimiters) (content : Text) (start stop : Nat) : Match :=
  ⟨d.kind, (content.drop start).take (stop - start), start, none⟩

/-- Whether a stretch is the one that a search from `pos` on finds: it has the smallest start, and
of those with that start the smallest stop. -/
structure Finds (d : Delimiters) (content : Text) (pos start stop : Nat) : Prop where
  encloses : d.Encloses content start stop
  pos_le : pos ≤ start
  start_le : ∀ i j, pos ≤ i → d.Encloses content i j → start ≤ i
  stop_le : ∀ j, d.Encloses content start j → stop ≤ j

/-- What a search from `pos` on yields. It goes on where the stretch that it found stops. -/
inductive Searched (d : Delimiters) (content : Text) : Nat → List Match → Prop where
  | nothing {pos : Nat} : (∀ start stop, pos ≤ start → ¬d.Encloses content start stop) →
      Searched d content pos []
  | found {pos start stop : Nat} {rest : List Match} : d.Finds content pos start stop →
      Searched d content stop rest → Searched d content pos (d.matchAt content start stop :: rest)

variable {d : Delimiters} {content : Text} {pos start stop : Nat}

/-- An opener stands at the start of a stretch, and a closer behind it where the stretch ends. -/
theorem Encloses.isPrefix (h : d.Encloses content start stop) :
    d.opener <+: content.drop start ∧ ∃ k, d.closer <+: content.drop (start + d.opener.length + k) ∧
      stop = start + d.opener.length + k + d.closer.length := by
  obtain ⟨before, body, after, rfl, rfl, rfl⟩ := h
  refine ⟨?_, body.length, ?_, rfl⟩
  · rw [List.drop_left]
    exact List.prefix_append _ _
  · rw [Nat.add_assoc, ← List.drop_drop, List.drop_left, ← List.drop_drop, List.drop_left,
      List.drop_left]
    exact List.prefix_append _ _

/-- A stretch is a piece of the content. -/
theorem Encloses.exists_append (h : d.Encloses content start stop) :
    ∃ before text after : Text, content = before ++ (text ++ after) ∧ start = before.length ∧
      stop = before.length + text.length := by
  obtain ⟨before, body, after, rfl, rfl, rfl⟩ := h
  refine ⟨before, d.opener ++ (body ++ d.closer), after, by simp, rfl, ?_⟩
  simp only [List.length_append, Nat.add_assoc]

/-- The match of a stretch has the characters of the stretch. -/
theorem matchAt_append (d : Delimiters) (before text after : Text) :
    d.matchAt (before ++ (text ++ after)) before.length (before.length + text.length)
      = ⟨d.kind, text, before.length, none⟩ := by
  rw [matchAt, List.drop_left, Nat.add_sub_cancel_left, List.take_left]

theorem Encloses.start_lt (h : d.Encloses content start stop) : start < stop := by
  have hopener := List.length_pos_iff.mpr d.opener_ne_nil
  obtain ⟨_, body, _, -, -, rfl⟩ := h
  omega

theorem Encloses.stop_le_length (h : d.Encloses content start stop) : stop ≤ content.length := by
  obtain ⟨before, text, after, rfl, rfl, rfl⟩ := h.exists_append
  simp only [List.length_append]
  omega

/-- The match of a stretch takes up the stretch. -/
theorem Encloses.offset_add_length (h : d.Encloses content start stop) :
    (d.matchAt content start stop).offset + (d.matchAt content start stop).text.length = stop := by
  obtain ⟨before, text, after, rfl, rfl, rfl⟩ := h.exists_append
  rw [matchAt_append]

/-! ## 3. Searches -/

theorem Finds.unique {start' stop' : Nat} (h : d.Finds content pos start stop)
    (h' : d.Finds content pos start' stop') : start = start' ∧ stop = stop' := by
  obtain rfl : start = start' :=
    Nat.le_antisymm (h.start_le _ _ h'.pos_le h'.encloses) (h'.start_le _ _ h.pos_le h.encloses)
  exact ⟨rfl, Nat.le_antisymm (h.stop_le _ h'.encloses) (h'.stop_le _ h.encloses)⟩

/-- A search has one outcome. -/
theorem Searched.unique {ms ms' : List Match} (h : d.Searched content pos ms)
    (h' : d.Searched content pos ms') : ms = ms' := by
  induction h generalizing ms' with
  | nothing hnone =>
    cases h' with
    | nothing => rfl
    | found hfinds => exact absurd hfinds.encloses (hnone _ _ hfinds.pos_le)
  | found hfinds _ ih =>
    cases h' with
    | nothing hnone => exact absurd hfinds.encloses (hnone _ _ hfinds.pos_le)
    | found hfinds' hrest' =>
      obtain ⟨rfl, rfl⟩ := hfinds.unique hfinds'
      rw [ih hrest']

/-- Nothing is found before the place where a search begins. -/
theorem Searched.pos_le {ms : List Match} (h : d.Searched content pos ms) :
    ∀ m ∈ ms, pos ≤ m.offset := by
  induction h with
  | nothing => exact fun m hm => absurd hm List.not_mem_nil
  | found hfinds _ ih =>
    intro m hm
    rcases List.mem_cons.mp hm with rfl | hm
    · exact hfinds.pos_le
    · exact Nat.le_trans hfinds.pos_le
        (Nat.le_trans (Nat.le_of_lt hfinds.encloses.start_lt) (ih m hm))

/-- Every match of a search is the match of a stretch. -/
theorem Searched.exists_of_mem {ms : List Match} (h : d.Searched content pos ms) :
    ∀ m ∈ ms, ∃ start stop, d.Encloses content start stop ∧ m = d.matchAt content start stop := by
  induction h with
  | nothing => exact fun m hm => absurd hm List.not_mem_nil
  | found hfinds _ ih =>
    intro m hm
    rcases List.mem_cons.mp hm with rfl | hm
    · exact ⟨_, _, hfinds.encloses, rfl⟩
    · exact ih m hm

/-- Each match of a search begins where the ones before it have ended, or later. -/
theorem Searched.pairwise {ms : List Match} (h : d.Searched content pos ms) :
    ms.Pairwise fun a b => a.offset < b.offset ∧ a.offset + a.text.length ≤ b.offset := by
  induction h with
  | nothing => exact List.Pairwise.nil
  | found hfinds hrest ih =>
    refine List.Pairwise.cons (fun m hm => ?_) ih
    rw [hfinds.encloses.offset_add_length]
    exact ⟨Nat.lt_of_lt_of_le hfinds.encloses.start_lt (hrest.pos_le m hm), hrest.pos_le m hm⟩

/-- A search finds the same in another content where the same stretches lie, moved by `f`. -/
theorem Searched.map {content' : Text} {f : Nat → Nat} (hf : StrictMono f)
    (hiff : ∀ i' j', d.Encloses content' i' j' ↔
      ∃ i j, f i = i' ∧ f j = j' ∧ d.Encloses content i j)
    {ms : List Match} (h : d.Searched content pos ms) :
    d.Searched content' (f pos)
      (ms.map fun m => d.matchAt content' (f m.offset) (f (m.offset + m.text.length))) := by
  induction h with
  | nothing hnone =>
    refine .nothing fun start' stop' hpos h' => ?_
    obtain ⟨start, stop, rfl, rfl, hencloses⟩ := (hiff _ _).mp h'
    exact hnone start stop (hf.le_iff_le.mp hpos) hencloses
  | @found pos start stop rest hfinds _ ih =>
    rw [List.map_cons, hfinds.encloses.offset_add_length]
    refine .found ⟨?_, ?_, ?_, ?_⟩ ih
    · exact (hiff _ _).mpr ⟨start, stop, rfl, rfl, hfinds.encloses⟩
    · exact hf.monotone hfinds.pos_le
    · intro i' j' hpos h'
      obtain ⟨i, j, rfl, rfl, hencloses⟩ := (hiff _ _).mp h'
      exact hf.monotone (hfinds.start_le i j (hf.le_iff_le.mp hpos) hencloses)
    · intro j' h'
      obtain ⟨i, j, hi, rfl, hencloses⟩ := (hiff _ _).mp h'
      obtain rfl : i = start := hf.injective hi
      exact hf.monotone (hfinds.stop_le j hencloses)

end Delimiters

/-! ## 4. The scan -/

section

variable {d : Delimiters} {content : Text} {offset i j : Nat}

/-- From the first opener to the first closer behind it is a stretch. -/
theorem encloses_of_indexOf? (hopen : indexOf? d.opener 0 (content.drop offset) = some i)
    (hclose : indexOf? d.closer 0 ((content.drop offset).drop (i + d.opener.length)) = some j)
    (hoffset : offset ≤ content.length) :
    d.Encloses content (offset + i) (offset + (i + (d.opener.length + j + d.closer.length))) := by
  obtain ⟨before, rest, hsplit, rfl⟩ := indexOf?_eq_append hopen
  rw [hsplit, Nat.zero_add, ← List.drop_drop, List.drop_left, List.drop_left] at hclose
  obtain ⟨body, after, rfl, rfl⟩ := indexOf?_eq_append hclose
  refine ⟨content.take offset ++ before, body, after, ?_, ?_, ?_⟩
  · rw [List.append_assoc, ← hsplit, List.take_append_drop]
  · rw [List.length_append, List.length_take]
    omega
  · omega

/-- A stretch begins with the first opener or later. -/
theorem le_start_of_indexOf? {start stop : Nat}
    (hopen : indexOf? d.opener 0 (content.drop offset) = some i) (hpos : offset ≤ start)
    (h : d.Encloses content start stop) : offset + i ≤ start := by
  have hstart : content.drop start = (content.drop offset).drop (start - offset) := by
    rw [List.drop_drop, Nat.add_sub_cancel' hpos]
  have hopener := h.isPrefix.1
  rw [hstart] at hopener
  have := le_of_indexOf?_eq_some hopen hopener
  omega

/-- What closes a stretch that begins with the first opener or later stands behind the first
opener. -/
theorem exists_closer_of_encloses {start stop : Nat} (hpos : offset + i ≤ start)
    (h : d.Encloses content start stop) :
    ∃ k, d.closer <+: ((content.drop offset).drop (i + d.opener.length)).drop k ∧
      stop = offset + i + d.opener.length + k + d.closer.length := by
  obtain ⟨-, k, hcloser, rfl⟩ := h.isPrefix
  refine ⟨start - (offset + i) + k, ?_, by omega⟩
  rw [List.drop_drop, List.drop_drop]
  have hplace : offset + (i + d.opener.length + (start - (offset + i) + k))
      = start + d.opener.length + k := by omega
  rwa [hplace]

end

/-- **The scan is a search.** The induction is that of the scan. -/
theorem searched_delimitedMatches {d : Delimiters} {content t : Text} {offset : Nat}
    (hoffset : offset ≤ content.length) (ht : content.drop offset = t) :
    d.Searched content offset (delimitedMatches d offset t) := by
  fun_induction delimitedMatches d offset t with
  | case1 offset t hopen =>
    subst ht
    refine .nothing fun start stop hpos h => ?_
    have hopener := h.isPrefix.1
    rw [← Nat.add_sub_cancel' hpos, ← List.drop_drop] at hopener
    exact not_isPrefix_of_indexOf?_eq_none _ hopen hopener
  | case2 offset t i hopen hclose =>
    subst ht
    refine .nothing fun start stop hpos h => ?_
    obtain ⟨k, hcloser, -⟩ := exists_closer_of_encloses (le_start_of_indexOf? hopen hpos h) h
    exact not_isPrefix_of_indexOf?_eq_none k hclose hcloser
  | case3 offset t i hopen j hclose size ih =>
    subst ht
    have hencloses := encloses_of_indexOf? hopen hclose hoffset
    have htext : (⟨d.kind, ((content.drop offset).drop i).take size, offset + i, none⟩ : Match)
        = d.matchAt content (offset + i) (offset + (i + size)) := by
      rw [Delimiters.matchAt, List.drop_drop, ← Nat.add_assoc, Nat.add_sub_cancel_left]
    rw [htext]
    refine .found ⟨hencloses, Nat.le_add_right _ _, ?_, ?_⟩ (ih hencloses.stop_le_length ?_)
    · exact fun start stop hpos h => le_start_of_indexOf? hopen hpos h
    · intro stop h
      obtain ⟨k, hcloser, rfl⟩ := exists_closer_of_encloses (Nat.le_refl _) h
      have hfirst := le_of_indexOf?_eq_some hclose hcloser
      simp only [size]
      omega
    · rw [List.drop_drop]

/-- **The linear scan yields what the search yields**, for every pair of delimiters and every
content: from the end of one match on, the smallest start at which an opener is followed by a
closer, and the smallest end of such a closer. The matches come in order and do not overlap. -/
theorem delimitedMatches_searched (d : Delimiters) (content : Text) :
    (∀ ms, d.Searched content 0 ms ↔ ms = delimitedMatches d 0 content) ∧
      (delimitedMatches d 0 content).Pairwise fun a b =>
        a.offset < b.offset ∧ a.offset + a.text.length ≤ b.offset := by
  have hscan : d.Searched content 0 (delimitedMatches d 0 content) :=
    searched_delimitedMatches (Nat.zero_le _) rfl
  refine ⟨fun ms => ⟨fun h => h.unique hscan, ?_⟩, hscan.pairwise⟩
  rintro rfl
  exact hscan

/-- The closer of a comment is never part of its opener. -/
example : delimitedMatches blockDelimiters 0 "/*/ x */ /*/".toList
    = [⟨.block, "/*/ x */".toList, 0, none⟩] := by
  decide +kernel

end Marginalia
