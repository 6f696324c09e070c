/-
Marginalia.Proofs.Brace.Meaning — what a pattern with braces stands for.

The parts of a pattern stand for texts (`Part.texts`, `textsOf`): a character
for itself, a group for what its alternatives stand for, and parts in a row for
every combination, the first part's varying most slowly. `Brace.expand` knows no
parts. It puts an alternative in place of the first group and looks at the
result from the start, and it drops repetitions each time.

* Nothing in front of the first group matters, as it has no opening brace. So an
  alternative that is put in place is expanded as if it stood alone, and each of
  its texts becomes part of what is in front (`ReadsChoice.expand`).
* Dropping repetitions early changes nothing, so lists are compared up to
  repetitions on the way (`eraseDups_append_congr`, `eraseDups_flatMap_congr`).
* `expand_eq_texts` puts both together: `expand` yields the texts of the one
  reading that the pattern has, each where it comes first.
-/
import Marginalia.Proofs.Brace.Grammar

namespace Marginalia.Brace

/-! ## 1. Repetitions -/

section

variable {α β : Type} [BEq α] [LawfulBEq α]

/-- Repetitions may be dropped before or after some of the members are. -/
theorem eraseDups_filter (p : α → Bool) (l : List α) :
    (l.filter p).eraseDups = l.eraseDups.filter p := by
  match l with
  | [] => rfl
  | a :: rest =>
    have hrest := eraseDups_filter p (rest.filter fun b => !b == a)
    rw [List.eraseDups_cons]
    cases ha : p a with
    | true =>
      have hcomm : (rest.filter p).filter (fun b => !b == a)
          = (rest.filter fun b => !b == a).filter p := by
        rw [List.filter_filter, List.filter_filter]
        exact List.filter_congr fun b _ => Bool.and_comm _ _
      rw [List.filter_cons_of_pos ha, List.filter_cons_of_pos ha, List.eraseDups_cons, hcomm, hrest]
    | false =>
      -- the members that `p` leaves are not equal to `a`
      have hsame : (rest.filter fun b => !b == a).filter p = rest.filter p := by
        rw [List.filter_filter]
        refine List.filter_congr fun b _ => ?_
        by_cases hb : b = a
        · simp [hb, ha]
        · simp [hb]
      rw [List.filter_cons_of_neg (by simp [ha]), List.filter_cons_of_neg (by simp [ha]), ← hrest,
        hsame]
termination_by l.length
decreasing_by exact Nat.lt_succ_of_le (List.length_filter_le _ _)

/-- Repetitions may be dropped before or after the members are mapped to distinct ones. -/
theorem eraseDups_map [BEq β] [LawfulBEq β] {f : α → β} (hf : Function.Injective f) (l : List α) :
    (l.map f).eraseDups = l.eraseDups.map f := by
  match l with
  | [] => rfl
  | a :: rest =>
    have hrest := eraseDups_map hf (rest.filter fun b => !b == a)
    have hsame : (rest.map f).filter (fun b => !b == f a) = (rest.filter fun b => !b == a).map f := by
      rw [List.filter_map]
      refine congrArg _ (List.filter_congr fun b _ => ?_)
      have hbeq : (f b == f a) = (b == a) := by
        rw [Bool.eq_iff_iff, beq_iff_eq, beq_iff_eq]
        exact ⟨fun h => hf h, congrArg f⟩
      rw [Function.comp_apply, hbeq]
    rw [List.map_cons, List.eraseDups_cons, List.eraseDups_cons, List.map_cons, hsame, hrest]
termination_by l.length
decreasing_by exact Nat.lt_succ_of_le (List.length_filter_le _ _)

theorem nodup_eraseDups (l : List α) : l.eraseDups.Nodup := by
  match l with
  | [] => exact List.nodup_nil
  | a :: rest =>
    rw [List.eraseDups_cons, List.nodup_cons]
    refine ⟨fun hmem => ?_, nodup_eraseDups (rest.filter fun b => !b == a)⟩
    simpa using (List.mem_filter.mp (List.mem_eraseDups.mp hmem)).2
termination_by l.length
decreasing_by exact Nat.lt_succ_of_le (List.length_filter_le _ _)

/-- What comes first counts, so a list may be replaced by one that is the same up to repetitions. -/
theorem eraseDups_append_congr {l l' m m' : List α} (hl : l.eraseDups = l'.eraseDups)
    (hm : m.eraseDups = m'.eraseDups) : (l ++ m).eraseDups = (l' ++ m').eraseDups := by
  have hmem : ∀ a, l.elem a = l'.elem a := by
    intro a
    have hiff : a ∈ l ↔ a ∈ l' := by rw [← List.mem_eraseDups, hl, List.mem_eraseDups]
    rw [List.elem_eq_mem, List.elem_eq_mem, decide_eq_decide]
    exact hiff
  rw [List.eraseDups_append, List.eraseDups_append, hl, List.removeAll, List.removeAll,
    eraseDups_filter, eraseDups_filter, hm]
  simp only [hmem]

theorem eraseDups_flatMap_congr {f g : β → List α} {l : List β}
    (h : ∀ b ∈ l, (f b).eraseDups = (g b).eraseDups) :
    (l.flatMap f).eraseDups = (l.flatMap g).eraseDups := by
  induction l with
  | nil => rfl
  | cons b rest ih =>
    obtain ⟨hb, hrest⟩ := List.forall_mem_cons.mp h
    rw [List.flatMap_cons, List.flatMap_cons]
    exact eraseDups_append_congr hb (ih hrest)

theorem eraseDups_of_nodup {l : List α} (h : l.Nodup) : l.eraseDups = l := by
  induction l with
  | nil => rfl
  | cons a rest ih =>
    obtain ⟨hnot, hrest⟩ := List.nodup_cons.mp h
    have hkept : ∀ b ∈ rest, (!b == a) = true := by
      intro b hb
      have hne : b ≠ a := fun heq => hnot (heq ▸ hb)
      simpa using hne
    rw [List.eraseDups_cons, List.filter_eq_self.mpr hkept, ih hrest]

theorem eraseDups_eraseDups (l : List α) : l.eraseDups.eraseDups = l.eraseDups :=
  eraseDups_of_nodup (nodup_eraseDups l)

end

/-! ## 2. The texts of parts -/

mutual

/-- The texts that a part stands for. -/
def Part.texts : Part → List Text
  | .literal c => [[c]]
  | .group choices => textsOfChoices choices

/-- The texts that parts in a row stand for: every combination, those with the first text of the
first part first. -/
def textsOf : List Part → List Text
  | [] => [[]]
  | part :: parts => part.texts.flatMap fun front => (textsOf parts).map (front ++ ·)

/-- The texts that alternatives stand for, those of the first alternative first. -/
def textsOfChoices : List (List Part) → List Text
  | [] => []
  | parts :: choices => textsOf parts ++ textsOfChoices choices

end

/-- Characters that stand for themselves stand for one text. -/
theorem textsOf_literals (t : Text) : textsOf (t.map .literal) = [t] := by
  induction t with
  | nil => rfl
  | cons c t ih => rw [List.map_cons, textsOf, ih]; rfl

theorem textsOf_literal_cons (c : Char) (parts : List Part) :
    textsOf (.literal c :: parts) = (textsOf parts).map (c :: ·) := by
  simp [textsOf, Part.texts]

theorem textsOf_group_cons (choices : List (List Part)) (parts : List Part) :
    textsOf (.group choices :: parts)
      = (textsOfChoices choices).flatMap fun front => (textsOf parts).map (front ++ ·) := rfl

mutual

/-- The texts of an alternative have no braces any more. -/
theorem ReadsChoice.not_mem_texts : ∀ {t : Text} {parts : List Part}, ReadsChoice t parts →
    ∀ s ∈ textsOf parts, '{' ∉ s
  | _, _, .nil, s, hs => by
      rw [List.mem_singleton.mp hs]
      exact List.not_mem_nil
  | _, _, .literal hopen _ _ h, s, hs => by
      rw [textsOf_literal_cons] at hs
      obtain ⟨rest, hrest, rfl⟩ := List.mem_map.mp hs
      exact List.not_mem_cons_of_ne_of_not_mem hopen.symm (h.not_mem_texts rest hrest)
  | _, _, .group hchoices h, s, hs => by
      rw [textsOf_group_cons] at hs
      obtain ⟨front, hfront, hs⟩ := List.mem_flatMap.mp hs
      obtain ⟨rest, hrest, rfl⟩ := List.mem_map.mp hs
      exact List.not_mem_append (hchoices.not_mem_texts front hfront) (h.not_mem_texts rest hrest)

theorem ReadsChoices.not_mem_texts : ∀ {texts : List Text} {choices : List (List Part)},
    ReadsChoices texts choices → ∀ s ∈ textsOfChoices choices, '{' ∉ s
  | _, _, .one h, s, hs => by
      rw [textsOfChoices, textsOfChoices, List.append_nil] at hs
      exact h.not_mem_texts s hs
  | _, _, .more h hmore, s, hs => by
      rw [textsOfChoices] at hs
      exact (List.mem_append.mp hs).elim (h.not_mem_texts s) (hmore.not_mem_texts s)

end

/-! ## 3. Putting alternatives in place -/

/-- What stands in front of the first brace stays in front. -/
theorem split?_append {front : Text} (hfront : '{' ∉ front) (inner : Text) :
    split? (front ++ '{' :: inner)
      = (alternatives? 0 [] inner).map fun r => ⟨front, r.1, r.2⟩ := by
  have hplain : ∀ c ∈ front, decide (c ≠ '{') = true := fun c hc =>
    decide_eq_true fun heq => hfront (heq ▸ hc)
  have htake : (front ++ '{' :: inner).takeWhile (· ≠ '{') = front := by
    rw [List.takeWhile_append_of_pos hplain]
    simp
  have hdrop : (front ++ '{' :: inner).dropWhile (· ≠ '{') = '{' :: inner := by
    rw [List.dropWhile_append_of_pos hplain]
    simp
  unfold split?
  rw [htake, hdrop]

/-- A group is expanded by its alternatives, one after the other. -/
theorem expand_group {front : Text} (hfront : '{' ∉ front) {texts : List Text}
    {choices : List (List Part)} (hchoices : ReadsChoices texts choices) (rest : Text) :
    expand (front ++ '{' :: (Text.join [','] texts ++ '}' :: rest))
      = (texts.flatMap fun t => expand (front ++ t ++ rest)).eraseDups := by
  refine expand_of_split?_some (g := ⟨front, texts, rest⟩) ?_
  rw [split?_append hfront, alternatives?_join rest hchoices]
  rfl

mutual

/-- An alternative in place is expanded to its texts in place. The text behind it may have braces of
any kind, the text in front has no opening one. -/
theorem ReadsChoice.expand : ∀ {t : Text} {parts : List Part}, ReadsChoice t parts →
    ∀ {front : Text}, '{' ∉ front → ∀ rest : Text,
      (Brace.expand (front ++ t ++ rest)).eraseDups
        = ((textsOf parts).flatMap fun s => Brace.expand (front ++ s ++ rest)).eraseDups
  | _, _, .nil, front, _, rest => by
      rw [textsOf, List.flatMap_singleton]
  | _, _, .literal (c := c) (t := t) hopen _ _ h, front, hfront, rest => by
      have hfront' : '{' ∉ front ++ [c] :=
        List.not_mem_append hfront (by simpa using hopen.symm)
      have ih := h.expand hfront' rest
      simp only [List.append_assoc, List.singleton_append] at ih
      simp only [textsOf_literal_cons, List.flatMap_map, List.append_assoc, List.cons_append]
      exact ih
  | _, _, @ReadsChoice.group texts choices after parts hchoices h, front, hfront, rest => by
      have hshape : front ++ '{' :: (Text.join [','] texts ++ '}' :: after) ++ rest
          = front ++ '{' :: (Text.join [','] texts ++ '}' :: (after ++ rest)) := by simp
      rw [hshape, expand_group hfront hchoices, eraseDups_eraseDups,
        hchoices.expand hfront (after ++ rest), textsOf_group_cons, List.flatMap_assoc]
      refine eraseDups_flatMap_congr fun s hs => ?_
      have hfront' : '{' ∉ front ++ s :=
        List.not_mem_append hfront (hchoices.not_mem_texts s hs)
      have ih := h.expand hfront' rest
      simp only [List.append_assoc] at ih
      simp only [List.flatMap_map, List.append_assoc]
      exact ih

theorem ReadsChoices.expand : ∀ {texts : List Text} {choices : List (List Part)},
    ReadsChoices texts choices → ∀ {front : Text}, '{' ∉ front → ∀ rest : Text,
      (texts.flatMap fun t => Brace.expand (front ++ t ++ rest)).eraseDups
        = ((textsOfChoices choices).flatMap fun s => Brace.expand (front ++ s ++ rest)).eraseDups
  | _, _, .one h, front, hfront, rest => by
      rw [textsOfChoices, textsOfChoices, List.append_nil, List.flatMap_singleton]
      exact h.expand hfront rest
  | _, _, .more h hmore, front, hfront, rest => by
      rw [textsOfChoices, List.flatMap_cons, List.flatMap_append]
      exact eraseDups_append_congr (h.expand hfront rest) (hmore.expand hfront rest)

end

/-! ## 4. Patterns -/

/-- A pattern behind a text without opening braces is expanded to its texts behind that text. -/
theorem Reads.expand {pattern : Text} {parts : List Part} (h : Reads pattern parts) :
    ∀ {front : Text}, '{' ∉ front →
      Brace.expand (front ++ pattern) = ((textsOf parts).map (front ++ ·)).eraseDups := by
  induction h with
  | nil =>
    intro front hfront
    rw [List.append_nil, expand_of_not_mem hfront, textsOf, List.map_singleton, List.append_nil]
    rfl
  | @literal c t parts hopen _ ih =>
    intro front hfront
    have hfront' : '{' ∉ front ++ [c] :=
      List.not_mem_append hfront (by simpa using hopen.symm)
    have ih := ih hfront'
    simp only [List.append_assoc, List.singleton_append] at ih
    rw [ih, textsOf_literal_cons, List.map_map]
    rfl
  | @group texts choices after parts hchoices _ ih =>
    intro front hfront
    rw [expand_group hfront hchoices, hchoices.expand hfront after, textsOf_group_cons,
      List.map_flatMap]
    refine eraseDups_flatMap_congr fun s hs => ?_
    have hfront' : '{' ∉ front ++ s := List.not_mem_append hfront (hchoices.not_mem_texts s hs)
    rw [ih hfront', eraseDups_eraseDups, List.map_map]
    simp only [Function.comp_def, List.append_assoc]
  | @unclosed t hopen =>
    intro front hfront
    have hsplit : split? (front ++ '{' :: t) = none := by
      rw [split?_append hfront, alternatives?_of_not_closed hopen]
      rfl
    rw [expand_of_split?_none hsplit, textsOf_literals]
    rfl

/-- **A pattern is expanded to what it stands for.** It reads in exactly one way, as characters that
stand for themselves and balanced groups, and its expansions are the texts of that reading, in
order, without those that came before. -/
theorem expand_eq_texts (pattern : Text) :
    ∃ parts, (∀ other, Reads pattern other ↔ other = parts) ∧
      expand pattern = (textsOf parts).eraseDups := by
  obtain ⟨parts, hparts⟩ := existsUnique_reads pattern
  refine ⟨parts, hparts, ?_⟩
  have hexpand := ((hparts parts).mpr rfl).expand (List.not_mem_nil (a := '{'))
  simpa using hexpand

/-- A group in a group, an empty alternative, a text that comes twice, a closing brace and a comma
outside of groups, and a brace that is not closed. -/
example : expand "a\x7d{b{,c},b},\x7bd,{e}".toList
    = ["a\x7db,\x7bd,{e}".toList, "a\x7dbc,\x7bd,{e}".toList] := by
  cbv

end Marginalia.Brace
