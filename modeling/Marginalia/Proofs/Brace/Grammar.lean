/-
Marginalia.Proofs.Brace.Grammar — how a pattern with braces reads.

A pattern reads from left to right as parts (`Part`): characters that stand for
themselves, and groups. A group is a list of alternatives between braces, with
commas between them, and each alternative reads as parts in turn.

* `ReadsChoice` is the grammar of an alternative. Every brace and every comma in
  it belongs to a group.
* `Reads` is the grammar of a pattern. Outside of groups commas and closing
  braces stand for themselves, and so does everything from an opening brace on
  that has no closing one (`Closed`).
* A pattern reads in one way (`existsUnique_reads`). Totality needs no scan: a
  balanced text reads as alternatives by its own structure. Uniqueness comes
  from the scan, which has one result (`alternatives?_join`).
-/
import Marginalia.Brace

namespace Marginalia.Brace

/-! ## 1. The grammar -/

/-- A part of a pattern: a character that stands for itself, or a group of alternatives. -/
inductive Part where
  | literal (c : Char)
  | group (choices : List (List Part))

mutual

/-- Whether a text reads as an alternative of a group. -/
inductive ReadsChoice : Text → List Part → Prop where
  | nil : ReadsChoice [] []
  | literal {c : Char} {t : Text} {parts : List Part} : c ≠ '{' → c ≠ ',' → c ≠ '}' →
      ReadsChoice t parts → ReadsChoice (c :: t) (.literal c :: parts)
  | group {texts : List Text} {choices : List (List Part)} {after : Text} {parts : List Part} :
      ReadsChoices texts choices → ReadsChoice after parts →
      ReadsChoice ('{' :: (Text.join [','] texts ++ '}' :: after)) (.group choices :: parts)

/-- Whether texts, of which there is at least one, read as the alternatives of a group. -/
inductive ReadsChoices : List Text → List (List Part) → Prop where
  | one {t : Text} {parts : List Part} : ReadsChoice t parts → ReadsChoices [t] [parts]
  | more {t : Text} {parts : List Part} {texts : List Text} {choices : List (List Part)} :
      ReadsChoice t parts → ReadsChoices texts choices →
      ReadsChoices (t :: texts) (parts :: choices)

end

/-- Whether each brace of a text has its counterpart in the text. -/
inductive Balanced : Text → Prop where
  | nil : Balanced []
  | literal {c : Char} {t : Text} : c ≠ '{' → c ≠ '}' → Balanced t → Balanced (c :: t)
  | group {inner after : Text} : Balanced inner → Balanced after →
      Balanced ('{' :: (inner ++ '}' :: after))

/-- Whether an opening brace in front of a text has a closing one in it. -/
def Closed (t : Text) : Prop := ∃ inner after, Balanced inner ∧ t = inner ++ '}' :: after

/-- Whether a pattern reads as parts. -/
inductive Reads : Text → List Part → Prop where
  | nil : Reads [] []
  | literal {c : Char} {t : Text} {parts : List Part} : c ≠ '{' → Reads t parts →
      Reads (c :: t) (.literal c :: parts)
  | group {texts : List Text} {choices : List (List Part)} {after : Text} {parts : List Part} :
      ReadsChoices texts choices → Reads after parts →
      Reads ('{' :: (Text.join [','] texts ++ '}' :: after)) (.group choices :: parts)
  | unclosed {t : Text} : ¬Closed t → Reads ('{' :: t) (('{' :: t).map .literal)

/-! ## 2. Balanced texts -/

theorem join_singleton (t : Text) : Text.join [','] [t] = t := by
  simp [Text.join]

theorem join_cons {texts : List Text} (h : texts ≠ []) (t : Text) :
    Text.join [','] (t :: texts) = t ++ ',' :: Text.join [','] texts := by
  obtain ⟨next, rest, rfl⟩ := List.exists_cons_of_ne_nil h
  simp [Text.join]

theorem ReadsChoices.ne_nil {texts : List Text} {choices : List (List Part)}
    (h : ReadsChoices texts choices) : texts ≠ [] := by
  cases h <;> exact List.cons_ne_nil _ _

theorem Balanced.append {s t : Text} (hs : Balanced s) (ht : Balanced t) : Balanced (s ++ t) := by
  induction hs with
  | nil => exact ht
  | literal hopen hclose _ ih => exact .literal hopen hclose ih
  | group hinner _ _ ih =>
    rw [List.cons_append, List.append_assoc, List.cons_append]
    exact .group hinner ih

mutual

theorem ReadsChoice.balanced : ∀ {t : Text} {parts : List Part}, ReadsChoice t parts → Balanced t
  | _, _, .nil => .nil
  | _, _, .literal hopen _ hclose h => .literal hopen hclose h.balanced
  | _, _, .group hchoices h => .group hchoices.balanced h.balanced

theorem ReadsChoices.balanced : ∀ {texts : List Text} {choices : List (List Part)},
    ReadsChoices texts choices → Balanced (Text.join [','] texts)
  | _, _, .one h => by
      rw [join_singleton]
      exact h.balanced
  | _, _, .more h hmore => by
      rw [join_cons hmore.ne_nil]
      exact h.balanced.append (.literal (by decide) (by decide) hmore.balanced)

end

/-- What may stand in front of an alternative may stand in front of the first of several. -/
theorem ReadsChoices.exists_prepend {texts : List Text} {choices : List (List Part)} {part : Part}
    (front : Text)
    (hfront : ∀ {t parts}, ReadsChoice t parts → ReadsChoice (front ++ t) (part :: parts))
    (h : ReadsChoices texts choices) : ∃ texts' choices', ReadsChoices texts' choices' ∧
      front ++ Text.join [','] texts = Text.join [','] texts' := by
  cases h with
  | one h => exact ⟨_, _, .one (hfront h), by rw [join_singleton, join_singleton]⟩
  | more h hmore =>
    refine ⟨_, _, .more (hfront h) hmore, ?_⟩
    rw [join_cons hmore.ne_nil, join_cons hmore.ne_nil, List.append_assoc]

/-- A balanced text reads as alternatives; its own commas are those outside of all braces. -/
theorem Balanced.exists_readsChoices {t : Text} (h : Balanced t) :
    ∃ texts choices, ReadsChoices texts choices ∧ t = Text.join [','] texts := by
  induction h with
  | nil => exact ⟨_, _, .one .nil, (join_singleton []).symm⟩
  | @literal c t hopen hclose _ ih =>
    obtain ⟨texts, choices, hreads, rfl⟩ := ih
    by_cases hcomma : c = ','
    · subst hcomma
      exact ⟨_, _, .more .nil hreads, (join_cons hreads.ne_nil []).symm⟩
    · exact hreads.exists_prepend [c] (.literal hopen hcomma hclose)
  | group _ _ ihinner ihafter =>
    obtain ⟨inner, innerChoices, hinner, rfl⟩ := ihinner
    obtain ⟨texts, choices, hreads, rfl⟩ := ihafter
    obtain ⟨texts', choices', hreads', heq⟩ :=
      hreads.exists_prepend ('{' :: (Text.join [','] inner ++ ['}'])) (fun {t _} h => by
        have hgroup := ReadsChoice.group hinner h
        simpa using hgroup)
    exact ⟨texts', choices', hreads', by simpa using heq⟩

/-! ## 3. The scan of a group -/

mutual

/-- The scan passes over an alternative as a whole, at any depth. -/
theorem ReadsChoice.alternatives?_append : ∀ {t : Text} {parts : List Part}, ReadsChoice t parts →
    ∀ (depth : Nat) (current rest : Text),
      alternatives? depth current (t ++ rest) = alternatives? depth (t.reverse ++ current) rest
  | _, _, .nil, _, _, _ => rfl
  | _, _, .literal (c := c) (t := t) hopen hcomma hclose h, depth, current, rest => by
      have hscan : alternatives? depth current (c :: (t ++ rest))
          = alternatives? depth (c :: current) (t ++ rest) := by
        rw [alternatives?.eq_def]
        simp_all
      rw [List.cons_append, hscan, h.alternatives?_append]
      simp
  | _, _, .group hchoices h, depth, current, rest => by
      rw [List.cons_append, List.append_assoc, List.cons_append, alternatives?,
        hchoices.alternatives?_append, alternatives?, h.alternatives?_append]
      simp

/-- Inside of another group the scan passes over all alternatives of a group. -/
theorem ReadsChoices.alternatives?_append : ∀ {texts : List Text} {choices : List (List Part)},
    ReadsChoices texts choices → ∀ (depth : Nat) (current rest : Text),
      alternatives? (depth + 1) current (Text.join [','] texts ++ rest)
        = alternatives? (depth + 1) ((Text.join [','] texts).reverse ++ current) rest
  | _, _, .one h, depth, current, rest => by
      rw [join_singleton, h.alternatives?_append]
  | _, _, .more h hmore, depth, current, rest => by
      rw [join_cons hmore.ne_nil, List.append_assoc, List.cons_append, h.alternatives?_append,
        alternatives?, if_neg (Nat.succ_ne_zero depth), hmore.alternatives?_append]
      simp

end

/-- The scan of a group finds the texts of its alternatives. -/
theorem alternatives?_join {texts : List Text} {choices : List (List Part)} (after : Text) :
    ReadsChoices texts choices →
      alternatives? 0 [] (Text.join [','] texts ++ '}' :: after) = some (texts, after)
  | .one h => by
      rw [join_singleton, h.alternatives?_append, alternatives?]
      simp
  | .more h hmore => by
      rw [join_cons hmore.ne_nil, List.append_assoc, List.cons_append, h.alternatives?_append,
        alternatives?, if_pos rfl, alternatives?_join after hmore]
      simp

/-- Whether a text begins with so many balanced texts, each with a closing brace behind it, and ends
in the given one. -/
def Closes (count : Nat) (t after : Text) : Prop :=
  ∃ inners : List Text, inners.length = count ∧ (∀ inner ∈ inners, Balanced inner) ∧
    t = inners.flatMap (· ++ ['}']) ++ after

/-- A character that is no brace belongs to the first of the balanced texts. -/
theorem Closes.literal {count : Nat} {c : Char} {t after : Text} (hopen : c ≠ '{') (hclose : c ≠ '}')
    (h : Closes (count + 1) t after) : Closes (count + 1) (c :: t) after := by
  obtain ⟨inners, hlength, hbalanced, rfl⟩ := h
  obtain ⟨inner, others, rfl⟩ := List.exists_cons_of_length_eq_add_one hlength
  obtain ⟨hinner, hothers⟩ := List.forall_mem_cons.mp hbalanced
  exact ⟨(c :: inner) :: others, hlength,
    List.forall_mem_cons.mpr ⟨.literal hopen hclose hinner, hothers⟩, rfl⟩

/-- The first of the balanced texts may be empty. -/
theorem Closes.closing {count : Nat} {t after : Text} (h : Closes count t after) :
    Closes (count + 1) ('}' :: t) after := by
  obtain ⟨inners, rfl, hbalanced, rfl⟩ := h
  exact ⟨[] :: inners, rfl, List.forall_mem_cons.mpr ⟨.nil, hbalanced⟩, rfl⟩

/-- The group that an opening brace begins takes the first two of the balanced texts behind it. -/
theorem Closes.opening {count : Nat} {t after : Text} (h : Closes (count + 2) t after) :
    Closes (count + 1) ('{' :: t) after := by
  obtain ⟨inners, hlength, hbalanced, rfl⟩ := h
  obtain ⟨inner, rest, rfl⟩ := List.exists_cons_of_length_eq_add_one hlength
  obtain ⟨next, others, rfl⟩ := List.exists_cons_of_length_eq_add_one (Nat.succ.inj hlength)
  obtain ⟨hinner, hnext, hothers⟩ :
      Balanced inner ∧ Balanced next ∧ ∀ t ∈ others, Balanced t := by simpa using hbalanced
  exact ⟨('{' :: (inner ++ '}' :: next)) :: others, by simpa using hlength,
    List.forall_mem_cons.mpr ⟨.group hinner hnext, hothers⟩, by simp⟩

theorem Closes.exists_balanced {t after : Text} (h : Closes 1 t after) :
    ∃ inner, Balanced inner ∧ t = inner ++ '}' :: after := by
  obtain ⟨inners, hlength, hbalanced, rfl⟩ := h
  obtain ⟨inner, rfl⟩ := List.length_eq_one_iff.mp hlength
  exact ⟨inner, hbalanced inner List.mem_cons_self, by simp⟩

/-- Where the scan ends, as many braces are closed as were open, and what lies before each closing
brace is balanced. -/
theorem closes_of_alternatives? {depth : Nat} {current t : Text} {r : List Text × Text}
    (h : alternatives? depth current t = some r) : Closes (depth + 1) t r.2 := by
  fun_induction alternatives? depth current t generalizing r with
  | case1 => cases h
  | case2 current rest =>
    obtain rfl := Option.some.inj h
    exact Closes.closing ⟨[], rfl, by simp, rfl⟩
  | case3 current rest depth ih => exact (ih h).closing
  | case4 depth current rest ih => exact (ih h).opening
  | case5 current rest ih =>
    obtain ⟨s, hs, rfl⟩ := Option.map_eq_some_iff.mp h
    exact (ih hs).literal (by decide) (by decide)
  | case6 depth current rest hdepth ih => exact (ih h).literal (by decide) (by decide)
  | case7 depth current c rest hclose hopen _ ih => exact (ih h).literal hopen hclose

/-- The scan finds nothing behind a brace that is not closed. -/
theorem alternatives?_of_not_closed {t : Text} (h : ¬Closed t) : alternatives? 0 [] t = none := by
  rw [Option.eq_none_iff_forall_ne_some]
  intro r hr
  obtain ⟨inner, hinner, ht⟩ := (closes_of_alternatives? hr).exists_balanced
  exact h ⟨inner, r.2, hinner, ht⟩

/-! ## 4. One reading -/

/-- Groups that are the same text have the same alternatives, and the same text behind them. -/
theorem ReadsChoices.eq_of_join_eq {texts texts' : List Text} {choices choices' : List (List Part)}
    {after after' : Text} (h : ReadsChoices texts choices) (h' : ReadsChoices texts' choices')
    (heq : Text.join [','] texts' ++ '}' :: after' = Text.join [','] texts ++ '}' :: after) :
    texts' = texts ∧ after' = after := by
  have hscan := alternatives?_join after' h'
  rw [heq, alternatives?_join after h] at hscan
  exact ⟨(congrArg Prod.fst (Option.some.inj hscan)).symm,
    (congrArg Prod.snd (Option.some.inj hscan)).symm⟩

mutual

theorem ReadsChoice.unique : ∀ {t t' : Text} {parts parts' : List Part}, ReadsChoice t parts →
    t' = t → ReadsChoice t' parts' → parts' = parts
  | _, _, _, _, .nil, heq, h' => by
      cases h' with
      | nil => rfl
      | literal => cases heq
      | group => cases heq
  | _, _, _, _, .literal hopen _ _ h, heq, h' => by
      cases h' with
      | nil => cases heq
      | literal _ _ _ h' =>
        obtain ⟨rfl, htail⟩ := List.cons.inj heq
        rw [h.unique htail h']
      | group => exact absurd (List.cons.inj heq).1.symm hopen
  | _, _, _, _, .group hchoices h, heq, h' => by
      cases h' with
      | nil => cases heq
      | literal hopen => exact absurd (List.cons.inj heq).1 hopen
      | group hchoices' h' =>
        obtain ⟨htexts, hafter⟩ := hchoices.eq_of_join_eq hchoices' (List.cons.inj heq).2
        rw [hchoices.unique htexts hchoices', h.unique hafter h']

theorem ReadsChoices.unique : ∀ {texts texts' : List Text} {choices choices' : List (List Part)},
    ReadsChoices texts choices → texts' = texts → ReadsChoices texts' choices' → choices' = choices
  | _, _, _, _, .one h, heq, h' => by
      cases h' with
      | one h' => rw [h.unique (List.cons.inj heq).1 h']
      | more _ hmore => exact absurd (List.cons.inj heq).2 hmore.ne_nil
  | _, _, _, _, .more h hmore, heq, h' => by
      cases h' with
      | one => exact absurd (List.cons.inj heq).2.symm hmore.ne_nil
      | more h' hmore' =>
        obtain ⟨hfirst, hothers⟩ := List.cons.inj heq
        rw [h.unique hfirst h', hmore.unique hothers hmore']

end

theorem Reads.unique {t t' : Text} {parts parts' : List Part} (h : Reads t parts) (heq : t' = t)
    (h' : Reads t' parts') : parts' = parts := by
  induction h generalizing t' parts' with
  | nil =>
    cases h' with
    | nil => rfl
    | literal => cases heq
    | group => cases heq
    | unclosed => cases heq
  | literal hopen _ ih =>
    cases h' with
    | nil => cases heq
    | literal _ h' =>
      obtain ⟨rfl, htail⟩ := List.cons.inj heq
      rw [ih htail h']
    | group => exact absurd (List.cons.inj heq).1.symm hopen
    | unclosed => exact absurd (List.cons.inj heq).1.symm hopen
  | group hchoices _ ih =>
    cases h' with
    | nil => cases heq
    | literal hopen => exact absurd (List.cons.inj heq).1 hopen
    | group hchoices' h' =>
      obtain ⟨htexts, hafter⟩ := hchoices.eq_of_join_eq hchoices' (List.cons.inj heq).2
      rw [hchoices.unique htexts hchoices', ih hafter h']
    | unclosed hopen => exact absurd ⟨_, _, hchoices.balanced, (List.cons.inj heq).2⟩ hopen
  | unclosed hopen =>
    cases h' with
    | nil => cases heq
    | literal hne => exact absurd (List.cons.inj heq).1 hne
    | group hchoices => exact absurd ⟨_, _, hchoices.balanced, (List.cons.inj heq).2.symm⟩ hopen
    | unclosed => rw [heq]

/-- Every pattern reads as parts. -/
theorem exists_reads (pattern : Text) : ∃ parts, Reads pattern parts := by
  match pattern with
  | [] => exact ⟨_, .nil⟩
  | c :: rest =>
    by_cases hopen : c = '{'
    · subst hopen
      by_cases hclosed : Closed rest
      · obtain ⟨inner, after, hinner, hrest⟩ := hclosed
        obtain ⟨texts, choices, hchoices, rfl⟩ := hinner.exists_readsChoices
        have hshorter : after.length < ('{' :: rest).length := by
          rw [hrest]
          simp only [List.length_cons, List.length_append]
          omega
        obtain ⟨parts, hparts⟩ := exists_reads after
        rw [hrest]
        exact ⟨_, .group hchoices hparts⟩
      · exact ⟨_, .unclosed hclosed⟩
    · obtain ⟨parts, hparts⟩ := exists_reads rest
      exact ⟨_, .literal hopen hparts⟩
termination_by pattern.length
decreasing_by
  · exact hshorter
  · exact Nat.lt_succ_self _

/-- A pattern reads in exactly one way. -/
theorem existsUnique_reads (pattern : Text) :
    ∃ parts, ∀ other, Reads pattern other ↔ other = parts := by
  obtain ⟨parts, hparts⟩ := exists_reads pattern
  refine ⟨parts, fun other => ⟨hparts.unique rfl, ?_⟩⟩
  rintro rfl
  exact hparts

end Marginalia.Brace
