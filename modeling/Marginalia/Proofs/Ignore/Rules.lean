/-
Marginalia.Proofs.Ignore.Rules — what is read from a pattern.

The pieces of a pattern are those of its segments, slashes between them. No
piece of a segment is a slash, and the last segment is not empty, so the pieces
are of the kind that what lies in a matched directory satisfies too
(`prolongs_of_assemble`). Rules that exclude only and do not end in a bracket
that takes a slash exclude all that lies in a directory they exclude
(`excludes_below`). Put behind any other rules, rules that exclude only take
nothing back (`excludes_append`).
-/
import Marginalia.Proofs.Ignore.Below
import Marginalia.Proofs.Path.Relative
import Marginalia.Proofs.Text.Trim

namespace Marginalia.Ignore

/-! ## 1. The pieces of a segment -/

theorem bracket?_eq_some {t : Text} {r : Piece × Text} (h : bracket? t = some r) :
    (∃ negated ranges, r.1 = .bracket negated ranges) ∧ r.2 <:+ t := by
  have hnegation : (splitNegation t).2 <:+ t := by
    cases t with
    | nil => exact List.suffix_refl _
    | cons c rest =>
      rw [splitNegation]
      split
      · exact List.suffix_cons _ _
      · exact List.suffix_refl _
  have hclosing : (splitClosing (splitNegation t).2).2 <:+ (splitNegation t).2 := by
    unfold splitClosing
    split
    next hc => rw [hc]; exact List.suffix_cons _ _
    next => exact List.suffix_refl _
  unfold bracket? at h
  dsimp only at h
  split at h
  · cases h
  · rename_i c rest hc
    obtain rfl := Option.some.inj h
    refine ⟨⟨_, _, rfl⟩, ?_⟩
    have hrest : rest <:+ (splitClosing (splitNegation t).2).2 :=
      (List.suffix_cons c rest).trans (hc ▸ List.dropWhile_suffix _)
    exact hrest.trans (hclosing.trans hnegation)

theorem ok_of_map_ok {ε α β : Type} {f : α → β} {r : Except ε α} {b : β} (h : r.map f = .ok b) :
    ∃ a, r = .ok a ∧ b = f a := by
  cases r with
  | error e => cases h
  | ok a => exact ⟨a, rfl, (Except.ok.inj h).symm⟩

theorem ok_of_bind_ok {ε α β : Type} {f : α → Except ε β} {r : Except ε α} {b : β}
    (h : r >>= f = .ok b) : ∃ a, r = .ok a ∧ f a = .ok b := by
  cases r with
  | error e => cases h
  | ok a => exact ⟨a, rfl, h⟩

/-- A text without slashes has pieces for characters only, and some unless it is empty. -/
theorem characters_eq_ok {t : Text} {own : List Piece} (h : characters t = .ok own)
    (hslash : '/' ∉ t) :
    (∀ piece ∈ own, piece.isCharacter = true) ∧ (t ≠ [] → own ≠ []) := by
  fun_induction characters t generalizing own with
  | case1 =>
    obtain rfl := Except.ok.inj h
    exact ⟨by simp, fun hne => absurd rfl hne⟩
  | case2 => cases h
  | case6 => cases h
  | case4 rest ih | case5 rest ih =>
    obtain ⟨others, hothers, rfl⟩ := ok_of_map_ok h
    have hrest := (ih hothers (List.not_mem_of_not_mem_cons hslash)).1
    exact ⟨List.forall_mem_cons.mpr ⟨rfl, hrest⟩, fun _ => List.cons_ne_nil _ _⟩
  | case3 c rest ih =>
    obtain ⟨others, hothers, rfl⟩ := ok_of_map_ok h
    simp only [List.mem_cons, not_or] at hslash
    have hrest := (ih hothers hslash.2.2).1
    have hc : (Piece.literal c).isCharacter = true := decide_eq_true (Ne.symm hslash.2.1)
    exact ⟨List.forall_mem_cons.mpr ⟨hc, hrest⟩, fun _ => List.cons_ne_nil _ _⟩
  | case7 rest r hbracket ih =>
    obtain ⟨others, hothers, rfl⟩ := ok_of_map_ok h
    obtain ⟨⟨negated, ranges, hpiece⟩, hafter⟩ := bracket?_eq_some hbracket
    have hslash' : '/' ∉ r.2 :=
      fun hmem => hslash (List.mem_cons_of_mem _ (hafter.subset hmem))
    have hrest := (ih hothers hslash').1
    exact ⟨List.forall_mem_cons.mpr ⟨by rw [hpiece]; rfl, hrest⟩, fun _ => List.cons_ne_nil _ _⟩
  | case8 c rest _ _ _ _ _ ih =>
    obtain ⟨others, hothers, rfl⟩ := ok_of_map_ok h
    simp only [List.mem_cons, not_or] at hslash
    have hrest := (ih hothers hslash.2).1
    have hc : (Piece.literal c).isCharacter = true := decide_eq_true (Ne.symm hslash.1)
    exact ⟨List.forall_mem_cons.mpr ⟨hc, hrest⟩, fun _ => List.cons_ne_nil _ _⟩

theorem segment_eq_ok {t : Text} {own : List Piece} (h : segment t = .ok own) (hslash : '/' ∉ t) :
    (∀ piece ∈ own, piece.isCharacter = true) ∧ (t ≠ [] → own ≠ []) := by
  unfold segment at h
  split at h
  next =>
    obtain rfl := Except.ok.inj h
    exact ⟨by simp [Piece.isCharacter], fun _ => List.cons_ne_nil _ _⟩
  next => exact characters_eq_ok h hslash

/-! ## 2. The pieces of a pattern -/

/-- The slash between two segments. -/
theorem not_begins_nil_slash (rest : List Piece) : ¬Begins (.literal '/' :: rest) [] := by
  rintro ⟨r, hr, -⟩
  cases hr

/-- The pieces of segments without slashes, the last of which is not empty and does not end in a
bracket that takes a slash with something in front. Pieces behind a slash begin with one, so what
is left to them may begin with anything; the others are left a name. -/
theorem prolongs_of_assemble {marked first : Bool} {slash : List Piece} {segments : List Text}
    {parts : List Piece} (h : assemble marked first slash segments = .ok parts)
    (hslash : slash = [] ∨ slash = [.literal '/'])
    (hsegments : ∀ s ∈ segments, '/' ∉ s) (hlast : segments.getLast? ≠ some [])
    (hend : ∀ piece negated ranges, piece.isCharacter = true →
      [piece, .bracket negated ranges, .finish] <:+ parts → inBracket negated ranges '/' = false) :
    ProlongsName parts ∧ Lenient parts ∧
      (first = false → slash ≠ [] → Prolongs parts ∧ (segments ≠ [] → ¬Begins parts [])) := by
  fun_induction assemble marked first slash segments generalizing parts with
  | case1 =>
    obtain rfl := Except.ok.inj h
    exact ⟨prolongs_nil.toName, fun h _ => h, fun _ _ => ⟨prolongs_nil, fun hne => absurd rfl hne⟩⟩
  | case2 slash rest ih =>
    -- `**` in front of the other segments
    obtain ⟨others, hothers, rfl⟩ := ok_of_map_ok h
    have hrest := ih hothers (.inl rfl) (fun s hs => hsegments s (List.mem_cons_of_mem _ hs))
      (fun hnil => hlast (by rw [List.getLast?_cons, hnil]; rfl))
      fun piece negated ranges hpiece h =>
        hend piece negated ranges hpiece (h.trans (List.suffix_cons _ _))
    refine ⟨hrest.1.cons_leadingDirectories hrest.2.1, fun hnil w => ?_,
      fun hfirst => by cases hfirst⟩
    obtain ⟨r, hr, hbegins⟩ := hnil
    rcases mem_rests_leadingDirectories.mp hr with rfl | ⟨_, _, hcons, -⟩
    · exact ⟨(w, false), mem_rests_leadingDirectories.mpr (.inl rfl), hrest.2.1 hbegins w⟩
    · cases hcons
  | case3 first slash rest hfirst hrest =>
    -- `**` behind the other segments
    obtain rfl := Except.ok.inj h
    have hnil : ¬Begins [if marked = true then Piece.directory else Piece.literal '/'] [] := by
      rintro ⟨r, hr, -⟩
      split at hr <;> cases hr
    have hprolongs : Prolongs [if marked = true then Piece.directory else Piece.literal '/'] :=
      prolongs_nil.cons (.inr fun h _ => h)
    exact ⟨hprolongs.toName, lenient_of_not_begins_nil hnil, fun _ _ => ⟨hprolongs, fun _ => hnil⟩⟩
  | case4 first slash rest hfirst hrest ih =>
    -- `**` between other segments
    obtain ⟨others, hothers, rfl⟩ := ok_of_map_ok h
    have hrest' := ih hothers (.inr rfl) (fun s hs => hsegments s (List.mem_cons_of_mem _ hs))
      (fun hnil => hlast (by rw [List.getLast?_cons, hnil]; rfl))
      fun piece negated ranges hpiece h =>
        hend piece negated ranges hpiece (h.trans (List.suffix_cons _ _))
    obtain ⟨hbehind, hnil⟩ := hrest'.2.2 rfl (List.cons_ne_nil _ _)
    have hinner : ¬Begins (.innerDirectories :: others) [] := by
      rintro ⟨r, hr, hbegins⟩
      rcases mem_rests_innerDirectories.mp hr with rfl | ⟨_, _, hcons, -⟩
      · exact hnil (by simpa using hrest) hbegins
      · cases hcons
    have hprolongs : Prolongs (.innerDirectories :: others) := hbehind.cons (.inr hrest'.2.1)
    exact ⟨hprolongs.toName, lenient_of_not_begins_nil hinner,
      fun _ _ => ⟨hprolongs, fun _ => hinner⟩⟩
  | case5 first slash s rest hs ih =>
    obtain ⟨own, hsegment, hparts⟩ := ok_of_bind_ok h
    have hown := segment_eq_ok hsegment (hsegments s List.mem_cons_self)
    suffices hbody : ∃ body, parts = slash ++ body ∧ ProlongsName body ∧ Lenient body by
      obtain ⟨body, rfl, hprolongs, hlenient⟩ := hbody
      rcases hslash with rfl | rfl
      · exact ⟨hprolongs, hlenient, fun _ hne => absurd rfl hne⟩
      · have hnil := not_begins_nil_slash body
        have hbehind := hprolongs.cons_slash hlenient
        exact ⟨hbehind.toName, lenient_of_not_begins_nil hnil, fun _ _ => ⟨hbehind, fun _ => hnil⟩⟩
    split at hparts
    next hrest =>
      -- the last segment
      obtain rfl := List.isEmpty_iff.mp hrest
      obtain rfl := Except.ok.inj hparts
      have hs : s ≠ [] := fun hs => hlast (by rw [hs]; rfl)
      refine ⟨own ++ [.finish], List.append_assoc _ _ _, prolongsName_segment hown.1 ?_,
        lenient_segment (hown.2 hs) hown.1⟩
      rw [List.append_assoc] at hend
      exact fun piece negated ranges hpiece h =>
        hend piece negated ranges hpiece (h.trans (List.suffix_append _ _))
    next hrest =>
      obtain ⟨others, hothers, hall⟩ := ok_of_bind_ok hparts
      obtain rfl := Except.ok.inj hall
      have hne : rest ≠ [] := by simpa using hrest
      have hrest' := ih hothers (.inr rfl) (fun s hs => hsegments s (List.mem_cons_of_mem _ hs))
        (by rwa [List.getLast?_cons_of_ne_nil hne] at hlast)
        fun piece negated ranges hpiece h =>
          hend piece negated ranges hpiece (h.trans (List.suffix_append _ _))
      obtain ⟨hbehind, hnil⟩ := hrest'.2.2 rfl (List.cons_ne_nil _ _)
      exact ⟨own ++ others, List.append_assoc _ _ _,
        (prolongs_append hown.1 hbehind (hnil hne)).toName,
        lenient_of_not_begins_nil (not_begins_nil_append hown.1 (hnil hne))⟩

/-! ## 3. Shapes -/

/-- Whether the last segment of a pattern ends in a bracket that takes a slash and has something in
front of it. -/
def Shape.endsInSlash : Shape → Bool
  | .pieces parts =>
    match parts.reverse with
    | .finish :: .bracket negated ranges :: piece :: _ =>
      piece.isCharacter && inBracket negated ranges '/'
    | _ => false
  | .everything | .nested _ => false

theorem Shape.of_endsInSlash {parts : List Piece} (h : (Shape.pieces parts).endsInSlash = false)
    {piece : Piece} {negated : Bool} {ranges : List (Char × Char)}
    (hpiece : piece.isCharacter = true)
    (hend : [piece, .bracket negated ranges, .finish] <:+ parts) :
    inBracket negated ranges '/' = false := by
  obtain ⟨front, rfl⟩ := hend
  simpa [endsInSlash, hpiece] using h

theorem Shape.assemble_of_ofSegments {pattern : Text} {marked : Bool} {segments : List Text}
    {parts : List Piece}
    (h : Shape.ofSegments pattern marked segments = .ok (some (.pieces parts))) :
    assemble marked true [] segments = .ok parts := by
  unfold ofSegments at h
  dsimp only at h
  split at h
  next => split at h <;> cases h
  next =>
    split at h
    next => cases h
    next =>
      split at h
      next => cases h
      next =>
        split at h
        next => cases h
        next => cases h
        next others hothers =>
          split at h
          next => cases h
          next =>
            cases h
            exact hothers

/-- A directory's path that a shape matches is matched with anything behind it. -/
theorem Shape.mark?_append {pattern : Text} {marked : Bool} {segments : List Text} {shape : Shape}
    (h : Shape.ofSegments pattern marked segments = .ok (some shape))
    (hsegments : ∀ s ∈ segments, '/' ∉ s) (hlast : segments.getLast? ≠ some [])
    (hend : shape.endsInSlash = false) {t : Text} (ht : DirectoryTail t) (hname : t.head? ≠ some '/')
    (hmark : (shape.mark? t).isSome = true) (w : Text) : (shape.mark? (t ++ w)).isSome = true := by
  have hslash : '/' ∈ t ++ w := List.mem_append_left _ (List.mem_of_getLast? ht.ends)
  cases shape with
  | everything =>
    have hany : (t ++ w).any isInline = true := List.any_eq_true.mpr ⟨'/', hslash, rfl⟩
    simp only [mark?, hany, if_true, Option.isSome_some]
  | nested => simp only [mark?, List.contains_eq_mem, hslash, decide_true, if_true,
      Option.isSome_some]
  | pieces parts =>
    have hprolongs := (prolongs_of_assemble (assemble_of_ofSegments h) (.inl rfl) hsegments hlast
      fun _ _ _ => Shape.of_endsInSlash hend).1
    simp only [mark?, Option.isSome_map, firstMatch_isSome_iff] at hmark ⊢
    exact hprolongs t ht hname hmark w

/-! ## 4. Rules -/

theorem slash_not_mem_anyDirectories : '/' ∉ anyDirectories := by decide

theorem mem_of_mem_anchor {segments : List Text} {s : Text} (h : s ∈ anchor segments) :
    s = anyDirectories ∨ s ∈ segments := by
  unfold anchor at h
  split at h
  next => exact .inr (List.mem_cons_of_mem _ h)
  next =>
    split at h
    · exact .inr h
    · exact List.mem_cons.mp h
  next =>
    split at h
    · exact .inr h
    · exact List.mem_cons.mp h
  next => exact .inr h

theorem mem_of_mem_closeDirectory {segments : List Text} {s : Text}
    (h : s ∈ closeDirectory segments) : s = anyDirectories ∨ s ∈ segments := by
  fun_induction closeDirectory segments with
  | case1 => cases h
  | case2 => exact .inl (List.mem_singleton.mp h)
  | case3 => exact .inr h
  | case4 first rest _ ih =>
    rcases List.mem_cons.mp h with rfl | h
    · exact .inr List.mem_cons_self
    · exact (ih h).imp_right (List.mem_cons_of_mem _)

theorem closeDirectory_eq_nil {segments : List Text} (h : closeDirectory segments = []) :
    segments = [] := by
  unfold closeDirectory at h
  split at h
  next => rfl
  next => split at h <;> cases h
  next => cases h

/-- Nothing that is closed ends in an empty segment. -/
theorem getLast?_closeDirectory (segments : List Text) :
    (closeDirectory segments).getLast? ≠ some [] := by
  fun_induction closeDirectory segments with
  | case1 => simp
  | case2 => simp [anyDirectories]
  | case3 s hs => simpa using hs
  | case4 s rest hrest ih =>
    have hne : closeDirectory rest ≠ [] := fun h => hrest (closeDirectory_eq_nil h)
    rwa [List.getLast?_cons_of_ne_nil hne]

theorem mem_of_mem_collapse {segments : List Text} {s : Text} (h : s ∈ collapse segments) :
    s ∈ segments := by
  induction segments with
  | nil => exact h
  | cons first rest ih =>
    rw [collapse] at h
    split at h
    next => exact List.mem_cons.mpr (.inl (List.mem_singleton.mp h))
    next t more hcollapse =>
      rw [hcollapse] at ih
      split at h
      next => exact List.mem_cons_of_mem _ (ih h)
      next => exact List.mem_cons.mpr ((List.mem_cons.mp h).imp_right ih)

theorem getLast?_collapse (segments : List Text) :
    (collapse segments).getLast? = segments.getLast? := by
  induction segments with
  | nil => rfl
  | cons first rest ih =>
    rw [collapse]
    split
    next hcollapse =>
      rw [hcollapse] at ih
      obtain rfl := List.getLast?_eq_none_iff.mp ih.symm
      rfl
    next t more hcollapse =>
      rw [hcollapse] at ih
      have hrest : rest ≠ [] := by
        rintro rfl
        cases hcollapse
      rw [List.getLast?_cons_of_ne_nil hrest, ← ih]
      split
      next => rfl
      next => rw [List.getLast?_cons_cons]

theorem head?_stripLine {line : Text} {c : Char} (h : (stripLine line).head? = some c) :
    line.head? = some c := by
  unfold stripLine at h
  split at h
  next => exact h
  next =>
    exact Text.head?_dropEndWhile h

/-- A rule is read from segments that hold no slash and do not end in an empty one; it takes
exclusions back only if the pattern begins with an exclamation mark. -/
theorem Rule.parse_eq_some {pattern : Text} {rule : Rule} (h : Rule.parse pattern = .ok (some rule)) :
    (rule.negated = true → pattern.head? = some '!') ∧ ∃ marked segments,
      Shape.ofSegments pattern marked segments = .ok (some rule.shape) ∧
      (∀ s ∈ segments, '/' ∉ s) ∧ segments.getLast? ≠ some [] := by
  unfold Rule.parse at h
  dsimp -iota only at h
  split at h
  next => cases h
  next =>
    split at h
    next negated body hread =>
      split at h
      next => cases h
      next =>
        obtain ⟨shape, hshape, h⟩ := ok_of_bind_ok h
        obtain ⟨s, rfl, rfl⟩ := Option.map_eq_some_iff.mp (Except.ok.inj h)
        refine ⟨fun hnegated => ?_, _, _, hshape, fun s hs => ?_, ?_⟩
        · split at hread
          next rest hline => exact head?_stripLine (by rw [hline]; rfl)
          next =>
            obtain rfl : false = negated := congrArg Prod.fst hread
            cases hnegated
        · rcases mem_of_mem_closeDirectory (mem_of_mem_collapse hs) with rfl | hs
          · exact slash_not_mem_anyDirectories
          rcases mem_of_mem_anchor hs with rfl | hs
          · exact slash_not_mem_anyDirectories
          exact Path.slash_not_mem_of_mem_splitOn hs
        · rw [getLast?_collapse]
          exact getLast?_closeDirectory _

theorem mem_of_mapM_ok {ε α β : Type} {f : α → Except ε β} : ∀ {l : List α} {bs : List β},
    l.mapM f = .ok bs → ∀ b ∈ bs, ∃ a ∈ l, f a = .ok b
  | [], bs, h, b, hb => by
      obtain rfl := Except.ok.inj h
      cases hb
  | a :: rest, bs, h, b, hb => by
      rw [List.mapM_cons] at h
      obtain ⟨first, hfirst, h⟩ := ok_of_bind_ok h
      obtain ⟨others, hothers, h⟩ := ok_of_bind_ok h
      obtain rfl := Except.ok.inj h
      rcases List.mem_cons.mp hb with rfl | hb
      · exact ⟨a, List.mem_cons_self, hfirst⟩
      · obtain ⟨x, hx, hfx⟩ := mem_of_mapM_ok hothers b hb
        exact ⟨x, List.mem_cons_of_mem _ hx, hfx⟩

/-- Every rule of a list is read from one of its patterns. -/
theorem Rule.mem_of_parseAll {patterns : List Text} {rules : List Rule}
    (h : Rule.parseAll patterns = .ok rules) {rule : Rule} (hrule : rule ∈ rules) :
    ∃ pattern ∈ patterns, Rule.parse pattern = .ok (some rule) := by
  obtain ⟨found, hfound, h⟩ := ok_of_bind_ok h
  obtain rfl := Except.ok.inj h
  obtain ⟨_, hmem, rfl⟩ := List.mem_filterMap.mp hrule
  exact mem_of_mapM_ok hfound _ hmem

/-- Patterns that do not begin with an exclamation mark take no exclusion back. -/
theorem Rule.negated_of_parseAll {patterns : List Text} {rules : List Rule}
    (h : Rule.parseAll patterns = .ok rules)
    (hnegation : ∀ pattern ∈ patterns, pattern.head? ≠ some '!') :
    ∀ rule ∈ rules, rule.negated = false := by
  intro rule hrule
  obtain ⟨pattern, hpattern, hparse⟩ := Rule.mem_of_parseAll h hrule
  have hmark := (Rule.parse_eq_some hparse).1
  exact Bool.eq_false_iff.mpr fun hnegated => hnegation pattern hpattern (hmark hnegated)

/-- Patterns are read one by one. -/
theorem Rule.parseAll_append {first second : List Text} {rules : List Rule}
    (h : Rule.parseAll (first ++ second) = .ok rules) : ∃ front back,
      Rule.parseAll first = .ok front ∧ Rule.parseAll second = .ok back ∧ rules = front ++ back := by
  obtain ⟨found, hfound, h⟩ := ok_of_bind_ok h
  rw [List.mapM_append] at hfound
  obtain ⟨front, hfront, hfound⟩ := ok_of_bind_ok hfound
  obtain ⟨back, hback, hfound⟩ := ok_of_bind_ok hfound
  obtain rfl := Except.ok.inj hfound
  obtain rfl := Except.ok.inj h
  refine ⟨front.filterMap id, back.filterMap id, ?_, ?_, List.filterMap_append⟩
  · rw [Rule.parseAll, hfront]
    rfl
  · rw [Rule.parseAll, hback]
    rfl

/-! ## 5. What lies in an excluded directory -/

theorem lastWith_isSome_iff {mark : Mark} {rules : List Rule} {path : Text} :
    (lastWith mark rules path).isSome = true ↔
      ∃ rule ∈ rules, rule.shape.mark? path = some mark := by
  simp [lastWith, List.find?_isSome]

theorem deciding?_eq_or (rules : List Rule) (path : Text) :
    deciding? rules path = (lastWith .whole rules path).or (lastWith .directory rules path) := by
  simp [deciding?]

/-- Rules decide about the paths that one of them matches. -/
theorem deciding?_isSome_iff {rules : List Rule} {path : Text} :
    (deciding? rules path).isSome = true ↔
      ∃ rule ∈ rules, (rule.shape.mark? path).isSome = true := by
  rw [deciding?_eq_or, Option.isSome_or, Bool.or_eq_true, lastWith_isSome_iff, lastWith_isSome_iff]
  constructor
  · rintro (⟨rule, hmem, hmark⟩ | ⟨rule, hmem, hmark⟩) <;> exact ⟨rule, hmem, by rw [hmark]; rfl⟩
  · rintro ⟨rule, hmem, hmark⟩
    obtain ⟨mark, hmark⟩ := Option.isSome_iff_exists.mp hmark
    cases mark with
    | directory => exact .inr ⟨rule, hmem, hmark⟩
    | whole => exact .inl ⟨rule, hmem, hmark⟩

theorem mem_of_lastWith {mark : Mark} {rules : List Rule} {path : Text} {rule : Rule}
    (h : lastWith mark rules path = some rule) : rule ∈ rules :=
  List.mem_reverse.mp (List.mem_of_find?_eq_some h)

theorem mem_of_deciding? {rules : List Rule} {path : Text} {rule : Rule}
    (h : deciding? rules path = some rule) : rule ∈ rules := by
  rw [deciding?_eq_or, Option.or_eq_some_iff] at h
  rcases h with h | ⟨-, h⟩ <;> exact mem_of_lastWith h

/-- Rules none of which takes exclusions back exclude what one of them matches. -/
theorem excludes_iff {rules : List Rule} (hrules : ∀ rule ∈ rules, rule.negated = false)
    {path : Text} : excludes rules path = true ↔
      ∃ rule ∈ rules, (rule.shape.mark? (relativePath path)).isSome = true := by
  rw [← deciding?_isSome_iff, excludes]
  cases h : deciding? rules (relativePath path) with
  | none => simp
  | some rule => simp [hrules rule (mem_of_deciding? h)]

/-- What a path of names begins with. -/
theorem exists_ofSegments_eq_append (first : Text) (others : List Text) :
    ∃ after, Path.ofSegments (first :: others) = first ++ after := by
  cases others with
  | nil => exact ⟨[], by rw [Path.ofSegments_singleton, List.append_nil]⟩
  | cons next more => exact ⟨_, Path.ofSegments_cons_cons first next more⟩

/-- The path of a trail is compared as it stands. -/
theorem relativePath_ofSegments {names : List Text} (hne : names ≠ [])
    (hnames : ∀ name ∈ names, isName name = true) (rest : Text) :
    relativePath (Path.ofSegments names ++ rest) = Path.ofSegments names ++ rest := by
  obtain ⟨first, others, rfl⟩ := List.exists_cons_of_ne_nil hne
  have hname := hnames first List.mem_cons_self
  have hslash := slash_not_mem_of_isName hname
  have hhere : first ≠ ['.'] := by
    rintro rfl
    cases hname
  obtain ⟨after, hafter⟩ := exists_ofSegments_eq_append first others
  rw [hafter, List.append_assoc]
  match first, hname with
  | [c], _ =>
    have hc : c ≠ '/' ∧ c ≠ '.' := ⟨by simpa [eq_comm] using hslash, by simpa using hhere⟩
    simp [relativePath, hc]
  | c :: d :: name, _ =>
    simp only [List.mem_cons, not_or] at hslash
    simp [relativePath, Ne.symm hslash.1, Ne.symm hslash.2.1]

/-- The path of a directory begins with a name, ends in its slash, and has no empty names. -/
theorem directoryTail_ofSegments {names : List Text} (hne : names ≠ [])
    (hnames : ∀ name ∈ names, isName name = true) :
    DirectoryTail (Path.ofSegments names ++ ['/']) ∧
      (Path.ofSegments names ++ ['/']).head? ≠ some '/' := by
  refine ⟨⟨by simp, fun front back heq => ?_⟩, ?_⟩
  · -- two slashes in a row would be an empty name between them
    have hslash : List.splitOn '/' ('/' :: back) = [] :: List.splitOn '/' back := by
      simp [List.splitOn_cons_eq_if_modifyHead]
    have hsplit := congrArg (List.splitOn '/') heq
    rw [List.splitOn_append_cons_self, Path.splitOn_ofSegments hne hnames, List.splitOn_nil,
      List.splitOn_append_cons_self, hslash] at hsplit
    obtain ⟨others, last, hback⟩ :=
      (List.eq_nil_or_concat _).resolve_left (List.splitOn_ne_nil '/' back)
    rw [hback, List.concat_eq_append, ← List.cons_append, ← List.append_assoc] at hsplit
    have hempty : [] ∈ names := by
      rw [(List.append_inj' hsplit rfl).1]
      simp
    exact ne_nil_of_isName (hnames [] hempty) rfl
  · obtain ⟨first, others, rfl⟩ := List.exists_cons_of_ne_nil hne
    have hname := hnames first List.mem_cons_self
    obtain ⟨after, hafter⟩ := exists_ofSegments_eq_append first others
    obtain ⟨c, name, rfl⟩ := List.exists_cons_of_ne_nil (ne_nil_of_isName hname)
    have hc : c ≠ '/' := fun hc => slash_not_mem_of_isName hname (hc ▸ List.mem_cons_self)
    simpa [hafter] using hc

/-- What lies in an excluded directory is excluded, if no rule takes exclusions back or has a last
segment that ends in a bracket that takes a slash. -/
theorem excludes_below {patterns : List Text} {rules : List Rule}
    (hrules : Rule.parseAll patterns = .ok rules)
    (hnegation : ∀ pattern ∈ patterns, pattern.head? ≠ some '!')
    (hend : ∀ rule ∈ rules, rule.shape.endsInSlash = false)
    {dir below : List Text} (hdir : dir ≠ []) (hbelow : below ≠ [])
    (hnames : ∀ name ∈ dir ++ below, isName name = true)
    (h : excludes rules (Path.ofSegments dir ++ ['/']) = true) :
    excludes rules (Path.ofSegments (dir ++ below)) = true := by
  have hplain := Rule.negated_of_parseAll hrules hnegation
  have hdirnames : ∀ name ∈ dir, isName name = true :=
    fun name hname => hnames name (List.mem_append_left _ hname)
  have hne : dir ++ below ≠ [] := List.append_ne_nil_of_left_ne_nil hdir _
  rw [excludes_iff hplain, relativePath_ofSegments hdir hdirnames] at h
  obtain ⟨rule, hrule, hmark⟩ := h
  obtain ⟨pattern, -, hparse⟩ := Rule.mem_of_parseAll hrules hrule
  obtain ⟨-, marked, segments, hshape, hsegments, hlast⟩ := Rule.parse_eq_some hparse
  refine (excludes_iff hplain).mpr ⟨rule, hrule, ?_⟩
  have hpath := relativePath_ofSegments hne hnames []
  rw [List.append_nil] at hpath
  rw [hpath, Path.ofSegments_append hdir hbelow]
  obtain ⟨htail, hname⟩ := directoryTail_ofSegments hdir hdirnames
  exact Shape.mark?_append hshape hsegments hlast (hend rule hrule) htail hname hmark _

/-! ## 6. Further rules -/

/-- A later rule with the same mark comes before the earlier ones. -/
theorem lastWith_append (mark : Mark) (rules more : List Rule) (path : Text) :
    lastWith mark (rules ++ more) path
      = (lastWith mark more path).or (lastWith mark rules path) := by
  rw [lastWith, List.reverse_append, List.find?_append]
  rfl

/-- Who decides about a path after further rules: one of these, or the one who decided before. A
further rule that matches by way of a directory does not come before an earlier one that matches the
path as it stands. -/
theorem deciding?_append (rules more : List Rule) (path : Text) :
    (∃ rule ∈ more, deciding? (rules ++ more) path = some rule) ∨
      deciding? (rules ++ more) path = deciding? rules path := by
  rw [deciding?_eq_or, deciding?_eq_or, lastWith_append, lastWith_append]
  cases hwhole : lastWith .whole more path with
  | some rule => exact .inl ⟨rule, mem_of_lastWith hwhole, rfl⟩
  | none =>
    cases hbefore : lastWith .whole rules path with
    | some rule => exact .inr rfl
    | none =>
      cases hdirectory : lastWith .directory more path with
      | some rule => exact .inl ⟨rule, mem_of_lastWith hdirectory, rfl⟩
      | none => exact .inr rfl

/-- Rules that take no exclusions back, put behind any rules, leave excluded what was excluded. -/
theorem excludes_append {rules more : List Rule} (hmore : ∀ rule ∈ more, rule.negated = false)
    {path : Text} (h : excludes rules path = true) : excludes (rules ++ more) path = true := by
  rw [excludes] at h ⊢
  rcases deciding?_append rules more (relativePath path) with ⟨rule, hrule, hdecides⟩ | hsame
  · rw [hdecides, Option.any_some, hmore rule hrule]
    rfl
  · rw [hsame]
    exact h

end Marginalia.Ignore
