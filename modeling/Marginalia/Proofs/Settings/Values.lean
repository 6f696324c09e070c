/-
Marginalia.Proofs.Settings.Values — which values say settings.

`Says` is the rule for the value of a settings file: a null value, or a mapping
in which `regex` is absent or a text and each of three fields is absent, null, a
text, or a list of texts (`GivesRegex`, `GivesTexts`). It also says which
settings come of it, from the value and the place of the file alone. `Wrong` says
what an error reports of a value.

* `ofValue_cases`: a value says the settings that are read from it, or what is
  reported of it is wrong with it.
* `ofValue_eq_ok_iff`, `exists_says_iff`: since a value is not both, reading
  succeeds exactly on the well-formed values, with the settings that they say.
* `ofValue_value`: a file may nest as deep as it likes. Reading looks at a
  mapping, its lists and their texts, and what lies deeper makes no difference
  to it.
-/
import Marginalia.Proofs.Text.Trim
import Marginalia.Settings.Read

namespace Marginalia

namespace Settings

/-! ## 1. The rule -/

/-- The texts that may stand under a field: none if it is absent or null, a text by itself, or those
of a list. -/
inductive GivesTexts : Option Yaml.Value → List Text → Prop where
  | absent : GivesTexts none []
  | null : GivesTexts (some .null) []
  | text (t : Text) : GivesTexts (some (.text t)) [t]
  | list (texts : List Text) : GivesTexts (some (.list (texts.map .text))) texts

/-- The pattern that may stand under `regex`: the default one if it is absent, or a text that is not
empty. -/
inductive GivesRegex : Option Yaml.Value → Text → Prop where
  | absent : GivesRegex none defaultRegex
  | text {t : Text} : t ≠ [] → GivesRegex (some (.text t)) t

/-- The fields that hold texts. -/
def textFields : List Text := ["fileExtensions", "exclude", "roots"].map String.toList

/-- Whether a value has fields, or is null and stands for a value without any. -/
def HasFields (v : Yaml.Value) : Prop := v = .null ∨ ∃ entries, v = .mapping entries

/-- Whether a value may be that of a settings file. -/
structure WellFormed (v : Yaml.Value) : Prop where
  hasFields : HasFields v
  regex : ∃ regex, GivesRegex (v.field? "regex".toList) regex
  texts : ∀ field ∈ textFields, ∃ texts, GivesTexts (v.field? field) texts

/-- Texts without blank characters at their ends, those of which nothing is left dropped. -/
def stripped (texts : List Text) : List Text := (texts.map Text.trim).filter (!·.isEmpty)

/-- Whether the value of a file says settings. -/
structure Says (file : Text) (v : Yaml.Value) (s : Settings) : Prop where
  hasFields : HasFields v
  regex : GivesRegex (v.field? "regex".toList) s.regex
  fileExtensions : ∃ texts, GivesTexts (v.field? "fileExtensions".toList) texts ∧
    s.fileExtensions = stripped texts
  exclude : ∃ texts, GivesTexts (v.field? "exclude".toList) texts ∧ s.exclude = stripped texts
  /-- Like the other texts, roots are stripped. Then an absolute one is kept as it is, and any other
  is read from the directory of the file. -/
  roots : ∃ texts, GivesTexts (v.field? "roots".toList) texts ∧
    s.roots = (stripped texts).map fun root =>
      if Path.isAbsolute root then root
      else Path.normalise (Path.join (Path.parent file) root)

/-- Whether what an error reports is wrong with a value. -/
inductive Wrong (v : Yaml.Value) : SettingsError → Prop where
  | notMapping : ¬HasFields v → Wrong v .notMapping
  | regex : (¬∃ regex, GivesRegex (v.field? "regex".toList) regex) → Wrong v .regex
  | notTexts {field : Text} : field ∈ textFields →
      (¬∃ texts, GivesTexts (v.field? field) texts) → Wrong v (.notTexts field)

theorem Says.wellFormed {file : Text} {v : Yaml.Value} {s : Settings} (h : Says file v s) :
    WellFormed v where
  hasFields := h.hasFields
  regex := ⟨_, h.regex⟩
  texts := by
    obtain ⟨fileExtensions, hfileExtensions, -⟩ := h.fileExtensions
    obtain ⟨exclude, hexclude, -⟩ := h.exclude
    obtain ⟨roots, hroots, -⟩ := h.roots
    intro field hfield
    simp only [textFields, List.map_cons, List.map_nil, List.mem_cons, List.not_mem_nil,
      or_false] at hfield
    rcases hfield with rfl | rfl | rfl
    · exact ⟨_, hfileExtensions⟩
    · exact ⟨_, hexclude⟩
    · exact ⟨_, hroots⟩

/-- What is wrong with a value keeps it from being well-formed. -/
theorem Wrong.not_wellFormed {v : Yaml.Value} {e : SettingsError} (h : Wrong v e) :
    ¬WellFormed v := by
  intro hv
  cases h with
  | notMapping h => exact h hv.hasFields
  | regex h => exact h hv.regex
  | notTexts hfield h => exact h (hv.texts _ hfield)

/-! ## 2. Reading -/

theorem cleanTexts_eq (texts : List Text) : cleanTexts texts = stripped texts := by
  rw [cleanTexts, stripped, List.filter_map]
  refine congrArg _ (List.filter_congr fun t _ => ?_)
  rw [Function.comp_apply, Bool.eq_iff_iff, Bool.not_eq_true', Bool.not_eq_true',
    ← Bool.not_eq_true, ← Bool.not_eq_true, not_iff_not, List.isEmpty_iff, Text.trim_eq_nil_iff]

theorem textsOf_eq_some_iff {items : List Yaml.Value} {texts : List Text} :
    textsOf items = some texts ↔ items = texts.map .text := by
  fun_induction textsOf items generalizing texts with
  | case1 => cases texts <;> simp
  | case2 t rest ih =>
    cases texts with
    | nil => simp [Option.map_eq_some_iff]
    | cons u texts => simpa [Option.map_eq_some_iff, ih] using and_comm
  | case3 items hnil hcons => cases texts <;> simp_all

theorem fieldTexts?_eq_some_iff {value : Option Yaml.Value} {texts : List Text} :
    fieldTexts? value = some texts ↔ GivesTexts value texts := by
  constructor
  · intro h
    unfold fieldTexts? at h
    split at h
    next => cases h; exact .absent
    next => cases h; exact .null
    next => cases h; exact .text _
    next items =>
      rw [textsOf_eq_some_iff.mp h]
      exact .list texts
    next => cases h
  · intro h
    cases h with
    | absent => rfl
    | null => rfl
    | text t => rfl
    | list => exact textsOf_eq_some_iff.mpr rfl

theorem GivesTexts.unique {value : Option Yaml.Value} {texts texts' : List Text}
    (h : GivesTexts value texts) (h' : GivesTexts value texts') : texts' = texts := by
  have heq := fieldTexts?_eq_some_iff.mpr h
  rw [fieldTexts?_eq_some_iff.mpr h'] at heq
  exact Option.some.inj heq

theorem GivesRegex.unique {value : Option Yaml.Value} {regex regex' : Text}
    (h : GivesRegex value regex) (h' : GivesRegex value regex') : regex' = regex := by
  cases h <;> cases h' <;> rfl

/-- What comes of the texts under a field is one thing. -/
theorem eq_of_givesTexts {value : Option Yaml.Value} {f : List Text → List Text} {a a' : List Text}
    (h : ∃ texts, GivesTexts value texts ∧ a = f texts)
    (h' : ∃ texts, GivesTexts value texts ∧ a' = f texts) : a' = a := by
  obtain ⟨texts, htexts, rfl⟩ := h
  obtain ⟨texts', htexts', rfl⟩ := h'
  rw [htexts.unique htexts']

/-- A value says one thing only. -/
theorem Says.unique {file : Text} {v : Yaml.Value} {s s' : Settings} (h : Says file v s)
    (h' : Says file v s') : s' = s := by
  have hregex := h.regex.unique h'.regex
  have hextensions := eq_of_givesTexts h.fileExtensions h'.fileExtensions
  have hexclude := eq_of_givesTexts h.exclude h'.exclude
  have hroots := eq_of_givesTexts h.roots h'.roots
  cases s
  cases s'
  rw [mk.injEq]
  exact ⟨hregex, hextensions, hexclude, hroots⟩

theorem textsField_cases (v : Yaml.Value) (field : String) :
    (∃ texts, GivesTexts (v.field? field.toList) texts ∧ textsField v field = .ok (stripped texts)) ∨
      (¬∃ texts, GivesTexts (v.field? field.toList) texts) ∧
        textsField v field = .error (.notTexts field.toList) := by
  unfold textsField
  cases hvalue : fieldTexts? (v.field? field.toList) with
  | some texts =>
    exact .inl ⟨texts, fieldTexts?_eq_some_iff.mp hvalue, congrArg _ (cleanTexts_eq texts)⟩
  | none =>
    refine .inr ⟨?_, rfl⟩
    rintro ⟨texts, htexts⟩
    rw [fieldTexts?_eq_some_iff.mpr htexts] at hvalue
    cases hvalue

theorem regexField_cases (v : Yaml.Value) :
    (∃ regex, GivesRegex (v.field? "regex".toList) regex ∧ regexField v = .ok regex) ∨
      (¬∃ regex, GivesRegex (v.field? "regex".toList) regex) ∧ regexField v = .error .regex := by
  unfold regexField
  split
  next hvalue => exact .inl ⟨_, hvalue ▸ .absent, rfl⟩
  next c rest hvalue => exact .inl ⟨_, hvalue ▸ .text (List.cons_ne_nil _ _), rfl⟩
  next value hother hvalue =>
    refine .inr ⟨?_, rfl⟩
    rintro ⟨regex, hregex⟩
    rw [hvalue] at hregex
    cases hregex with
    | text hne =>
      obtain ⟨c, rest, rfl⟩ := List.exists_cons_of_ne_nil hne
      exact hother c rest rfl

/-- A value says the settings that are read from it, or what is reported of it is wrong with it. -/
theorem ofValue_cases (file : Text) (v : Yaml.Value) :
    (∃ s, ofValue file v = .ok s ∧ Says file v s) ∨
      ∃ e, ofValue file v = .error e ∧ Wrong v e := by
  unfold ofValue
  split
  next =>
    exact .inl ⟨_, rfl, .inl rfl, .absent, ⟨_, .absent, rfl⟩, ⟨_, .absent, rfl⟩, ⟨_, .absent, rfl⟩⟩
  next entries =>
    rcases regexField_cases (.mapping entries) with ⟨regex, hregex, heq⟩ | ⟨hwrong, heq⟩
    case inr => exact .inr ⟨_, by rw [heq]; rfl, .regex hwrong⟩
    rw [heq]
    rcases textsField_cases (.mapping entries) "fileExtensions" with
      ⟨extensions, hextensions, heq⟩ | ⟨hwrong, heq⟩
    case inr => exact .inr ⟨_, by rw [heq]; rfl, .notTexts (by decide) hwrong⟩
    rw [heq]
    rcases textsField_cases (.mapping entries) "exclude" with
      ⟨exclude, hexclude, heq⟩ | ⟨hwrong, heq⟩
    case inr => exact .inr ⟨_, by rw [heq]; rfl, .notTexts (by decide) hwrong⟩
    rw [heq]
    rcases textsField_cases (.mapping entries) "roots" with ⟨roots, hroots, heq⟩ | ⟨hwrong, heq⟩
    case inr => exact .inr ⟨_, by rw [heq]; rfl, .notTexts (by decide) hwrong⟩
    rw [heq]
    exact .inl ⟨_, rfl, .inr ⟨entries, rfl⟩, hregex, ⟨_, hextensions, rfl⟩, ⟨_, hexclude, rfl⟩,
      ⟨_, hroots, rfl⟩⟩
  next hnull hmapping =>
    refine .inr ⟨_, rfl, .notMapping ?_⟩
    rintro (rfl | ⟨entries, rfl⟩)
    · exact hnull rfl
    · exact hmapping entries rfl

/-- Settings are read from a value exactly if the value says them. -/
theorem ofValue_eq_ok_iff {file : Text} {v : Yaml.Value} {s : Settings} :
    ofValue file v = .ok s ↔ Says file v s := by
  rcases ofValue_cases file v with ⟨read, hread, hmeant⟩ | ⟨e, he, hwrong⟩
  · rw [hread, Except.ok.injEq]
    constructor
    · rintro rfl
      exact hmeant
    · intro h
      exact h.unique hmeant
  · rw [he]
    constructor
    · intro h
      cases h
    · intro h
      exact absurd h.wellFormed hwrong.not_wellFormed

theorem exists_says_iff {file : Text} {v : Yaml.Value} : (∃ s, Says file v s) ↔ WellFormed v := by
  constructor
  · rintro ⟨s, hs⟩
    exact hs.wellFormed
  · intro hv
    rcases ofValue_cases file v with ⟨s, _, hmeant⟩ | ⟨e, _, hwrong⟩
    · exact ⟨s, hmeant⟩
    · exact absurd hv hwrong.not_wellFormed

end Settings

/-! ## 3. Depth -/

namespace Yaml

/-- The text that a value is, if it is one. -/
def Value.text? : Value → Option Text
  | .text t => some t
  | _ => none

/-- Which entry a field names depends on the keys that are texts. -/
theorem Value.field?_mapping (entries : List (Value × Value)) (name : Text) :
    (Value.mapping entries).field? name
      = (entries.reverse.find? fun e => e.1.text? = some name).map (·.2) := by
  have hkey : (fun e : Value × Value => match e.1 with
      | .text t => decide (t = name)
      | _ => false) = fun e => decide (e.1.text? = some name) := by
    funext e
    obtain ⟨key, value⟩ := e
    cases key <;> simp [text?]
  exact congrArg (fun p => (entries.reverse.find? p).map (·.2)) hkey

namespace Graph

variable (g : Graph)

theorem value_of_scalarOf? {g : Graph} {id : Nat} {r : Except Error Value}
    (h : g.scalarOf? id = some r) (d : Nat) : g.value d id = r.toOption.getD .folded := by
  cases d <;> simp only [value, h]

/-- A node is a text at every depth or at none. -/
theorem text?_value (d d' id : Nat) : (g.value d id).text? = (g.value d' id).text? := by
  cases hscalar : g.scalarOf? id with
  | some r => rw [value_of_scalarOf? hscalar, value_of_scalarOf? hscalar]
  | none =>
    have hnone : ∀ d, (g.value d id).text? = none := by
      intro d
      cases d with
      | zero => simp only [value, hscalar, Value.text?]
      | succ d =>
        simp only [value, hscalar]
        split <;> rfl
    rw [hnone d, hnone d']

/-- A field names the same entry at every depth. -/
theorem field?_value (d : Nat) (entries : List (Nat × Nat)) (name : Text) :
    (Value.mapping (entries.map fun e => (g.value d e.1, g.value d e.2))).field? name
      = (entries.reverse.find? fun e => (g.value 0 e.1).text? = some name).map
          fun e => g.value d e.2 := by
  rw [Value.field?_mapping, ← List.map_reverse, List.find?_map, Option.map_map]
  simp only [Function.comp_def, text?_value g d 0]

end Graph

end Yaml

namespace Settings

open Yaml (Value Graph)

theorem textsOf_cons (v : Value) (items : List Value) :
    textsOf (v :: items) = v.text?.bind fun t => (textsOf items).map (t :: ·) := by
  cases v <;> rfl

/-- Of the items of a list only those matter that are texts. -/
theorem textsOf_congr {items items' : List Value}
    (h : items.map Value.text? = items'.map Value.text?) : textsOf items = textsOf items' := by
  induction items generalizing items' with
  | nil =>
    cases items' with
    | nil => rfl
    | cons => simp at h
  | cons v items ih =>
    cases items' with
    | nil => simp at h
    | cons v' items' =>
      obtain ⟨hv, hitems⟩ := List.cons.inj h
      rw [textsOf_cons, textsOf_cons, hv, ih hitems]

/-- The texts under a field are as deep as reading looks. -/
theorem fieldTexts?_value (g : Graph) (d id : Nat) :
    fieldTexts? (some (g.value (d + 1) id)) = fieldTexts? (some (g.value 1 id)) := by
  cases hscalar : g.scalarOf? id with
  | some r => rw [Graph.value_of_scalarOf? hscalar, Graph.value_of_scalarOf? hscalar]
  | none =>
    simp only [Graph.value, hscalar]
    split
    next items =>
      refine textsOf_congr ?_
      rw [List.map_map, List.map_map]
      exact List.map_congr_left fun item _ => g.text?_value d 0 item
    next => rfl
    next => rfl
    next items =>
      refine textsOf_congr ?_
      rw [List.map_map, List.map_map]
      rfl
    next => rfl

theorem regexField_eq (v : Value) :
    regexField v
      = match (v.field? "regex".toList).map Value.text? with
        | none => .ok defaultRegex
        | some (some (c :: rest)) => .ok (c :: rest)
        | some _ => .error .regex := by
  unfold regexField
  cases v.field? "regex".toList with
  | none => rfl
  | some value =>
    cases value with
    | text t => cases t <;> rfl
    | _ => rfl

theorem regexField_value (g : Graph) (d : Nat) (entries : List (Nat × Nat)) :
    regexField (.mapping (entries.map fun e => (g.value d e.1, g.value d e.2)))
      = regexField (.mapping (entries.map fun e => (g.value 0 e.1, g.value 0 e.2))) := by
  rw [regexField_eq, regexField_eq, g.field?_value, g.field?_value, Option.map_map, Option.map_map]
  simp only [Function.comp_def, g.text?_value d 0]

theorem textsField_value (g : Graph) (d : Nat) (entries : List (Nat × Nat)) (field : String) :
    textsField (.mapping (entries.map fun e => (g.value (d + 1) e.1, g.value (d + 1) e.2))) field
      = textsField (.mapping (entries.map fun e => (g.value 1 e.1, g.value 1 e.2))) field := by
  rw [textsField, textsField, g.field?_value, g.field?_value]
  cases entries.reverse.find? fun e => (g.value 0 e.1).text? = some field.toList with
  | none => rfl
  | some e => rw [Option.map_some, Option.map_some, fieldTexts?_value]

/-- **Settings are as deep as reading looks.** A node that is looked at more deeply says the same. -/
theorem ofValue_value (file : Text) (g : Graph) (d id : Nat) :
    ofValue file (g.value (depth + d) id) = ofValue file (g.value depth id) := by
  have hdepth : depth + d = d + 1 + 1 := by rw [depth]; omega
  rw [hdepth]
  show ofValue file (g.value (d + 1 + 1) id) = ofValue file (g.value (1 + 1) id)
  cases hscalar : g.scalarOf? id with
  | some r => rw [Graph.value_of_scalarOf? hscalar, Graph.value_of_scalarOf? hscalar]
  | none =>
    rw [Graph.value, Graph.value, hscalar]
    dsimp only
    split
    next => rfl
    next => rfl
    next entries =>
      simp only [ofValue, regexField_value g (d + 1), regexField_value g 1, textsField_value g d]
    next => rfl
    next => rfl

end Settings

end Marginalia
