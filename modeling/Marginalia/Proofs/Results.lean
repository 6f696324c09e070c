/-
Marginalia.Proofs.Results — the JSON output loses nothing.

The outline looks the comments of a file up by its path, so what is printed is
the list of the records because no two of them have the same path
(`Snapshot.toJson_eq`). The text is one of the format and decodes to that list
(`print_json_lossless`). Text, position and style of each comment and the path
of each file are in it, and a comment has the path of its file; so indexes with
the same output are the same (`Snapshot.eq_of_print_eq`). All of this holds of
whatever a refresh gathers (`Gathered.eq_of_print_eq`).
-/
import Marginalia.Proofs.Index.Coherent
import Marginalia.Proofs.Json.Decode
import Marginalia.Results

namespace Marginalia

/-! ## 1. Records in JSON -/

theorem Kind.name_inj {a b : Kind} (h : a.name = b.name) : a = b := by
  have hsame := congrArg Kind.ofName? h
  rw [Kind.ofName?_name, Kind.ofName?_name] at hsame
  exact Option.some.inj hsame

/-- Only its path is not in the JSON of a comment. -/
theorem Comment.eq_of_toJson_eq {c d : Comment} (hpath : c.path = d.path)
    (h : c.toJson = d.toJson) : c = d := by
  obtain ⟨path, text, ⟨line, column⟩, kind⟩ := c
  obtain ⟨path', text', ⟨line', column'⟩, kind'⟩ := d
  simp only [toJson, Json.object.injEq, List.cons.injEq, Prod.mk.injEq, Json.text.injEq,
    Json.integer.injEq, true_and, and_true] at h
  obtain ⟨rfl, rfl, rfl, hkind⟩ := h
  obtain rfl := Kind.name_inj hkind
  cases hpath
  rfl

/-- A function that tells the members of two lists apart tells the lists apart. -/
theorem eq_of_map_eq {α β : Type} {f : α → β} {p : α → Prop}
    (hf : ∀ a b, p a → p b → f a = f b → a = b) :
    ∀ {l m : List α}, (∀ a ∈ l, p a) → (∀ b ∈ m, p b) → l.map f = m.map f → l = m
  | [], [], _, _, _ => rfl
  | [], _ :: _, _, _, h => by cases h
  | _ :: _, [], _, _, h => by cases h
  | a :: l, b :: m, hl, hm, h => by
      obtain ⟨hfirst, hrest⟩ := List.cons.inj h
      obtain ⟨ha, hl⟩ := List.forall_mem_cons.mp hl
      obtain ⟨hb, hm⟩ := List.forall_mem_cons.mp hm
      rw [hf a b ha hb hfirst, eq_of_map_eq hf hl hm hrest]

/-- Whether the comments of records have the paths of their files. -/
def PathsAgree (records : List FileRecord) : Prop :=
  ∀ r ∈ records, ∀ c ∈ r.comments, c.path = r.path

theorem FileRecord.eq_of_toJson_eq {r q : FileRecord} (hr : ∀ c ∈ r.comments, c.path = r.path)
    (hq : ∀ c ∈ q.comments, c.path = q.path) (h : r.toJson = q.toJson) : r = q := by
  obtain ⟨path, comments⟩ := r
  obtain ⟨path', comments'⟩ := q
  simp only [toJson, Json.object.injEq, List.cons.injEq, Prod.mk.injEq, Json.text.injEq,
    Json.array.injEq, true_and, and_true] at h
  obtain ⟨rfl, hcomments⟩ := h
  obtain rfl := eq_of_map_eq (fun c d hc hd => Comment.eq_of_toJson_eq (hc.trans hd.symm))
    hr hq hcomments
  rfl

/-! ## 2. The output -/

namespace Snapshot

/-- What is looked up for the output is what the records hold. -/
theorem toJson_eq {s : Snapshot} (h : (s.records.map FileRecord.path).Nodup) :
    s.toJson = .array (s.records.map FileRecord.toJson) := by
  rw [toJson, entries, List.map_map]
  congr 1
  refine List.map_congr_left fun r hr => ?_
  rw [Function.comp_apply, below_of_nodup h hr rfl]

/-- The output ends in a line feed behind the document. -/
theorem isDocument_print {s : Snapshot} (h : (s.records.map FileRecord.path).Nodup) (cwd : Text)
    (roots : List Text) :
    Json.IsDocument (.array (s.records.map FileRecord.toJson)) (s.print true cwd roots) := by
  obtain ⟨own, hown, before, after, hbefore, hafter, hrender⟩ :=
    Json.isDocument_render (.array (s.records.map FileRecord.toJson))
  have hline : Json.Spaces (after ++ ['\n']) := by
    intro c hc
    rcases List.mem_append.mp hc with hc | hc
    · exact hafter c hc
    · rw [List.mem_singleton.mp hc]
      rfl
  refine ⟨own, hown, before, after ++ ['\n'], hbefore, hline, ?_⟩
  rw [print, if_pos rfl, toJson_eq h, hrender, List.append_assoc]

/-- Indexes with the same output are the same. -/
theorem eq_of_print_eq {s other : Snapshot} {cwd cwd' : Text} {roots roots' : List Text}
    (hpaths : (s.records.map FileRecord.path).Nodup)
    (hpaths' : (other.records.map FileRecord.path).Nodup) (hagree : PathsAgree s.records)
    (hagree' : PathsAgree other.records)
    (hprint : other.print true cwd' roots' = s.print true cwd roots) : other = s := by
  have hdocument := isDocument_print hpaths cwd roots
  have hdocument' := isDocument_print hpaths' cwd' roots'
  rw [hprint] at hdocument'
  have hrecords := Json.array.inj (hdocument'.unique hdocument)
  obtain ⟨records⟩ := s
  obtain ⟨records'⟩ := other
  rw [Snapshot.mk.injEq]
  exact eq_of_map_eq (fun r q => FileRecord.eq_of_toJson_eq) hagree' hagree hrecords

end Snapshot

/-- Refreshes with the same output have gathered the same records. -/
theorem Gathered.eq_of_print_eq {records records' : List FileRecord} {cwd cwd' : Text}
    {roots roots' : List Text} (h : Gathered records) (h' : Gathered records')
    (hprint : (⟨records'⟩ : Snapshot).print true cwd' roots'
      = (⟨records⟩ : Snapshot).print true cwd roots) : records' = records := by
  have hsame := Snapshot.eq_of_print_eq h.tidy.nodup_paths h'.tidy.nodup_paths
    h.tidy.path_of_comment h'.tidy.path_of_comment hprint
  exact Snapshot.mk.inj hsame

/-- **The JSON output is lossless.** It is a text of the format, it decodes to the list of the
records in their order, each with its comments in theirs, and no other index has the same output,
whatever the directory and the roots. -/
theorem print_json_lossless {s : Snapshot} (hpaths : (s.records.map FileRecord.path).Nodup)
    (cwd : Text) (roots : List Text) :
    Json.IsDocument (.array (s.records.map FileRecord.toJson)) (s.print true cwd roots) ∧
      Json.decode? (s.print true cwd roots) = some (.array (s.records.map FileRecord.toJson)) ∧
      (∀ j, Json.IsDocument j (s.print true cwd roots) →
        j = .array (s.records.map FileRecord.toJson)) ∧
      ∀ (other : Snapshot) (cwd' : Text) (roots' : List Text),
        (other.records.map FileRecord.path).Nodup → PathsAgree s.records →
        PathsAgree other.records → other.print true cwd' roots' = s.print true cwd roots →
        other = s := by
  have hdocument := Snapshot.isDocument_print hpaths cwd roots
  refine ⟨hdocument, Json.decode?_of_isDocument hdocument, fun j hj => hj.unique hdocument, ?_⟩
  intro other cwd' roots' hother hagree hagree' hprint
  exact Snapshot.eq_of_print_eq hpaths hother hagree hagree' hprint

/-- A file whose path needs escapes and whose comment does, too, and one without comments. -/
def awkward : Snapshot where
  records := [
    ⟨"/w/a\"b\\c.py".toList, [⟨"/w/a\"b\\c.py".toList, "# \t\x01/😀é".toList, ⟨1, 0⟩, .hash⟩]⟩,
    ⟨"/w/d.py".toList, []⟩]

theorem print_json_awkward :
    (awkward.records.map FileRecord.path).Nodup ∧
      Json.decode? (awkward.print true "/".toList []) = some (.array [
        .object [("file_path".toList, .text "/w/a\"b\\c.py".toList), ("comments".toList, .array [
          .object [("text".toList, .text "# \t\x01/😀é".toList),
            ("line_number".toList, .integer 1), ("column".toList, .integer 0),
            ("kind".toList, .text "hash".toList)]])],
        .object [("file_path".toList, .text "/w/d.py".toList), ("comments".toList, .array [])]]) := by
  have hpaths : (awkward.records.map FileRecord.path).Nodup := by decide
  exact ⟨hpaths, (print_json_lossless hpaths "/".toList []).2.1⟩

end Marginalia
