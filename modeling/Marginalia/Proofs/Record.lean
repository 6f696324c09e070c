/-
Marginalia.Proofs.Record — what reading a file gives, and the scan of many files.

Reading takes the bytes of a file for what they are or refuses them: the text is
the one whose encoding they are, with the returns and the byte order mark that
are in them, and a refusal names the place and the reason, both said of the bytes
alone.

For a path without the code zero, the scan of a file ends with a record or
with the reason why the file cannot be read; `FileRecord.kept?` is the record
if it has comments, and `skips` is the notice if there is a reason.

`Scanning.scan_eq` is what later modules use: the records come in the order of
the files, the notices in the order of the tasks, and neither depends on
anything else, whether a pool is used or not.
-/
import Marginalia.Record
import Marginalia.Proofs.Text.Utf8

namespace Marginalia

/-! ## 1. One file -/

theorem readText_of_read {disk : Disk} {path : Text} {bytes : List UInt8} (hzero : '\x00' ∉ path)
    (hread : disk.read path = .ok bytes) : readText disk path
      = (Utf8.decode bytes).mapError fun r => .unreadable path (.encoding r) := by
  rw [readText, if_neg (by simpa using hzero), hread]

/-- **Reading is strict and exact.** A file that can be read gives a text if its bytes are the
encoding of this text, with nothing left out or replaced. Otherwise the report names the end of the
longest part that is well formed, and why it does not go on: what follows begins no character, is
a character cut off by the end, or neither of the two. -/
theorem readText_strict {disk : Disk} {path : Text} {bytes : List UInt8} (hzero : '\x00' ∉ path)
    (hread : disk.read path = .ok bytes) :
    (∀ t, readText disk path = .ok t ↔ Utf8.encode t = bytes) ∧
      (¬Utf8.WellFormed bytes → ∃ r : Utf8.Refusal,
        readText disk path = .error (.unreadable path (.encoding r)) ∧
        (Fault.unreadable path (.encoding r)).message = path ++ ": ".toList
          ++ ("not valid UTF-8 (".toList ++ r.reason.message ++ " at byte ".toList
            ++ Text.ofNat r.offset ++ ")".toList) ∧
        Utf8.WellFormed (bytes.take r.offset) ∧
        (∀ n, Utf8.WellFormed (bytes.take n) → n ≤ r.offset) ∧
        (r.reason.message = "invalid start byte".toList ↔
          ∃ b, bytes[r.offset]? = some b ∧ ¬Utf8.Begins b) ∧
        (r.reason.message = "unexpected end of data".toList ↔
          Utf8.CutOff (bytes.drop r.offset)) ∧
        (r.reason.message = "invalid continuation byte".toList ↔
          ¬(∃ b, bytes[r.offset]? = some b ∧ ¬Utf8.Begins b) ∧
            ¬Utf8.CutOff (bytes.drop r.offset))) := by
  rw [readText_of_read hzero hread]
  constructor
  · intro t
    rw [← Utf8.decode_eq_ok_iff]
    cases Utf8.decode bytes with
    | ok s => simp [Except.mapError]
    | error r => exact iff_of_false nofun nofun
  · intro hbytes
    cases hdecode : Utf8.decode bytes with
    | ok t => exact (hbytes ⟨t, Utf8.decode_eq_ok_iff.mp hdecode⟩).elim
    | error r =>
      obtain ⟨hbefore, hlongest, hrefuses⟩ := Utf8.decode_eq_error hdecode
      have hstart := hrefuses.startByte_iff
      have hcontinuation := hrefuses.continuationByte_iff
      rw [List.head?_drop] at hstart hcontinuation
      exact ⟨r, rfl, rfl, hbefore, hlongest, Utf8.Reason.message_inj.trans hstart,
        Utf8.Reason.message_inj.trans hrefuses.endOfData_iff,
        Utf8.Reason.message_inj.trans hcontinuation⟩

/-- A file in two encodings: `é` is in UTF-8 first, then a byte of its own. -/
def mixedDisk : Disk where
  root := [("w".toList, .directory [("a.py".toList, .file [0x23, 0xC3, 0xA9, 0xE9, 0x0A])])]

theorem readText_mixed :
    '\x00' ∉ "/w/a.py".toList ∧
      mixedDisk.read "/w/a.py".toList = .ok [0x23, 0xC3, 0xA9, 0xE9, 0x0A] ∧
      (∀ t, Utf8.encode t ≠ [0x23, 0xC3, 0xA9, 0xE9, 0x0A]) ∧
      ∃ r : Utf8.Refusal,
        readText mixedDisk "/w/a.py".toList = .error (.unreadable "/w/a.py".toList (.encoding r)) ∧
        r.offset = 3 ∧ r.reason.message = "invalid continuation byte".toList ∧
        ¬Utf8.CutOff [0xE9, 0x0A] := by
  have hzero : '\x00' ∉ "/w/a.py".toList := by decide
  have hread : mixedDisk.read "/w/a.py".toList = .ok [0x23, 0xC3, 0xA9, 0xE9, 0x0A] := by cbv
  obtain ⟨hok, herror⟩ := readText_strict hzero hread
  have hresult : readText mixedDisk "/w/a.py".toList
      = .error (.unreadable "/w/a.py".toList (.encoding ⟨.continuationByte, 3, 1, 0xE9⟩)) := by
    cbv
  have hnot : ∀ t, Utf8.encode t ≠ [0x23, 0xC3, 0xA9, 0xE9, 0x0A] := fun t ht => by
    have htext := (hok t).mpr ht
    rw [hresult] at htext
    cases htext
  obtain ⟨r, hr, -, -, -, -, -, hcontinuation⟩ := herror (by rintro ⟨t, ht⟩; exact hnot t ht)
  rw [hresult] at hr
  obtain rfl : (⟨.continuationByte, 3, 1, 0xE9⟩ : Utf8.Refusal) = r := by
    injection hr with hr
    injection hr with _ hr
    injection hr
  exact ⟨hzero, hread, hnot, _, hresult, rfl, rfl, (hcontinuation.mp rfl).2⟩

theorem readText_eq_error {disk : Disk} {path : Text} {f : Fault}
    (h : readText disk path = .error f) :
    '\x00' ∈ path ∧ f = .zeroInPath ∨ '\x00' ∉ path ∧ ∃ e, f = .unreadable path e := by
  unfold readText at h
  split at h
  next hzero =>
    obtain rfl := Except.error.inj h
    exact .inl ⟨by simpa using hzero, rfl⟩
  next hzero =>
    refine .inr ⟨by simpa using hzero, ?_⟩
    split at h
    next e _ => exact ⟨.disk e, (Except.error.inj h).symm⟩
    next bytes _ =>
      cases hdecode : Utf8.decode bytes with
      | ok content =>
        rw [hdecode] at h
        cases h
      | error r =>
        rw [hdecode] at h
        exact ⟨.encoding r, (Except.error.inj h).symm⟩

theorem zero_not_mem_of_readText {disk : Disk} {path content : Text}
    (h : readText disk path = .ok content) : '\x00' ∉ path := by
  intro hzero
  rw [readText, if_pos (by simpa using hzero)] at h
  cases h

namespace FileRecord

theorem scan_eq_ok {disk : Disk} {path : Text} {r : FileRecord} (h : scan disk path = .ok r) :
    ∃ content, readText disk path = .ok content ∧ r = ⟨path, extractComments path content⟩ := by
  unfold scan at h
  cases hread : readText disk path with
  | ok content =>
    rw [hread] at h
    exact ⟨content, rfl, (Except.ok.inj h).symm⟩
  | error f =>
    rw [hread] at h
    cases h

theorem scan_eq_error {disk : Disk} {path : Text} {f : Fault} (h : scan disk path = .error f) :
    '\x00' ∈ path ∧ f = .zeroInPath ∨ '\x00' ∉ path ∧ ∃ e, f = .unreadable path e := by
  unfold scan at h
  cases hread : readText disk path with
  | ok content =>
    rw [hread] at h
    cases h
  | error g =>
    rw [hread] at h
    obtain rfl := Except.error.inj h
    exact readText_eq_error hread

theorem path_of_scan {disk : Disk} {path : Text} {r : FileRecord} (h : scan disk path = .ok r) :
    r.path = path := by
  obtain ⟨_, -, rfl⟩ := scan_eq_ok h
  rfl

theorem zero_not_mem_of_scan {disk : Disk} {path : Text} {r : FileRecord}
    (h : scan disk path = .ok r) : '\x00' ∉ path := by
  obtain ⟨_, hread, -⟩ := scan_eq_ok h
  exact zero_not_mem_of_readText hread

/-- The record of a file, if the file can be read and has comments. -/
def kept? (disk : Disk) (path : Text) : Option FileRecord :=
  match scan disk path with
  | .ok record => if record.comments.isEmpty then none else some record
  | .error _ => none

theorem kept?_eq_some {disk : Disk} {path : Text} {r : FileRecord} :
    kept? disk path = some r ↔ scan disk path = .ok r ∧ r.comments ≠ [] := by
  unfold kept?
  cases scan disk path with
  | error f => simp
  | ok record =>
    by_cases hempty : record.comments = []
    · simp only [hempty, List.isEmpty_nil, if_true, reduceCtorEq, Except.ok.injEq, false_iff]
      rintro ⟨rfl, hne⟩
      exact hne hempty
    · simp only [List.isEmpty_iff, hempty, if_false, Option.some.injEq, Except.ok.injEq]
      refine ⟨?_, fun h => h.1⟩
      rintro rfl
      exact ⟨rfl, hempty⟩

theorem path_of_kept? {disk : Disk} {path : Text} {r : FileRecord} (h : kept? disk path = some r) :
    r.path = path :=
  path_of_scan (kept?_eq_some.mp h).1

end FileRecord

/-- The notice about a file that cannot be read. -/
def skips (disk : Disk) (path : Text) : List Notice :=
  match FileRecord.scan disk path with
  | .error (.unreadable _ e) => [.skipped path e]
  | _ => []

theorem scanIfAny_eq {disk : Disk} {path : Text} (hzero : '\x00' ∉ path) :
    scanIfAny disk path = ⟨skips disk path, .ok (FileRecord.kept? disk path)⟩ := by
  unfold scanIfAny skips FileRecord.kept?
  cases hscan : FileRecord.scan disk path with
  | ok record => rfl
  | error f =>
    obtain ⟨-, e, rfl⟩ := (FileRecord.scan_eq_error hscan).resolve_left fun h => hzero h.1
    rfl

theorem zero_not_mem_of_scanIfAny {disk : Disk} {path : Text} {record : Option FileRecord}
    (h : (scanIfAny disk path).result = .ok record) : '\x00' ∉ path := by
  intro hzero
  unfold scanIfAny at h
  cases hscan : FileRecord.scan disk path with
  | ok r => exact FileRecord.zero_not_mem_of_scan hscan hzero
  | error f =>
    obtain ⟨-, rfl⟩ := (FileRecord.scan_eq_error hscan).resolve_right fun h => h.1 hzero
    rw [hscan] at h
    cases h

/-! ## 2. Several files -/

theorem scanAll_eq {disk : Disk} : ∀ {files : List Text}, (∀ path ∈ files, '\x00' ∉ path) →
    scanAll disk files
      = ⟨files.flatMap (skips disk), .ok (files.filterMap (FileRecord.kept? disk))⟩
  | [], _ => rfl
  | path :: rest, h => by
      have hrest : ∀ p ∈ rest, '\x00' ∉ p := fun p hp => h p (List.mem_cons_of_mem _ hp)
      rw [scanAll, scanIfAny_eq (h path List.mem_cons_self), scanAll_eq hrest, List.flatMap_cons,
        List.filterMap_cons]
      cases FileRecord.kept? disk path with
      | none => simp [Outcome.andThen, Outcome.done]
      | some record => simp [Outcome.andThen, Outcome.done]

theorem zero_not_mem_of_scanAll {disk : Disk} : ∀ {files : List Text} {records : List FileRecord},
    (scanAll disk files).result = .ok records → ∀ path ∈ files, '\x00' ∉ path
  | [], _, _ => by simp
  | path :: rest, records, h => by
      rw [scanAll, Outcome.andThen_eq_ok] at h
      obtain ⟨record, hpath, h⟩ := h
      obtain ⟨others, hrest, -⟩ := Outcome.andThen_eq_ok.mp h
      exact List.forall_mem_cons.mpr
        ⟨zero_not_mem_of_scanIfAny hpath, zero_not_mem_of_scanAll hrest⟩

namespace Scanning

variable {s : Scanning} {disk : Disk} {files : List Text}

/-- A pool knows the result of each scan that was made. -/
theorem resultOf_map {tasks : List Text} {path : Text} (h : path ∈ tasks) :
    resultOf (tasks.map fun p => (p, scanIfAny disk p)) path = (scanIfAny disk path).result := by
  have hlookup : (tasks.map fun p => (p, scanIfAny disk p)).lookup path
      = some (scanIfAny disk path) := by
    induction tasks with
    | nil => cases h
    | cons task rest ih =>
      by_cases htask : path = task
      · subst htask
        simp
      · have hne : (path == task) = false := by simpa using htask
        rw [List.map_cons, List.lookup_cons, hne]
        exact ih ((List.mem_cons.mp h).resolve_left htask)
  rw [resultOf, hlookup]

theorem collect_cons {made : List (Text × Outcome (Option FileRecord))} {path : Text}
    {rest : List Text} {record : Option FileRecord} {records : List FileRecord}
    (hpath : resultOf made path = .ok record) (hrest : collect made rest = .ok records) :
    collect made (path :: rest) = .ok (record.toList ++ records) := by
  rw [collect, hpath, hrest]
  rfl

theorem collect_eq {tasks : List Text} : ∀ {files : List Text}, (∀ path ∈ files, path ∈ tasks) →
    (∀ path ∈ files, '\x00' ∉ path) →
    collect (tasks.map fun p => (p, scanIfAny disk p)) files
      = .ok (files.filterMap (FileRecord.kept? disk))
  | [], _, _ => rfl
  | path :: rest, hmem, h => by
      have hpath : resultOf (tasks.map fun p => (p, scanIfAny disk p)) path
          = .ok (FileRecord.kept? disk path) := by
        rw [resultOf_map (hmem path List.mem_cons_self),
          scanIfAny_eq (h path List.mem_cons_self)]
      have hrest : collect (tasks.map fun p => (p, scanIfAny disk p)) rest
          = .ok (rest.filterMap (FileRecord.kept? disk)) :=
        collect_eq (fun p hp => hmem p (List.mem_cons_of_mem _ hp))
          fun p hp => h p (List.mem_cons_of_mem _ hp)
      rw [collect_cons hpath hrest, List.filterMap_cons]
      cases FileRecord.kept? disk path with
      | none => rfl
      | some record => rfl

theorem zero_not_mem_of_collect {tasks : List Text} : ∀ {files : List Text}
    {records : List FileRecord}, (∀ path ∈ files, path ∈ tasks) →
    collect (tasks.map fun p => (p, scanIfAny disk p)) files = .ok records →
    ∀ path ∈ files, '\x00' ∉ path
  | [], _, _, _ => by simp
  | path :: rest, records, hmem, h => by
      rw [collect] at h
      cases hpath : resultOf (tasks.map fun p => (p, scanIfAny disk p)) path with
      | error f => rw [hpath] at h; cases h
      | ok record =>
        cases hrest : collect (tasks.map fun p => (p, scanIfAny disk p)) rest with
        | error f => rw [hpath, hrest] at h; cases h
        | ok others =>
          rw [resultOf_map (hmem path List.mem_cons_self)] at hpath
          exact List.forall_mem_cons.mpr ⟨zero_not_mem_of_scanIfAny hpath,
            zero_not_mem_of_collect (fun p hp => hmem p (List.mem_cons_of_mem _ hp)) hrest⟩

theorem mem_order {path : Text} : path ∈ s.order files ↔ path ∈ files :=
  (s.order_perm files).mem_iff

/-- Files are scanned in some order, which shows in the notices only. -/
theorem scan_eq (s : Scanning) (disk : Disk) (h : ∀ path ∈ files, '\x00' ∉ path) :
    ∃ order : List Text, order.Perm files ∧ s.scan disk files
      = ⟨order.flatMap (skips disk), .ok (files.filterMap (FileRecord.kept? disk))⟩ := by
  unfold scan
  split
  next => exact ⟨files, List.Perm.refl _, scanAll_eq h⟩
  next =>
    refine ⟨s.order files, s.order_perm files, ?_⟩
    rw [inPool, collect_eq (fun path hpath => mem_order.mpr hpath) h, List.flatMap_map]
    have hnotices : (s.order files).flatMap (fun path => (scanIfAny disk path).notices)
        = (s.order files).flatMap (skips disk) := by
      rw [List.flatMap_def, List.flatMap_def]
      refine congrArg List.flatten (List.map_congr_left fun path hpath => ?_)
      rw [scanIfAny_eq (h path (mem_order.mp hpath))]
    rw [hnotices]

theorem zero_not_mem_of_scan {records : List FileRecord}
    (h : (s.scan disk files).result = .ok records) : ∀ path ∈ files, '\x00' ∉ path := by
  unfold scan at h
  split at h
  next => exact zero_not_mem_of_scanAll h
  next => exact zero_not_mem_of_collect (fun path hpath => mem_order.mpr hpath) h

end Scanning

end Marginalia
