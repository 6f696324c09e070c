/-
Marginalia.Proofs.Walk.Limit — walks within a limit.

A limit keeps the first files of a walk and adds one notice if it left out a
file (`Visit.filter_notices_upTo`). Whatever the limit, a walk finds eligible
files only, and it reports what it did not look at but nothing about the files
it found.
-/
import Marginalia.Proofs.Walk.Eligible

namespace Marginalia

/-! ## 1. What a limit leaves -/

/-- Whether a notice says that a limit was reached. -/
def Notice.isLimitReached : Notice → Bool
  | .limitReached .. => true
  | _ => false

namespace Visit

theorem files_upTo {limit : Int} {root : Text} : ∀ (allowed : Nat) (visits : List Visit),
    files (upTo limit root allowed visits) = (files visits).take allowed
  | allowed, [] => by simp [upTo, files]
  | allowed, .note n :: rest => files_upTo allowed rest
  | 0, .file path :: rest => rfl
  | allowed + 1, .file path :: rest => congrArg (path :: ·) (files_upTo allowed rest)

/-- A limit keeps the first files. -/
theorem files_limited (limit : Option Int) (root : Text) (visits : List Visit) :
    files (limited limit root visits)
      = match limit with
        | none => files visits
        | some n => (files visits).take n.toNat := by
  cases limit with
  | none => rfl
  | some n => exact files_upTo n.toNat visits

theorem mem_of_mem_files_limited {limit : Option Int} {root : Text} {visits : List Visit}
    {path : Text} (h : path ∈ files (limited limit root visits)) : path ∈ files visits := by
  rw [files_limited] at h
  cases limit with
  | none => exact h
  | some n => exact List.mem_of_mem_take h

theorem mem_notices_upTo {limit : Int} {root : Text} {n : Notice} :
    ∀ {allowed : Nat} {visits : List Visit}, n ∈ notices (upTo limit root allowed visits) →
    n ∈ notices visits ∨ n = .limitReached limit root
  | _, [], h => absurd h List.not_mem_nil
  | _, .note m :: rest, h => by
      rcases List.mem_cons.mp h with rfl | h
      · exact .inl List.mem_cons_self
      · exact (mem_notices_upTo h).imp_left (List.mem_cons_of_mem _)
  | 0, .file path :: rest, h => .inr (List.mem_singleton.mp h)
  | allowed + 1, .file path :: rest, h => by
      -- a file is no notice, so both sides lose the first visit
      have hrest : n ∈ notices (upTo limit root allowed rest) := h
      have hcases : n ∈ notices rest ∨ n = .limitReached limit root := mem_notices_upTo hrest
      exact hcases

/-- A limit is reported if it leaves out a file, and then once. -/
theorem filter_notices_upTo {limit : Int} {root : Text} : ∀ {allowed : Nat}
    {visits : List Visit}, (∀ n ∈ notices visits, n.isLimitReached = false) →
    (notices (upTo limit root allowed visits)).filter Notice.isLimitReached
      = if allowed < (files visits).length then [.limitReached limit root] else []
  | allowed, [], _ => by simp [upTo, notices, files]
  | allowed, .note n :: rest, h => by
      have hrest : ∀ m ∈ notices rest, m.isLimitReached = false :=
        fun m hm => h m (List.mem_cons_of_mem n hm)
      show (n :: notices (upTo limit root allowed rest)).filter Notice.isLimitReached = _
      rw [List.filter_cons_of_neg (by simp [h n List.mem_cons_self]), filter_notices_upTo hrest]
      rfl
  | 0, .file path :: rest, _ => rfl
  | allowed + 1, .file path :: rest, h => by
      have hrest : (notices (upTo limit root allowed rest)).filter Notice.isLimitReached = _ :=
        filter_notices_upTo h
      show (notices (upTo limit root allowed rest)).filter Notice.isLimitReached
        = if allowed + 1 < (files rest).length + 1 then _ else _
      rw [hrest]
      simp only [Nat.add_lt_add_iff_right]

end Visit

/-! ## 2. The notices of a walk -/

/-- Whether a notice is about a directory that a walk did not enter, or about its end. -/
def Notice.isAboutWalk : Notice → Bool
  | .pruned _ | .cannotList .. | .notDirectory _ | .limitReached .. => true
  | _ => false

theorem Visit.mem_notices {visits : List Visit} {n : Notice} :
    n ∈ notices visits ↔ .note n ∈ visits := by
  induction visits with
  | nil => simp [notices]
  | cons v rest ih =>
    cases v with
    | note m => simpa [notices] using or_congr_right ih
    | file path => simpa [notices] using ih

namespace Scope

variable {s : Scope}

/-- A walk itself reports what it left out and what it could not list. -/
theorem pruned_or_cannotList_of_visits {trail : List Text} {node : Node} {n : Notice}
    (h : n ∈ Visit.notices (s.visits trail node)) :
    (∃ path, n = .pruned path) ∨ ∃ path e, n = .cannotList path e := by
  induction node using Node.induct generalizing trail with
  | file content => cases h
  | link target => cases h
  | directory entries ih =>
    rw [visits] at h
    split at h
    next e _ =>
      obtain rfl := List.mem_singleton.mp h
      exact .inr ⟨_, _, rfl⟩
    next =>
      rw [Visit.mem_notices, List.mem_append, List.mem_append] at h
      rcases h with (h | h) | h
      · obtain ⟨e, -, he⟩ := List.mem_map.mp h
        obtain rfl := Visit.note.inj he
        exact .inl ⟨_, rfl⟩
      · obtain ⟨e, -, he⟩ := List.mem_map.mp h
        cases he
      · obtain ⟨found, hfound, h⟩ := List.mem_flatMap.mp h
        rw [(inOrder_perm _).mem_iff, below_eq, List.mem_map] at hfound
        obtain ⟨e, he, rfl⟩ := hfound
        exact ih e (List.mem_of_mem_filter he) (Visit.mem_notices.mpr h)

theorem isAboutWalk_of_visits {trail : List Text} {node : Node} {n : Notice}
    (h : n ∈ Visit.notices (s.visits trail node)) : n.isAboutWalk = true := by
  rcases pruned_or_cannotList_of_visits h with ⟨_, rfl⟩ | ⟨_, _, rfl⟩
  · rfl
  · rfl

theorem not_isLimitReached_of_visits {trail : List Text} {node : Node} {n : Notice}
    (h : n ∈ Visit.notices (s.visits trail node)) : n.isLimitReached = false := by
  rcases pruned_or_cannotList_of_visits h with ⟨_, rfl⟩ | ⟨_, _, rfl⟩
  · rfl
  · rfl

end Scope

theorem isAboutWalk_of_walk {disk : Disk} {settings : Settings} {limit : Option Int} {root : Text}
    {visits : List Visit} (h : walk disk settings limit root = .ok visits) {n : Notice}
    (hn : n ∈ Visit.notices visits) : n.isAboutWalk = true := by
  unfold walk at h
  split at h
  next =>
    obtain rfl := Except.ok.inj h
    obtain rfl := List.mem_singleton.mp hn
    rfl
  next entries _ =>
    cases hrules : settings.excludeRules with
    | error e => rw [hrules] at h; cases h
    | ok rules =>
      rw [hrules] at h
      obtain rfl := Except.ok.inj h
      unfold Visit.limited at hn
      split at hn
      next => exact Scope.isAboutWalk_of_visits hn
      next limit =>
        rcases Visit.mem_notices_upTo hn with hn | rfl
        · exact Scope.isAboutWalk_of_visits hn
        · rfl

theorem isAboutWalk_of_enumerate {disk : Disk} {settings : Settings} {limit : Option Int}
    {root : Text} {n : Notice} (h : n ∈ (enumerate disk settings limit root).notices) :
    n.isAboutWalk = true := by
  unfold enumerate at h
  split at h
  next => cases h
  next visits hwalk => exact isAboutWalk_of_walk hwalk h

/-! ## 3. The result of an enumeration -/

theorem enumerate_ok (disk : Disk) {settings : Settings} {rules : List Ignore.Rule}
    (hrules : settings.excludeRules = .ok rules) (limit : Option Int) (root : Text) :
    ∃ files, (enumerate disk settings limit root).result = .ok files := by
  unfold enumerate walk
  rw [hrules]
  cases disk.directory? (disk.absolute root) with
  | none => exact ⟨_, rfl⟩
  | some entries => exact ⟨_, rfl⟩

/-- Whatever the limit, what is enumerated is an eligible file. -/
theorem eligible_of_mem_enumerate {disk : Disk} {settings : Settings} {limit : Option Int}
    {root path : Text} {files : List Text} (hdisk : disk.wellFormed = true)
    (h : (enumerate disk settings limit root).result = .ok files) (hpath : path ∈ files) :
    ∃ rules entries rel, settings.excludeRules = .ok rules ∧
      disk.directory? (disk.absolute root) = some entries ∧
      (Scope.under disk settings rules root).Eligible [] (.directory entries) rel ∧
      path = (Scope.under disk settings rules root).pathOf rel := by
  unfold enumerate at h
  split at h
  next => cases h
  next visits hwalk =>
    obtain rfl := Except.ok.inj h
    unfold walk at hwalk
    split at hwalk
    next =>
      obtain rfl := Except.ok.inj hwalk
      cases hpath
    next entries hroot =>
      cases hrules : settings.excludeRules with
      | error e => rw [hrules] at hwalk; cases hwalk
      | ok rules =>
        rw [hrules] at hwalk
        obtain rfl := Except.ok.inj hwalk
        have hwf := Disk.wellFormed_of_directory? hdisk hroot
        obtain ⟨rel, hrel, hpath⟩ :=
          (Scope.mem_files_visits hwf).mp (Visit.mem_of_mem_files_limited hpath)
        exact ⟨rules, entries, rel, rfl, hroot, hrel, hpath⟩

/-- No character of an enumerated path has the code zero. -/
theorem zero_not_mem_of_enumerate {disk : Disk} {settings : Settings} {limit : Option Int}
    {root path : Text} {files : List Text} (hdisk : disk.wellFormed = true)
    (h : (enumerate disk settings limit root).result = .ok files) (hpath : path ∈ files) :
    '\x00' ∉ path := by
  obtain ⟨rules, entries, rel, -, hroot, hrel, rfl⟩ := eligible_of_mem_enumerate hdisk h hpath
  have hnames := hrel.isName (Disk.wellFormed_of_directory? hdisk hroot)
  exact Scope.zero_not_mem_pathOf (Disk.zero_not_mem_of_directory? hroot) hnames

end Marginalia
