/-
Marginalia.Proofs.Disk.Tree — directory trees.

A directory is a list of names with nodes, so nothing keeps it from holding a
name twice, or something that is no name. `Node.wellFormed` is what a file
system promises: names are not empty, hold no slash and no character with the
code zero, are not `.` or `..`, and differ within a directory.

* `Node.at?` follows names from a node and no links. In a well-formed tree the
  names lead to one place.
* `Node.induct` is induction over a tree.
* Whatever directory a path leads to on a well-formed disk, links followed, is
  well formed (`wellFormed_of_directory?`).
-/
import Marginalia.Disk.Basic

namespace Marginalia

/-! ## 1. Well-formed trees -/

/-- Whether a directory may hold a name. -/
def isName (name : Text) : Bool :=
  !name.isEmpty && !name.contains '/' && !name.contains '\x00' && name ≠ Path.here
    && name ≠ Path.above

theorem ne_nil_of_isName {name : Text} (h : isName name = true) : name ≠ [] := by
  rintro rfl
  cases h

theorem slash_not_mem_of_isName {name : Text} (h : isName name = true) : '/' ∉ name := by
  intro hmem
  simp [isName, hmem] at h

theorem zero_not_mem_of_isName {name : Text} (h : isName name = true) : '\x00' ∉ name := by
  intro hmem
  simp [isName, hmem] at h

namespace Node

mutual

/-- Whether the names below a node are names, and differ within each directory. -/
def wellFormed : Node → Bool
  | .directory entries => entriesWellFormed entries
  | _ => true

/-- Whether entries have names that differ, and well-formed nodes. -/
def entriesWellFormed : List (Text × Node) → Bool
  | [] => true
  | (name, node) :: rest =>
    isName name && !(rest.map (·.1)).contains name && node.wellFormed && entriesWellFormed rest

end

theorem entriesWellFormed_iff : ∀ entries : Directory, entriesWellFormed entries = true ↔
    (entries.map (·.1)).Nodup ∧ ∀ e ∈ entries, isName e.1 = true ∧ e.2.wellFormed = true
  | [] => by simp [entriesWellFormed]
  | (name, node) :: rest => by
      simp only [entriesWellFormed, Bool.and_eq_true, Bool.not_eq_true', List.contains_eq_mem,
        decide_eq_false_iff_not, entriesWellFormed_iff rest, List.map_cons, List.nodup_cons,
        List.forall_mem_cons]
      constructor
      · rintro ⟨⟨⟨hname, hnew⟩, hnode⟩, hnodup, hrest⟩
        exact ⟨⟨hnew, hnodup⟩, ⟨hname, hnode⟩, hrest⟩
      · rintro ⟨⟨hnew, hnodup⟩, ⟨hname, hnode⟩, hrest⟩
        exact ⟨⟨⟨hname, hnew⟩, hnode⟩, hnodup, hrest⟩

theorem wellFormed_directory {entries : Directory} :
    (Node.directory entries).wellFormed = true ↔
      (entries.map (·.1)).Nodup ∧ ∀ e ∈ entries, isName e.1 = true ∧ e.2.wellFormed = true := by
  rw [wellFormed, entriesWellFormed_iff]

/-- Induction over a tree: what is to be shown of a directory may be used for all that it holds. -/
theorem induct {motive : Node → Prop} (file : ∀ content, motive (.file content))
    (link : ∀ target, motive (.link target))
    (directory : ∀ entries : Directory, (∀ e ∈ entries, motive e.2) → motive (.directory entries)) :
    ∀ node, motive node
  | .file content => file content
  | .link target => link target
  | .directory entries => directory entries fun e he => by
      have hlist : sizeOf e < sizeOf entries := List.sizeOf_lt_of_mem he
      have hpair : sizeOf e.2 < sizeOf e := by
        obtain ⟨name, node⟩ := e
        simp only [Prod.mk.sizeOf_spec]
        omega
      have hnode : sizeOf e.2 < sizeOf (Node.directory entries) := by
        simp only [Node.directory.sizeOf_spec]
        omega
      exact induct file link directory e.2
termination_by node => sizeOf node

/-! ## 2. Following names -/

/-- What names lead to from a node, if no links are followed. -/
def at? : Node → List Text → Option Node
  | node, [] => some node
  | .directory entries, name :: rest => (entries.lookup name).bind (at? · rest)
  | .file _, _ :: _ => none
  | .link _, _ :: _ => none

@[simp] theorem at?_nil (node : Node) : node.at? [] = some node := by
  cases node <;> rfl

theorem at?_cons (entries : Directory) (name : Text) (rest : List Text) :
    (Node.directory entries).at? (name :: rest) = (entries.lookup name).bind (·.at? rest) := rfl

theorem at?_cons_of_lookup {entries : Directory} {name : Text} {node : Node}
    (h : entries.lookup name = some node) (rest : List Text) :
    (Node.directory entries).at? (name :: rest) = node.at? rest := by
  rw [at?_cons, h, Option.bind_some]

theorem at?_singleton (entries : Directory) (name : Text) :
    (Node.directory entries).at? [name] = entries.lookup name := by
  rw [at?_cons]
  cases entries.lookup name <;> simp

theorem mem_of_lookup {entries : Directory} {name : Text} {node : Node}
    (h : entries.lookup name = some node) : (name, node) ∈ entries := by
  obtain ⟨first, second, rfl, -⟩ := List.lookup_eq_some_iff.mp h
  simp

/-- In a well-formed directory a name leads to what is stored under it. -/
theorem lookup_eq_some_iff {entries : Directory} (h : (entries.map (·.1)).Nodup) {name : Text}
    {node : Node} : entries.lookup name = some node ↔ (name, node) ∈ entries := by
  refine ⟨mem_of_lookup, fun hmem => ?_⟩
  obtain ⟨first, second, rfl⟩ := List.append_of_mem hmem
  refine List.lookup_eq_some_iff.mpr ⟨first, second, rfl, fun e he => ?_⟩
  rw [List.map_append, List.map_cons, List.nodup_append] at h
  have hne := h.2.2 e.1 (List.mem_map_of_mem he) name List.mem_cons_self
  simpa using Ne.symm hne

/-- Names that lead somewhere in a well-formed tree are names. -/
theorem isName_of_at? : ∀ {names : List Text} {node leaf : Node}, node.wellFormed = true →
    node.at? names = some leaf → ∀ name ∈ names, isName name = true
  | [], _, _, _, _ => by simp
  | name :: rest, .file _, _, _, h => by simp [at?] at h
  | name :: rest, .link _, _, _, h => by simp [at?] at h
  | name :: rest, .directory entries, leaf, hwf, h => by
      rw [at?_cons] at h
      obtain ⟨node, hnode, hrest⟩ := Option.bind_eq_some_iff.mp h
      obtain ⟨hname, hnwf⟩ := (wellFormed_directory.mp hwf).2 _ (mem_of_lookup hnode)
      rintro x hx
      rcases List.mem_cons.mp hx with rfl | hx
      · exact hname
      · exact isName_of_at? hnwf hrest x hx

end Node

/-! ## 3. Disks -/

namespace Disk

/-- Whether the tree of a disk is well formed. -/
def wellFormed (disk : Disk) : Bool := (Node.directory disk.root).wellFormed

theorem wellFormed_headD {trail : List Directory}
    (h : ∀ entries ∈ trail, (Node.directory entries).wellFormed = true) :
    (Node.directory (trail.headD [])).wellFormed = true := by
  cases trail with
  | nil => rfl
  | cons entries rest => exact h entries List.mem_cons_self

/-- Following a path stays in well-formed directories. -/
theorem wellFormed_of_follow {root : Directory} {links : Nat} {trail : List Directory}
    {todo : List Text} {node : Node} (hroot : (Node.directory root).wellFormed = true)
    (htrail : ∀ entries ∈ trail, (Node.directory entries).wellFormed = true)
    (h : follow root links trail todo = .ok node) : node.wellFormed = true := by
  fun_induction follow root links trail todo with
  | case1 links trail =>
    obtain rfl := Except.ok.inj h
    exact wellFormed_headD htrail
  | case2 links trail name rest _ ih => exact ih htrail h
  | case3 links trail rest _ ih =>
    refine ih (fun entries he => ?_) h
    split at he
    · exact htrail entries he
    · exact htrail entries (List.mem_of_mem_tail he)
  | case4 => cases h
  | case5 => cases h
  | case6 links trail name rest _ _ _ entries hlookup ih =>
    refine ih (fun below hb => ?_) h
    rcases List.mem_cons.mp hb with rfl | hb
    · exact ((Node.wellFormed_directory.mp (wellFormed_headD htrail)).2 _
        (Node.mem_of_lookup hlookup)).2
    · exact htrail below hb
  | case7 =>
    obtain rfl := Except.ok.inj h
    rfl
  | case8 => cases h
  | case9 => cases h
  | case10 trail name rest _ _ _ target _ links ih =>
    refine ih (fun entries he => ?_) h
    split at he
    · rwa [List.mem_singleton.mp he]
    · exact htrail entries he

theorem find_eq_ok {disk : Disk} {path : Text} {node : Node} (h : disk.find path = .ok node) :
    '\x00' ∉ path ∧
      follow disk.root maxLinks [disk.root] ((Path.join disk.cwd path).splitOn '/') = .ok node := by
  unfold find at h
  split at h
  next => cases h
  next =>
    split at h
    next => cases h
    next =>
      split at h
      next => cases h
      next hzero => exact ⟨by simpa using hzero, h⟩

/-- The directory that a path leads to, and that it leads there. -/
theorem directory?_eq_some {disk : Disk} {path : Text} {entries : Directory}
    (h : disk.directory? path = some entries) : disk.find path = .ok (.directory entries) := by
  unfold directory? at h
  split at h
  next hfind =>
    obtain rfl := Option.some.inj h
    exact hfind
  next => cases h

theorem wellFormed_of_directory? {disk : Disk} (hdisk : disk.wellFormed = true) {path : Text}
    {entries : Directory} (h : disk.directory? path = some entries) :
    (Node.directory entries).wellFormed = true := by
  obtain ⟨-, hfollow⟩ := find_eq_ok (directory?_eq_some h)
  refine wellFormed_of_follow hdisk (fun entries he => ?_) hfollow
  rwa [List.mem_singleton.mp he]

theorem zero_not_mem_of_directory? {disk : Disk} {path : Text} {entries : Directory}
    (h : disk.directory? path = some entries) : '\x00' ∉ path :=
  (find_eq_ok (directory?_eq_some h)).1

end Disk

end Marginalia
