/-
Marginalia.Proofs.Disk.Reordered — the order in which directories are listed.

A directory is a list of entries, and the operating system may hand them out in
any order. `Node.Reordered` relates two trees that differ in nothing else: it
is generated by putting the entries of one directory in another order, at the
top or anywhere below. `Node.Reordered.directory` has all of it at once, for a
directory whose nodes are reordered themselves.

Under distinct names the order is of no account for what a path leads to
(`Disk.Reordered.sameResult_find`): where the one disk has a file or an error,
so has the other, and where it has a directory, the other has the directory
reordered. Links are followed by name, too.
-/
import Mathlib.Data.List.Forall2
import Marginalia.Proofs.Disk.Tree

namespace Marginalia

theorem eq_none_of_rel {α β : Type} {r : α → β → Prop} {x : Option α} {y : Option β}
    (h : Option.Rel r x y) (hx : x = none) : y = none := by
  subst hx
  cases h with
  | none => rfl

theorem exists_of_rel {α β : Type} {r : α → β → Prop} {x : Option α} {y : Option β} {a : α}
    (h : Option.Rel r x y) (hx : x = some a) : ∃ b, y = some b ∧ r a b := by
  subst hx
  cases h with
  | some hab => exact ⟨_, rfl, hab⟩

/-! ## 1. Trees -/

namespace Node

/-- Whether two trees differ in the order of the entries of their directories only. -/
inductive Reordered : Node → Node → Prop where
  | refl (node : Node) : Reordered node node
  | here {a b : Directory} : a.Perm b → Reordered (.directory a) (.directory b)
  | entry {before after : Directory} {name : Text} {node node' : Node} : Reordered node node' →
      Reordered (.directory (before ++ (name, node) :: after))
        (.directory (before ++ (name, node') :: after))
  | trans {a b c : Node} : Reordered a b → Reordered b c → Reordered a c

namespace Reordered

/-- The nodes of a directory may be reordered one by one, and then the directory itself. -/
theorem directory {a b c : Directory}
    (hnodes : List.Forall₂ (fun e e' => e.1 = e'.1 ∧ Reordered e.2 e'.2) a b) (hperm : b.Perm c) :
    Reordered (.directory a) (.directory c) := by
  suffices h : ∀ before : Directory,
      Reordered (.directory (before ++ a)) (.directory (before ++ b)) from
    (h []).trans (.here hperm)
  clear hperm
  induction hnodes with
  | nil => exact fun before => .refl _
  | @cons e e' rest rest' hnode _ ih =>
    intro before
    obtain ⟨name, node⟩ := e
    obtain ⟨name', node'⟩ := e'
    obtain ⟨rfl, hnode⟩ := hnode
    have hrest := ih (before ++ [(name, node')])
    simp only [List.append_assoc, List.singleton_append] at hrest
    exact (Reordered.entry hnode).trans hrest

variable {node node' : Node}

/-- Files and links stay, and directories stay directories. -/
theorem eq_or_directory (h : Reordered node node') :
    node = node' ∨ ∃ a b, node = .directory a ∧ node' = .directory b := by
  induction h with
  | refl => exact .inl rfl
  | here => exact .inr ⟨_, _, rfl, rfl⟩
  | entry => exact .inr ⟨_, _, rfl, rfl⟩
  | trans _ _ ih ih' =>
    rcases ih with rfl | ⟨a, b, rfl, rfl⟩
    · exact ih'
    · rcases ih' with rfl | ⟨c, d, -, rfl⟩
      · exact .inr ⟨_, _, rfl, rfl⟩
      · exact .inr ⟨_, _, rfl, rfl⟩

theorem exists_of_directory {a : Directory} (h : Reordered (.directory a) node') :
    ∃ b, node' = .directory b := by
  rcases h.eq_or_directory with rfl | ⟨_, b, -, rfl⟩
  · exact ⟨a, rfl⟩
  · exact ⟨b, rfl⟩

theorem eq_of_file {content : List UInt8} (h : Reordered (.file content) node') :
    node' = .file content := by
  rcases h.eq_or_directory with rfl | ⟨_, _, hfile, -⟩
  · rfl
  · cases hfile

theorem eq_of_link {target : Text} (h : Reordered (.link target) node') :
    node' = .link target := by
  rcases h.eq_or_directory with rfl | ⟨_, _, hlink, -⟩
  · rfl
  · cases hlink

theorem wellFormed_eq (h : Reordered node node') : node.wellFormed = node'.wellFormed := by
  induction h with
  | refl => rfl
  | here hperm =>
    rw [Bool.eq_iff_iff, wellFormed_directory, wellFormed_directory, (hperm.map _).nodup_iff]
    simp only [hperm.mem_iff]
  | entry _ ih =>
    rw [Bool.eq_iff_iff, wellFormed_directory, wellFormed_directory]
    simp only [List.map_append, List.map_cons, List.forall_mem_append, List.forall_mem_cons, ih]
  | trans _ _ ih ih' => rw [ih, ih']

theorem lookup_append_cons (before after : Directory) (name key : Text) (node : Node) :
    (before ++ (name, node) :: after).lookup key
      = (before.lookup key).or (if key = name then some node else after.lookup key) := by
  rw [List.lookup_append, List.lookup_cons]
  by_cases hkey : key = name
  · simp [hkey]
  · simp [hkey, beq_false_of_ne hkey]

/-- A name leads to a node in the one tree and to the node reordered in the other. -/
theorem at?_singleton (h : Reordered node node') (hwf : node.wellFormed = true) (name : Text) :
    Option.Rel Reordered (node.at? [name]) (node'.at? [name]) := by
  induction h with
  | refl node =>
    cases node.at? [name] with
    | none => exact .none
    | some leaf => exact .some (.refl leaf)
  | @here a b hperm =>
    have hnodup := (wellFormed_directory.mp hwf).1
    have hlookup : a.lookup name = b.lookup name := by
      ext leaf
      rw [lookup_eq_some_iff hnodup, lookup_eq_some_iff ((hperm.map _).nodup_iff.mp hnodup),
        hperm.mem_iff]
    rw [Node.at?_singleton, Node.at?_singleton, hlookup]
    cases b.lookup name with
    | none => exact .none
    | some leaf => exact .some (.refl leaf)
  | @entry before after first node node' hnode _ =>
    rw [Node.at?_singleton, Node.at?_singleton, lookup_append_cons, lookup_append_cons]
    cases before.lookup name with
    | some leaf => exact .some (.refl leaf)
    | none =>
      by_cases hname : name = first
      · simp only [if_pos hname, Option.none_or]
        exact .some hnode
      · simp only [if_neg hname, Option.none_or]
        cases after.lookup name with
        | none => exact .none
        | some leaf => exact .some (.refl leaf)
  | @trans a b c hab _ ih ih' =>
    have hab' := ih hwf
    have hbc' := ih' (hab.wellFormed_eq ▸ hwf)
    generalize a.at? [name] = x, b.at? [name] = y, c.at? [name] = z at hab' hbc'
    cases hab' with
    | none => exact hbc'
    | some hxy =>
      cases hbc' with
      | some hyz => exact .some (hxy.trans hyz)

end Reordered

end Node

/-! ## 2. Paths -/

namespace Disk

/-- Whether two results are the same error, or nodes that differ in the order of entries only. -/
def SameResult : Except DiskError Node → Except DiskError Node → Prop
  | .ok node, .ok node' => node.Reordered node'
  | .error e, .error e' => e = e'
  | _, _ => False

/-- Whether two lists of directories differ in the order of entries only. -/
abbrev SameTrail : List Directory → List Directory → Prop :=
  List.Forall₂ fun a b => Node.Reordered (.directory a) (.directory b)

section

variable {trail trail' : List Directory}

theorem SameTrail.headD (h : SameTrail trail trail') :
    Node.Reordered (.directory (trail.headD [])) (.directory (trail'.headD [])) := by
  cases h with
  | nil => exact .refl _
  | cons hhead _ => exact hhead

theorem SameTrail.above (h : SameTrail trail trail') :
    SameTrail (if trail.length ≤ 1 then trail else trail.tail)
      (if trail'.length ≤ 1 then trail' else trail'.tail) := by
  rw [← h.length_eq]
  split
  next => exact h
  next =>
    cases h with
    | nil => exact .nil
    | cons _ htail => exact htail

/-- What is stored under a name in the directory that was reached. -/
theorem SameTrail.lookup_rel (h : SameTrail trail trail')
    (hwf : ∀ entries ∈ trail, (Node.directory entries).wellFormed = true) (name : Text) :
    Option.Rel Node.Reordered ((trail.headD []).lookup name) ((trail'.headD []).lookup name) := by
  have hat := h.headD.at?_singleton (wellFormed_headD hwf) name
  rwa [Node.at?_singleton, Node.at?_singleton] at hat

end

/-- Following names leads to the same place. -/
theorem sameResult_follow {root root' : Directory}
    (hroot : Node.Reordered (.directory root) (.directory root'))
    (hwf : (Node.directory root).wellFormed = true) {links : Nat} {trail : List Directory}
    {todo : List Text} (htrail : ∀ entries ∈ trail, (Node.directory entries).wellFormed = true)
    {trail' : List Directory} (h : SameTrail trail trail') :
    SameResult (follow root links trail todo) (follow root' links trail' todo) := by
  fun_induction follow root links trail todo generalizing trail' with
  | case1 links trail =>
    rw [follow]
    exact h.headD
  | case2 links trail name rest hskip ih =>
    rw [follow, if_pos hskip]
    exact ih htrail h
  | case3 links trail rest hskip ih =>
    rw [follow, if_neg hskip, if_pos rfl]
    refine ih (fun entries he => ?_) h.above
    split at he
    · exact htrail entries he
    · exact htrail entries (List.mem_of_mem_tail he)
  | case4 links trail name rest hskip hup hlong =>
    rw [follow, if_neg hskip, if_neg hup, if_pos hlong]
    rfl
  | case5 links trail name rest hskip hup hlong hnone =>
    rw [follow, if_neg hskip, if_neg hup, if_neg hlong, eq_none_of_rel (h.lookup_rel htrail name) hnone]
    rfl
  | case6 links trail name rest hskip hup hlong entries hsome ih =>
    obtain ⟨_, hfound, hnode⟩ := exists_of_rel (h.lookup_rel htrail name) hsome
    obtain ⟨entries', rfl⟩ := hnode.exists_of_directory
    rw [follow, if_neg hskip, if_neg hup, if_neg hlong, hfound]
    refine ih (List.forall_mem_cons.mpr ⟨?_, htrail⟩) (.cons hnode h)
    exact ((Node.wellFormed_directory.mp (wellFormed_headD htrail)).2 _
      (Node.mem_of_lookup hsome)).2
  | case7 links trail name rest hskip hup hlong content hsome hlast =>
    obtain ⟨_, hfound, hnode⟩ := exists_of_rel (h.lookup_rel htrail name) hsome
    obtain rfl := hnode.eq_of_file
    rw [follow, if_neg hskip, if_neg hup, if_neg hlong, hfound]
    simp only [if_pos hlast]
    exact .refl _
  | case8 links trail name rest hskip hup hlong content hsome hlast =>
    obtain ⟨_, hfound, hnode⟩ := exists_of_rel (h.lookup_rel htrail name) hsome
    obtain rfl := hnode.eq_of_file
    rw [follow, if_neg hskip, if_neg hup, if_neg hlong, hfound]
    simp only [if_neg hlast]
    rfl
  | case9 trail name rest hskip hup hlong target hsome =>
    obtain ⟨_, hfound, hnode⟩ := exists_of_rel (h.lookup_rel htrail name) hsome
    obtain rfl := hnode.eq_of_link
    rw [follow, if_neg hskip, if_neg hup, if_neg hlong, hfound]
    rfl
  | case10 trail name rest hskip hup hlong target hsome links ih =>
    obtain ⟨_, hfound, hnode⟩ := exists_of_rel (h.lookup_rel htrail name) hsome
    obtain rfl := hnode.eq_of_link
    rw [follow, if_neg hskip, if_neg hup, if_neg hlong, hfound]
    refine ih (fun entries he => ?_) ?_
    · split at he
      · rwa [List.mem_singleton.mp he]
      · exact htrail entries he
    · split
      · exact .cons hroot .nil
      · exact h

/-! ## 3. Disks -/

/-- Whether two disks differ in the order of the entries of their directories only. -/
structure Reordered (disk disk' : Disk) : Prop where
  root : Node.Reordered (.directory disk.root) (.directory disk'.root)
  cwd_eq : disk'.cwd = disk.cwd
  denied_eq : disk'.denied = disk.denied

namespace Reordered

variable {disk disk' : Disk}

theorem absolute_eq (h : disk.Reordered disk') (path : Text) :
    disk'.absolute path = disk.absolute path := by
  rw [absolute, absolute, h.cwd_eq]

/-- A path leads to the same place. -/
theorem sameResult_find (h : disk.Reordered disk') (hdisk : disk.wellFormed = true) (path : Text) :
    SameResult (disk.find path) (disk'.find path) := by
  unfold find
  split
  next => rfl
  next =>
    split
    next => rfl
    next =>
      split
      next => rfl
      next =>
        rw [h.cwd_eq]
        refine sameResult_follow h.root hdisk (fun entries he => ?_) (.cons h.root .nil)
        rwa [List.mem_singleton.mp he]

/-- Whatever the order of entries, a path leads to a directory or does not. -/
theorem directory?_rel (h : disk.Reordered disk') (hdisk : disk.wellFormed = true) (path : Text) :
    Option.Rel (fun a b => Node.Reordered (.directory a) (.directory b)) (disk.directory? path)
      (disk'.directory? path) := by
  have hfind := h.sameResult_find hdisk path
  unfold directory?
  generalize disk.find path = found, disk'.find path = found' at hfind ⊢
  cases found with
  | error e =>
    cases found' with
    | error e' => exact .none
    | ok node' => exact hfind.elim
  | ok node =>
    cases found' with
    | error e' => exact hfind.elim
    | ok node' =>
      rcases Node.Reordered.eq_or_directory hfind with rfl | ⟨a, b, rfl, rfl⟩
      · cases node with
        | directory entries => exact .some (.refl _)
        | file => exact .none
        | link => exact .none
      · exact .some hfind

theorem isDirectory_eq (h : disk.Reordered disk') (hdisk : disk.wellFormed = true) (path : Text) :
    disk'.isDirectory path = disk.isDirectory path := by
  have hrel := h.directory?_rel hdisk path
  unfold isDirectory
  generalize disk.directory? path = found, disk'.directory? path = found' at hrel ⊢
  cases hrel with
  | none => rfl
  | some => rfl

theorem listError?_eq (h : disk.Reordered disk') (hdisk : disk.wellFormed = true) (path : Text) :
    disk'.listError? path = disk.listError? path := by
  have hfind := h.sameResult_find hdisk path
  have hdenies : disk'.denies path = disk.denies path := by
    rw [denies, denies, h.denied_eq, h.absolute_eq]
  unfold listError?
  rw [hdenies]
  generalize disk.find path = found, disk'.find path = found' at hfind ⊢
  cases found with
  | error e =>
    cases found' with
    | error e' => rw [show e = e' from hfind]
    | ok node' => exact hfind.elim
  | ok node =>
    cases found' with
    | error e' => exact hfind.elim
    | ok node' => rfl

end Reordered

end Disk

end Marginalia
