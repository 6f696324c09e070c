/-
Marginalia.Workspace.Session — what happens to a workspace in the course of
time.

* A `Request` is what the owner of a workspace may ask of it. Some requests
  are answered without a refresh: roots that are there already or are not there
  at all, settings that are in force (`Request.refreshes`).
* A `Deed` is anything that can happen: a request, a refresh of the index for
  other roots and settings, a change of who watches, a change of the disk.
  Deeds can also be done while a refresh lies between enumeration and scan, and
  refreshes that are among them can be amid deeds in turn; a refresh is
  superseded if a refresh is among the deeds done meanwhile.

A fault ends a request or a deed, and the workspace goes on as it was left.
-/
import Marginalia.Workspace.Refresh

namespace Marginalia

/-- What the owner of a workspace may ask of it. -/
inductive Request where
  | refresh
  | addRoot (root : Text)
  | removeRoot (root : Text)
  | setRoots (roots : List Text)
  | updateSettings (settings : Settings)
  deriving Repr, DecidableEq

/-- Something that happens to a workspace. -/
inductive Deed where
  | request (request : Request)
  /-- The index is refreshed for other roots and settings than the workspace's. -/
  | refreshIndex (roots : List Text) (settings : Settings)
  /-- The index is refreshed, and deeds are done before the scan. -/
  | refreshAmid (meanwhile : List Deed) (roots : List Text) (settings : Settings)
  /-- The workspace is refreshed, and the index is refreshed for newer roots and settings before
  the scan; a fault of the newer refresh ends both. -/
  | raceRefresh (newerRoots : List Text) (newerSettings : Settings)
  | watch (change : Watching)
  /-- The disk is another one from now on. -/
  | change (disk : Disk)

namespace Workspace

/-! ## 1. Requests -/

/-- Whether a request leads to a refresh. -/
def leadsToRefresh (w : Workspace) : Request → Bool
  | .refresh => true
  | .addRoot root => !w.roots.contains (w.disk.absolute root)
  | .removeRoot root => w.roots.contains (w.disk.absolute root)
  | .setRoots _ => true
  | .updateSettings settings => settings ≠ w.settings

/-- Does what is asked for; the answer is whether a refresh took effect. -/
def answer : Request → Change Bool
  | .refresh => refresh
  | .addRoot root => addRoot root
  | .removeRoot root => removeRoot root
  | .setRoots roots => setRoots roots
  | .updateSettings settings => updateSettings settings

/-- The workspace after requests. -/
def afterRequests (w : Workspace) (requests : List Request) : Workspace :=
  requests.foldl (fun w request => (w.answer request).1) w

/-! ## 2. Deeds -/

mutual

/-- The workspace after a deed. -/
def afterDeed (w : Workspace) : Deed → Workspace
  | .request request => (w.answer request).1
  | .refreshIndex roots settings => (w.refreshIndexFor roots settings).1
  | .refreshAmid meanwhile roots settings =>
    (w.refreshIndex nestedRefresh (fun w => (w.afterDeeds meanwhile, .ok ())) roots settings).1
  | .raceRefresh newerRoots newerSettings => (w.raceRefresh newerRoots newerSettings).1
  | .watch change => w.watch change
  | .change disk => { w with disk }

/-- The workspace after deeds. -/
def afterDeeds (w : Workspace) : List Deed → Workspace
  | [] => w
  | deed :: rest => (w.afterDeed deed).afterDeeds rest

end

end Workspace

end Marginalia
