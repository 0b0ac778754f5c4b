import ModuleMap.Fault
import ModuleMap.FileTree.Read
import ModuleMap.Scope.Cache

/-!
# Package scopes

The scope of a file is the nearest directory above it that has a `package.json`.  The walk never
crosses a `node_modules` directory: a file of a dependency without a manifest of its own has no
scope.

* `ScopeCache.readManifest`: one manifest, through the cache.
* `ScopeCache.search`: the first of a list of directories that has a manifest.
* `ScopeCache.findScope`: the scope of a file.

Each gives its answer together with the cache it leaves, also where it fails.
-/

namespace ModuleMap

/-- The file name of manifests. -/
def manifestName : Path := .ofText "package.json"

/-- The name of the directories that bound the walk. -/
def boundaryName : Segment := Text.encode "node_modules".toList

/-- A directory with a manifest. -/
structure PackageScope where
  directory : Path
  manifest : Manifest
  deriving Repr

/-- The path of the manifest of a scope. -/
def PackageScope.manifestPath (s : PackageScope) : Path :=
  s.directory.join manifestName

namespace ScopeCache

/-- What is in the tree at the path of a manifest. -/
def loadManifest (t : FileTree) (p : Path) : Except Fault (Option Manifest) :=
  match t.readOptional p with
  | .error e => .error (.manifestRead p e)
  | .ok none => .ok none
  | .ok (some text) =>
    match Manifest.parse text with
    | .ok m => .ok (some m)
    | .error e => .error (.manifestParse p e)

/-- What is at the path of a manifest, as far as it is not recorded already; what is found is
recorded, a failure is not. -/
def readManifest (c : ScopeCache) (t : FileTree) (p : Path) :
    Except Fault (Option Manifest) × ScopeCache :=
  match c.get? p with
  | some found => (.ok found, c)
  | none =>
    match loadManifest t p with
    | .ok found => (.ok found, c.insert p found)
    | .error f => (.error f, c)

/-- The first of the directories that has a manifest; a boundary ends the search. -/
def search (t : FileTree) : ScopeCache → List Path → Except Fault (Option PackageScope) × ScopeCache
  | c, [] => (.ok none, c)
  | c, d :: ds =>
    if d.fileName? = some boundaryName then (.ok none, c)
    else
      match c.readManifest t (d.join manifestName) with
      | (.ok (some m), c) => (.ok (some ⟨d, m⟩), c)
      | (.ok none, c) => search t c ds
      | (.error f, c) => (.error f, c)

/-- The scope of a file. -/
def findScope (c : ScopeCache) (t : FileTree) (file : Path) :
    Except Fault (Option PackageScope) × ScopeCache :=
  match t.resolve file with
  | .ok start => search t c start.properAncestors
  | .error e => (.error (.io e), c)

end ScopeCache

end ModuleMap
