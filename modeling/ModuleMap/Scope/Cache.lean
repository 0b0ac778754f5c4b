import ModuleMap.Manifest
import ModuleMap.Path.Basic
import ModuleMap.Table

/-!
# The cache of manifests

The cache records for manifest paths what was found there: a manifest, or that there is none.  Paths
with the same components share an entry.

* `ScopeCache.empty`: the cache that nothing is recorded in.
* `ScopeCache.get?`, `ScopeCache.insert`: looking up and recording, with `get?_insert` for what is
  found afterwards.
* `ScopeCache.stats`: how many entries there are of each kind.
-/

namespace ModuleMap

/-- Recorded manifests; `none` records that there is no manifest. -/
structure ScopeCache where
  entries : List (Path.Key × Option Manifest) := []
  /-- No key has two entries. -/
  nodup_keys : (entries.map (·.1)).Nodup := by simp

/-- How many entries a cache has. -/
structure ScopeCacheStats where
  entries : Nat
  /-- Entries that hold a manifest. -/
  manifests : Nat
  /-- Entries that record an absence. -/
  missing : Nat
  deriving DecidableEq, Repr

namespace ScopeCache

/-- The cache with nothing recorded, also what is left of a cache that is cleared. -/
def empty : ScopeCache := {}

/-- What is recorded for a path, if anything is. -/
def get? (c : ScopeCache) (p : Path) : Option (Option Manifest) :=
  c.entries.lookup p.key

/-- The cache with what was found at a path, in place of what was recorded for it before. -/
def insert (c : ScopeCache) (p : Path) (found : Option Manifest) : ScopeCache where
  entries := Table.set p.key found c.entries
  nodup_keys := Table.nodup_keys_set c.nodup_keys

@[simp] theorem get?_empty (p : Path) : get? empty p = none := rfl

/-- Recording changes what is found for the paths with these components, and for no other. -/
theorem get?_insert (c : ScopeCache) (p q : Path) (found : Option Manifest) :
    (c.insert p found).get? q =
      if q.components = p.components then some found else c.get? q := by
  have h := Table.lookup_set p.key found c.entries q.key
  simpa [get?, insert, Path.key_eq_key_iff] using h

/-- The numbers of entries. -/
def stats (c : ScopeCache) : ScopeCacheStats :=
  let manifests := c.entries.countP (·.2.isSome)
  ⟨c.entries.length, manifests, c.entries.length - manifests⟩

end ScopeCache

end ModuleMap
