import Mathlib.Data.Finset.Card
import Mathlib.Data.Finset.Image
import ModuleMap.Proofs.Path.Ancestors
import ModuleMap.Scope.Cache

/-!
# What a cache has recorded

The owner of a cache records what was found at paths, and clears the cache now and then.  What the
cache then holds is said by the records that were made since: the latest one counts, and paths with
the same components share it.

Entries are counted with their keys, of which a table has each but once.  So the numbers of entries
are numbers of keys, and how often a path was recorded, under which spellings and with what before
the last time, does not matter.

* `CacheEdit`, `ScopeCache.edited`: caches as their owner makes them.
* `ScopeCache.records`, `ScopeCache.lastRecord?`, `ScopeCache.recordedKeys`: what was recorded since
  the cache was cleared, and under which components.
* `Table.card_keys`, `Table.countP_eq_card`: entries counted by their keys.
* `ScopeCache.get?_edited`, `ScopeCache.stats_edited`: what is found in a cache, and how much.
* `ScopeCache.edited_holds_latest`: both together.
-/

namespace ModuleMap

/-! ## Entries and keys -/

namespace Table

variable {κ α : Type} [DecidableEq κ] {entries : List (κ × α)}

/-- The keys of a table. -/
def keys (entries : List (κ × α)) : Finset κ :=
  (entries.map (·.1)).toFinset

theorem keys_cons (entry : κ × α) (entries : List (κ × α)) :
    keys (entry :: entries) = insert entry.1 (keys entries) :=
  List.toFinset_cons

/-- A table has as many entries as keys. -/
theorem card_keys (h : (entries.map (·.1)).Nodup) : (keys entries).card = entries.length := by
  rw [keys, List.toFinset_card_of_nodup h, List.length_map]

variable [BEq κ] [LawfulBEq κ]

theorem keys_set (key : κ) (value : α) (entries : List (κ × α)) :
    keys (set key value entries) = insert key (keys entries) := by
  ext k
  by_cases hk : k = key
  · simp [set, keys, hk]
  · simp [set, keys, hk]

/-- The entries with values of a kind are as many as the keys under which such a value is found. -/
theorem countP_eq_card (h : (entries.map (·.1)).Nodup) (kind : α → Bool) :
    entries.countP (fun entry => kind entry.2) =
      ((keys entries).filter fun k => (entries.lookup k).any kind).card := by
  induction entries with
  | nil => rfl
  | cons entry entries ih =>
    obtain ⟨key, value⟩ := entry
    rw [List.map_cons, List.nodup_cons] at h
    have hnew : key ∉ keys entries := by
      rw [keys, List.mem_toFinset]
      exact h.1
    -- The first entry hides none of the others.
    have hothers : ((keys entries).filter fun k => (((key, value) :: entries).lookup k).any kind) =
        (keys entries).filter fun k => (entries.lookup k).any kind := by
      refine Finset.filter_congr fun k hk => ?_
      have hne : (k == key) = false := beq_eq_false_iff_ne.mpr fun heq => hnew (heq ▸ hk)
      rw [List.lookup_cons, hne]
    rw [keys_cons, Finset.filter_insert, hothers, List.countP_cons, ih h.2]
    have hfirst : ((key, value) :: entries).lookup key = some value := by simp
    rw [hfirst, Option.any_some]
    cases hkind : kind value with
    | true =>
      rw [if_pos rfl, if_pos rfl, Finset.card_insert_of_notMem]
      exact fun hmem => hnew (Finset.mem_of_mem_filter key hmem)
    | false => rfl

end Table

/-! ## Records -/

/-- What the owner of a cache does with it. -/
inductive CacheEdit where
  /-- What was found at a path is recorded. -/
  | insert (p : Path) (found : Option Manifest)
  /-- All that was recorded is forgotten. -/
  | clear

/-- The path and what was found there, if it is recorded. -/
def CacheEdit.record? : CacheEdit → Option (Path × Option Manifest)
  | insert p found => some (p, found)
  | clear => none

namespace ScopeCache

/-- The cache after it was edited. -/
def edit (c : ScopeCache) : CacheEdit → ScopeCache
  | .insert p found => c.insert p found
  | .clear => .empty

/-- The cache after some edits, the first of which finds it empty. -/
def edited (edits : List CacheEdit) : ScopeCache :=
  edits.foldl edit .empty

/-- The records made since the cache was last cleared, the latest first. -/
def records (edits : List CacheEdit) : List (Path × Option Manifest) :=
  (edits.reverse.takeWhile (·.record?.isSome)).filterMap CacheEdit.record?

/-- What was recorded last for paths with the given components. -/
def lastRecord? (edits : List CacheEdit) (components : Path.Anchor × List Segment) :
    Option (Option Manifest) :=
  ((records edits).find? (·.1.components = components)).map (·.2)

/-- The components of the paths that something was recorded for. -/
def recordedKeys (edits : List CacheEdit) : Finset (Path.Anchor × List Segment) :=
  ((records edits).map (·.1.components)).toFinset

@[simp] theorem records_concat_insert (edits : List CacheEdit) (p : Path)
    (found : Option Manifest) :
    records (edits ++ [.insert p found]) = (p, found) :: records edits := by
  simp [records, CacheEdit.record?]

@[simp] theorem records_concat_clear (edits : List CacheEdit) :
    records (edits ++ [.clear]) = [] := by
  simp [records, CacheEdit.record?]

@[simp] theorem edited_concat (edits : List CacheEdit) (e : CacheEdit) :
    edited (edits ++ [e]) = (edited edits).edit e := by
  simp [edited]

theorem recordedKeys_concat_insert (edits : List CacheEdit) (p : Path)
    (found : Option Manifest) :
    recordedKeys (edits ++ [.insert p found]) =
      Insert.insert p.components (recordedKeys edits) := by
  rw [recordedKeys, records_concat_insert, List.map_cons, List.toFinset_cons]
  rfl

theorem lastRecord?_concat_insert (edits : List CacheEdit) (p : Path) (found : Option Manifest)
    (components : Path.Anchor × List Segment) :
    lastRecord? (edits ++ [.insert p found]) components =
      if components = p.components then some found else lastRecord? edits components := by
  unfold lastRecord?
  rw [records_concat_insert]
  by_cases h : components = p.components
  · rw [if_pos h, List.find?_cons_of_pos (by simp [h])]
    rfl
  · rw [if_neg h, List.find?_cons_of_neg (by simpa using Ne.symm h)]

/-! ## What is found -/

/-- What is found is the latest record for paths with these components. -/
theorem get?_edited (edits : List CacheEdit) (p : Path) :
    (edited edits).get? p = lastRecord? edits p.components := by
  induction edits using List.reverseRecOn with
  | nil => rfl
  | append_singleton edits e ih =>
    rw [edited_concat]
    cases e with
    | insert q found => rw [edit, get?_insert, lastRecord?_concat_insert, ih]
    | clear =>
      rw [edit, get?_empty, lastRecord?, records_concat_clear]
      rfl

/-! ## How much is found -/

/-- The components under which something of a kind was recorded last. -/
def recordedKeysOf (edits : List CacheEdit) (kind : Option Manifest → Bool) :
    Finset (Path.Anchor × List Segment) :=
  (recordedKeys edits).filter fun components => (lastRecord? edits components).any kind

/-- The key of the paths with the given components. -/
def keyOf (components : Path.Anchor × List Segment) : Path.Key :=
  (components.2.length, components)

theorem keyOf_injective : Function.Injective keyOf :=
  fun _ _ h => congrArg Prod.snd h

/-- The keys of the entries are those of the components that were recorded. -/
theorem keys_entries_edited (edits : List CacheEdit) :
    Table.keys (edited edits).entries = (recordedKeys edits).image keyOf := by
  induction edits using List.reverseRecOn with
  | nil => rfl
  | append_singleton edits e ih =>
    rw [edited_concat]
    cases e with
    | insert p found =>
      show Table.keys (Table.set p.key found _) = _
      rw [Table.keys_set, ih, recordedKeys_concat_insert, Finset.image_insert]
      rfl
    | clear =>
      rw [recordedKeys, records_concat_clear]
      rfl

/-- The entries of a kind are as many as the components under which such a record came last. -/
theorem countP_entries_edited (edits : List CacheEdit) (kind : Option Manifest → Bool) :
    (edited edits).entries.countP (fun entry => kind entry.2) =
      (recordedKeysOf edits kind).card := by
  rw [Table.countP_eq_card (edited edits).nodup_keys, keys_entries_edited, Finset.filter_image,
    Finset.card_image_of_injective _ keyOf_injective, recordedKeysOf]
  congr 1
  refine Finset.filter_congr fun components hmem => ?_
  obtain ⟨record, -, rfl⟩ := List.mem_map.mp (List.mem_toFinset.mp hmem)
  rw [← get?_edited]
  rfl

theorem length_entries_edited (edits : List CacheEdit) :
    (edited edits).entries.length = (recordedKeys edits).card := by
  rw [← Table.card_keys (edited edits).nodup_keys, keys_entries_edited,
    Finset.card_image_of_injective _ keyOf_injective]

/-- What is not an entry with a manifest is one with an absence. -/
theorem length_entries_eq (c : ScopeCache) :
    c.entries.length =
      c.entries.countP (fun entry => entry.2.isSome) +
        c.entries.countP (fun entry => entry.2.isNone) := by
  rw [List.length_eq_countP_add_countP fun entry : Path.Key × Option Manifest => entry.2.isSome]
  congr 2
  funext entry
  cases entry.2 <;> rfl

theorem stats_edited (edits : List CacheEdit) :
    (edited edits).stats = ⟨(recordedKeys edits).card, (recordedKeysOf edits (·.isSome)).card,
      (recordedKeysOf edits (·.isNone)).card⟩ := by
  have hentries := length_entries_edited edits
  have hmanifests := countP_entries_edited edits (·.isSome)
  have hmissing := countP_entries_edited edits (·.isNone)
  have hsplit := length_entries_eq (edited edits)
  unfold stats
  dsimp only
  rw [hmanifests, hmissing] at hsplit
  rw [hmanifests, hsplit, Nat.add_sub_cancel_left, ← hsplit, hentries]

/-- **A cache holds what was recorded last.**  After any edits, what is found for a path is the
latest record since the cache was cleared that was made for a path with the same components, and
nothing if there is none.  Such paths are both absolute or both relative, both or neither start with
`.`, and but for empty segments and `.` they have the same segments.  The entries are as many as the
components that were recorded, and each counts as what was recorded last; those of absences are the
ones that are left when those of manifests are taken away. -/
theorem edited_holds_latest (edits : List CacheEdit) :
    (∀ p, (edited edits).get? p = lastRecord? edits p.components) ∧
      (∀ p q : Path, p.components = q.components ↔
        p.isAbsolute = q.isAbsolute ∧
          (p.segments.head? = some [dot] ↔ q.segments.head? = some [dot]) ∧
          p.segments.filter (!Path.isVoid ·) = q.segments.filter (!Path.isVoid ·)) ∧
      (edited edits).stats.entries = (recordedKeys edits).card ∧
      (edited edits).stats.manifests = (recordedKeysOf edits (·.isSome)).card ∧
      (edited edits).stats.missing = (recordedKeysOf edits (·.isNone)).card ∧
      (edited edits).stats.manifests ≤ (edited edits).stats.entries := by
  have hstats := stats_edited edits
  refine ⟨get?_edited edits, fun p q => Path.components_eq_iff, congrArg (·.entries) hstats,
    congrArg (·.manifests) hstats, congrArg (·.missing) hstats, ?_⟩
  exact List.countP_le_length

end ScopeCache

end ModuleMap
