/-!
# Tables

A table is a list of keys with their values, of which `List.lookup` finds the first with a given
key.

* `Table.set`: a value put under a key, in place of the one that was there.
* `Table.lookup_filter`, `Table.lookup_set`: what is found after entries have been kept by their
  keys, and after one has been set.
* `Table.nodup_keys_set`: setting keeps the keys of a table apart.
-/

namespace ModuleMap.Table

/-- The entries with a value put under a key, in place of the one that was there. -/
def set {κ α : Type} [BEq κ] (key : κ) (value : α) (entries : List (κ × α)) : List (κ × α) :=
  (key, value) :: entries.filter fun entry => !(entry.1 == key)

variable {κ α : Type} [BEq κ] [LawfulBEq κ]

/-- Keeping entries by their keys keeps or loses all that is found under a key. -/
theorem lookup_filter (keep : κ → Bool) (entries : List (κ × α)) (k : κ) :
    (entries.filter fun entry => keep entry.1).lookup k =
      if keep k then entries.lookup k else none := by
  induction entries with
  | nil => simp
  | cons entry entries ih =>
    obtain ⟨j, v⟩ := entry
    by_cases hjk : k = j
    · subst hjk
      cases h : keep k <;> simp [h, ih]
    · have hne : (k == j) = false := beq_eq_false_iff_ne.mpr hjk
      cases h : keep j <;> simp [List.lookup_cons, h, hne, ih]

/-- What is found after a value has been set. -/
theorem lookup_set (key : κ) (value : α) (entries : List (κ × α)) (k : κ) :
    (set key value entries).lookup k =
      if k == key then some value else entries.lookup k := by
  have h := lookup_filter (fun j => !(j == key)) entries k
  cases hk : k == key
  · simpa [set, List.lookup_cons, hk] using h
  · simp [set, List.lookup_cons, hk]

/-- Setting keeps the keys apart. -/
theorem nodup_keys_set {key : κ} {value : α} {entries : List (κ × α)}
    (h : (entries.map (·.1)).Nodup) : ((set key value entries).map (·.1)).Nodup := by
  rw [set, List.map_cons, List.nodup_cons]
  refine ⟨?_, h.sublist (List.filter_sublist.map _)⟩
  intro hmem
  obtain ⟨entry, hentry, heq⟩ := List.mem_map.mp hmem
  have hkept := (List.mem_filter.mp hentry).2
  simp [heq] at hkept

end ModuleMap.Table
