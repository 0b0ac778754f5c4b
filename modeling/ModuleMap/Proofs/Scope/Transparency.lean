import ModuleMap.Proofs.Scope.Footprint

/-!
# When a cache can be told from the tree

A cache does not keep spellings apart: an entry answers for all paths with its components.  The tree
does keep them apart, since a path may be too long to be followed, or ask for a directory where a
manifest is.  So a manifest that is read through a cache is what is read without one, unless there
is an entry and the path cannot be followed as it is spelled; then the cache has an answer all the
same.

* `ScopeCache.Recorded`: each entry was found under some spelling, which every call keeps.
* `ScopeCache.Recorded.spellingFault?_of_manifest`,
  `ScopeCache.Recorded.spellingFault?_of_absence`: how a path can fail that has an entry.
* `ScopeCache.readManifest_after`: manifests read after any calls.
-/

namespace ModuleMap.ScopeCache

variable {t : FileTree} {c : ScopeCache} {p : Path}

/-! ## Where entries come from -/

/-- What is recorded for a path was found under some spelling of it. -/
def Recorded (t : FileTree) (c : ScopeCache) : Prop :=
  ∀ p found, c.get? p = some found →
    ∃ q : Path, p.components = q.components ∧ loadManifest t q = .ok found

theorem keptByReading_recorded (t : FileTree) : KeptByReading t (Recorded t) := by
  intro c q hc p found hget
  rw [get?_readManifest] at hget
  cases hold : c.get? p with
  | some found' =>
    rw [hold] at hget
    cases hget
    exact hc p _ hold
  | none =>
    rw [hold, Option.none_or] at hget
    obtain ⟨hcomponents, hload⟩ := Option.ite_none_right_eq_some.mp hget
    refine ⟨q, hcomponents, ?_⟩
    cases hq : loadManifest t q with
    | error f =>
      rw [hq] at hload
      cases hload
    | ok found' =>
      rw [hq] at hload
      cases hload
      rfl

theorem recorded_after (t : FileTree) (calls : List ScopeCall) : Recorded t (after t calls) := by
  refine (keptByReading_recorded t).after (fun p found hget => ?_) calls
  rw [get?_empty] at hget
  cases hget

/-- What is recorded for a path is there if the path can be followed as it is spelled. -/
theorem Recorded.loadManifest_eq {found : Option Manifest} (hc : Recorded t c)
    (hget : c.get? p = some found) :
    loadManifest t p =
      match t.spellingFault? p with
      | some e => .error (.manifestRead p e)
      | none => .ok found := by
  obtain ⟨q, hcomponents, hq⟩ := hc p found hget
  exact loadManifest_of_components_eq hcomponents hq

/-! ## How a path fails that has an entry -/

/-- A manifest is found in a file, and its absence where nothing is. -/
theorem nodeAt_of_loadManifest {found : Option Manifest} (h : loadManifest t p = .ok found) :
    (found = none ∧ t.nodeAt p = .error .notFound) ∨
      found ≠ none ∧ ∃ bytes, t.nodeAt p = .ok (.file bytes) := by
  unfold loadManifest at h
  rcases hread : t.readOptional p with e | (_ | text)
  · rw [hread] at h
    cases h
  · rw [hread] at h
    cases h
    rcases FileTree.nodeAt_of_readOptional hread with ⟨-, hnode⟩ | ⟨hne, -⟩
    · exact Or.inl ⟨rfl, hnode⟩
    · exact absurd rfl hne
  · simp only [hread] at h
    rcases FileTree.nodeAt_of_readOptional hread with ⟨hnone, -⟩ | ⟨-, hnode⟩
    · cases hnone
    · cases hm : Manifest.parse text with
      | error e =>
        rw [hm] at h
        cases h
      | ok m =>
        rw [hm] at h
        cases h
        exact Or.inr ⟨Option.some_ne_none m, hnode⟩

/-- Where a manifest is recorded, a path that asks for a directory cannot be followed. -/
theorem Recorded.spellingFault?_of_manifest {m : Manifest} (hc : Recorded t c)
    (hget : c.get? p = some (some m)) :
    t.spellingFault? p = none ↔
      FileTree.exceeds t.pathLimit p.bytes = false ∧ p.asksDirectory = false := by
  obtain ⟨q, hcomponents, hq⟩ := hc p _ hget
  rcases nodeAt_of_loadManifest hq with ⟨hnone, -⟩ | ⟨-, bytes, hnode⟩
  · cases hnone
  · rw [FileTree.spellingFault?_eq_none_iff,
      FileTree.namesNoDirectory_of_components_eq hcomponents,
      FileTree.namesNoDirectory_eq_true_of_nodeAt hnode, Bool.and_true]

/-- Where an absence is recorded, only the length of a path matters. -/
theorem Recorded.spellingFault?_of_absence (hc : Recorded t c) (hget : c.get? p = some none)
    (hstart : (t.node? (t.start p).location).isSome = true) :
    t.spellingFault? p = none ↔ FileTree.exceeds t.pathLimit p.bytes = false := by
  rw [FileTree.spellingFault?_eq_none_iff, and_iff_left]
  by_cases hempty : p.bytes = []
  · rw [Path.asksDirectory, hempty]
    rfl
  · obtain ⟨q, hcomponents, hq⟩ := hc p _ hget
    rw [Path.bytes_eq_nil_iff, hcomponents, ← Path.bytes_eq_nil_iff] at hempty
    rw [FileTree.start_of_components_eq hcomponents] at hstart
    rcases nodeAt_of_loadManifest hq with ⟨-, hnode⟩ | ⟨hne, -⟩
    · rw [FileTree.namesNoDirectory_of_components_eq hcomponents,
        FileTree.namesNoDirectory_eq_false_of_nodeAt hnode hempty hstart, Bool.and_false]
    · exact absurd rfl hne

/-! ## After any calls -/

/-- **Only spellings that cannot be followed tell the cache from the tree.**  After any calls on a
tree, the manifest that is read under a path is the one that is read without a cache, unless there
is an entry for the path and the path cannot be followed as it is spelled.  Then there is an answer
through the cache, and none without it.  A path with the entry of a manifest cannot be followed if it
has too many bytes or asks for a directory; one with the entry of an absence cannot if it has too
many bytes. -/
theorem readManifest_after (t : FileTree) (calls : List ScopeCall) (p : Path) :
    let c := after t calls
    ((c.readManifest t p).1 = (empty.readManifest t p).1 ↔
        c.get? p = none ∨ t.spellingFault? p = none) ∧
      (∀ found e, c.get? p = some found → t.spellingFault? p = some e →
        (c.readManifest t p).1 = .ok found ∧
          (empty.readManifest t p).1 = .error (.manifestRead p e)) ∧
      (∀ m, c.get? p = some (some m) → (t.spellingFault? p = none ↔
        FileTree.exceeds t.pathLimit p.bytes = false ∧ p.asksDirectory = false)) ∧
      (c.get? p = some none → (t.node? (t.start p).location).isSome = true →
        (t.spellingFault? p = none ↔ FileTree.exceeds t.pathLimit p.bytes = false)) := by
  intro c
  have hc : Recorded t c := recorded_after t calls
  have hempty : (empty.readManifest t p).1 = loadManifest t p := by
    rw [readManifest_fst, get?_empty]
  refine ⟨?_, ?_, fun m hget => hc.spellingFault?_of_manifest hget,
    fun hget hstart => hc.spellingFault?_of_absence hget hstart⟩
  · rw [hempty, readManifest_fst]
    cases hget : c.get? p with
    | none => simp
    | some found =>
      rw [hc.loadManifest_eq hget]
      cases t.spellingFault? p <;> simp
  · intro found e hget hfault
    rw [hempty, readManifest_fst, hget, hc.loadManifest_eq hget, hfault]
    exact ⟨rfl, rfl⟩

/-- A directory with a manifest. -/
def lonePackage : FileTree where
  contents :=
    [(Text.encode "p".toList, .directory
        [(Text.encode "package.json".toList, .file (Text.encode "\x7b\x7d".toList))])]

/-- With a slash at the end, the path of the manifest names nothing that could be read.  After the
manifest has been read, it is found under this path, too. -/
theorem readManifest_slashed :
    let c := after lonePackage [.readManifest (.ofText "/p/package.json")]
    let p := Path.ofText "/p/package.json/"
    (empty.readManifest lonePackage p).1 = .error (.manifestRead p .notDirectory) ∧
      ∃ m, (c.readManifest lonePackage p).1 = .ok (some m) := by
  intro c p
  constructor
  · have hread : lonePackage.readOptional p = .error .notDirectory := by decide +kernel
    rw [readManifest_fst, get?_empty, loadManifest, hread]
  · have hfound : ((c.readManifest lonePackage p).1.toOption.join).isSome = true := by
      decide +kernel
    rcases hanswer : (c.readManifest lonePackage p).1 with f | (_ | m)
    · simp [hanswer, Except.toOption] at hfound
    · simp [hanswer, Except.toOption] at hfound
    · exact ⟨m, rfl⟩

end ModuleMap.ScopeCache
