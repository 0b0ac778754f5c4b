import Mathlib.Data.List.Nodup
import ModuleMap.Proofs.Path.Plain
import ModuleMap.Proofs.Scope.Coherence

/-!
# What a walk leaves in the cache

A walk looks at one directory after the other until one of them has an answer.  What it finds out
is recorded at once, so an answer that is a failure leaves the entries of the directories below it,
and none of its own.

The entries tell directories apart only if their manifests have different components, as those of
the directories around a path have (`ScopeCache.apart_enclosing`).  A directory that the walk has
not come to then has no other entry than before.

* `ScopeCache.get?_readManifest`: the entries after one manifest has been read.
* `ScopeCache.learn`, `ScopeCache.answerAt?`, `ScopeCache.search_fst`: what is found out in a
  directory, and the answer of a walk.
* `ScopeCache.LooksAt`, `ScopeCache.get?_search_eq_some_iff`: the directories that a walk looks at,
  and the entries after it.
* `ScopeCache.Footprint`, `ScopeCache.findScope_footprint`: the entries that looking for the scope
  of a file leaves, whatever the answer is.
-/

namespace ModuleMap.ScopeCache

variable {t : FileTree} {c : ScopeCache} {ds : List Path} {d e p q : Path}

/-! ## One manifest -/

theorem get?_congr (h : p.components = q.components) : c.get? p = c.get? q := by
  unfold get?
  rw [Path.key_eq_key_iff.mpr h]

/-- Reading a manifest keeps what is recorded, and records what is found where nothing was. -/
theorem get?_readManifest (c : ScopeCache) (t : FileTree) (p q : Path) :
    (c.readManifest t p).2.get? q =
      (c.get? q).or
        (if q.components = p.components then (loadManifest t p).toOption else none) := by
  unfold readManifest
  cases hget : c.get? p with
  | some found =>
    by_cases hq : q.components = p.components
    · rw [get?_congr hq, hget]
      rfl
    · rw [if_neg hq, Option.or_none]
  | none =>
    cases hload : loadManifest t p with
    | error f =>
      show c.get? q = _
      split <;> exact Option.or_none.symm
    | ok found =>
      show (c.insert p found).get? q = _
      rw [get?_insert]
      by_cases hq : q.components = p.components
      · rw [if_pos hq, if_pos hq, get?_congr hq, hget]
        rfl
      · rw [if_neg hq, if_neg hq, Option.or_none]

/-- What is found out about the manifest in a directory: what is recorded, or else what is in the
tree. -/
def learn (c : ScopeCache) (t : FileTree) (d : Path) : Except Fault (Option Manifest) :=
  match c.get? (d.join manifestName) with
  | some found => .ok found
  | none => loadManifest t (d.join manifestName)

/-- The cache after the manifest in a directory has been read. -/
def look (c : ScopeCache) (t : FileTree) (d : Path) : ScopeCache :=
  (c.readManifest t (d.join manifestName)).2

theorem readManifest_eq (c : ScopeCache) (t : FileTree) (d : Path) :
    c.readManifest t (d.join manifestName) = (c.learn t d, c.look t d) := by
  unfold look learn readManifest
  cases c.get? (d.join manifestName) with
  | some found => rfl
  | none => cases loadManifest t (d.join manifestName) <;> rfl

theorem learn_of_get?_eq_none (h : c.get? (d.join manifestName) = none) :
    c.learn t d = loadManifest t (d.join manifestName) := by
  unfold learn
  rw [h]

/-- A failure is never one that is recorded. -/
theorem get?_eq_none_of_learn {f : Fault} (h : c.learn t d = .error f) :
    c.get? (d.join manifestName) = none := by
  unfold learn at h
  cases hget : c.get? (d.join manifestName) with
  | none => rfl
  | some found =>
    rw [hget] at h
    cases h

/-- An entry after a look was there before or is that of the directory. -/
theorem get?_look_eq_some_iff {found : Option Manifest} :
    (c.look t d).get? p = some found ↔
      c.get? p = some found ∨
        c.get? p = none ∧ p.components = (d.join manifestName).components ∧
          loadManifest t (d.join manifestName) = .ok found := by
  unfold look
  rw [get?_readManifest]
  cases c.get? p with
  | some found' => simp
  | none => cases loadManifest t (d.join manifestName) <;> simp [Except.toOption]

/-- A look at one directory changes nothing for one whose manifest has other components. -/
theorem learn_look (h : (e.join manifestName).components ≠ (d.join manifestName).components) :
    (c.look t d).learn t e = c.learn t e := by
  unfold learn look
  rw [get?_readManifest, if_neg h, Option.or_none]

/-! ## The answer of a walk -/

/-- The answer of a walk that has come to a directory, if it ends there. -/
def answerAt? (c : ScopeCache) (t : FileTree) (d : Path) :
    Option (Except Fault (Option PackageScope)) :=
  if d.fileName? = some boundaryName then some (.ok none)
  else
    match c.learn t d with
    | .ok none => none
    | .ok (some m) => some (.ok (some ⟨d, m⟩))
    | .error f => some (.error f)

theorem answerAt?_eq_none_iff :
    c.answerAt? t d = none ↔ d.fileName? ≠ some boundaryName ∧ c.learn t d = .ok none := by
  unfold answerAt?
  split
  · next hd => simp [hd]
  · next hd => rcases c.learn t d with f | (_ | m) <;> simp [hd]

theorem answerAt?_look (h : (e.join manifestName).components ≠ (d.join manifestName).components) :
    (c.look t d).answerAt? t e = c.answerAt? t e := by
  unfold answerAt?
  rw [learn_look h]

/-- A walk goes on from a directory that is no boundary and has no manifest. -/
theorem search_cons (hd : d.fileName? ≠ some boundaryName) :
    search t c (d :: ds) =
      match c.learn t d with
      | .ok none => search t (c.look t d) ds
      | .ok (some m) => (.ok (some ⟨d, m⟩), c.look t d)
      | .error f => (.error f, c.look t d) := by
  rw [search, if_neg hd, readManifest_eq]
  rcases c.learn t d with f | (_ | m) <;> rfl

/-- Directories whose manifests have an entry each. -/
def Apart (ds : List Path) : Prop :=
  (ds.map fun d => (d.join manifestName).components).Nodup

theorem apart_cons :
    Apart (d :: ds) ↔
      (∀ e ∈ ds, (e.join manifestName).components ≠ (d.join manifestName).components) ∧
        Apart ds := by
  unfold Apart
  rw [List.map_cons, List.nodup_cons, List.mem_map, not_exists]
  exact and_congr_left' (forall_congr' fun e => not_and)

theorem Apart.nodup (hds : Apart ds) : ds.Nodup :=
  List.Nodup.of_map _ hds

theorem Apart.eq_of_components_eq (hds : Apart ds) (hd : d ∈ ds) (he : e ∈ ds)
    (h : (d.join manifestName).components = (e.join manifestName).components) : d = e :=
  List.inj_on_of_nodup_map hds hd he h

/-- A walk gives the first answer of a directory, in terms of the cache that it starts with. -/
theorem search_fst (hds : Apart ds) :
    (search t c ds).1 = (ds.findSome? (c.answerAt? t)).getD (.ok none) := by
  induction ds generalizing c with
  | nil => rfl
  | cons d ds ih =>
    rw [apart_cons] at hds
    rw [List.findSome?_cons]
    by_cases hd : d.fileName? = some boundaryName
    · rw [search, answerAt?, if_pos hd, if_pos hd]
      rfl
    · rw [search_cons hd, answerAt?, if_neg hd]
      rcases c.learn t d with f | (_ | m)
      · rfl
      · show (search t (c.look t d) ds).1 = _
        rw [ih hds.2]
        rw [← List.head?_filterMap, ← List.head?_filterMap,
          List.filterMap_congr fun e he => answerAt?_look (hds.1 e he)]
      · rfl

/-! ## The directories that are looked at -/

/-- A walk looks at a directory if it goes on from all below it, and if it is no boundary. -/
def LooksAt (c : ScopeCache) (t : FileTree) (ds : List Path) (d : Path) : Prop :=
  ∃ below above, ds = below ++ d :: above ∧ (∀ e ∈ below, c.answerAt? t e = none) ∧
    d.fileName? ≠ some boundaryName

theorem LooksAt.mem (h : c.LooksAt t ds d) : d ∈ ds := by
  obtain ⟨below, above, rfl, -⟩ := h
  simp

theorem looksAt_cons :
    c.LooksAt t (d :: ds) e ↔
      d.fileName? ≠ some boundaryName ∧ (e = d ∨ c.learn t d = .ok none ∧ c.LooksAt t ds e) := by
  constructor
  · rintro ⟨below, above, hsplit, hbelow, he⟩
    rcases below with _ | ⟨b, below⟩
    · obtain ⟨rfl, rfl⟩ := List.cons.inj hsplit
      exact ⟨he, Or.inl rfl⟩
    · obtain ⟨rfl, rfl⟩ := List.cons.inj hsplit
      rw [List.forall_mem_cons, answerAt?_eq_none_iff] at hbelow
      exact ⟨hbelow.1.1, Or.inr ⟨hbelow.1.2, below, above, rfl, hbelow.2, he⟩⟩
  · rintro ⟨hd, rfl | ⟨hlearn, below, above, rfl, hbelow, he⟩⟩
    · exact ⟨[], ds, rfl, by simp, hd⟩
    · refine ⟨d :: below, above, rfl, List.forall_mem_cons.mpr ⟨?_, hbelow⟩, he⟩
      exact answerAt?_eq_none_iff.mpr ⟨hd, hlearn⟩

/-- After a look at one directory, the walk looks at the same others. -/
theorem looksAt_look
    (h : ∀ e ∈ ds, (e.join manifestName).components ≠ (d.join manifestName).components) :
    (c.look t d).LooksAt t ds e ↔ c.LooksAt t ds e := by
  unfold LooksAt
  refine exists_congr fun below => exists_congr fun above => and_congr_right ?_
  rintro rfl
  refine and_congr_left' (forall₂_congr fun b hb => ?_)
  rw [answerAt?_look (h b (List.mem_append_left _ hb))]

/-- A directory above one that has an answer is not looked at. -/
theorem not_looksAt_of_mem_above {below above : List Path} (hds : (below ++ d :: above).Nodup)
    (hd : c.answerAt? t d ≠ none) (he : e ∈ above) : ¬c.LooksAt t (below ++ d :: above) e := by
  rintro ⟨below', above', hsplit, hbelow', -⟩
  have hlater : e ∉ below ∧ e ≠ d := by
    rw [List.nodup_append, List.nodup_cons] at hds
    exact ⟨fun hmem => hds.2.2 e hmem e (List.mem_cons_of_mem _ he) rfl,
      fun heq => hds.2.1.1 (heq ▸ he)⟩
  -- The part before `e` contains all that comes before `above`, so also `d`.
  have hmem : d ∈ below' := by
    rcases List.append_eq_append_iff.mp hsplit with ⟨rest, rfl, hrest⟩ | ⟨rest, rfl, hrest⟩
    · rcases rest with _ | ⟨b, rest⟩
      · exact absurd (List.cons.inj hrest).1.symm hlater.2
      · rw [(List.cons.inj hrest).1]
        simp
    · rcases rest with _ | ⟨b, rest⟩
      · exact absurd (List.cons.inj hrest).1 hlater.2
      · refine absurd ?_ hlater.1
        rw [(List.cons.inj hrest).1]
        simp
  exact hd (hbelow' d hmem)

/-- After a look at a directory without a manifest, its absence is recorded. -/
theorem get?_look_of_absent (hlearn : c.learn t d = .ok none) :
    (c.look t d).get? p =
      (c.get? p).or
        (if p.components = (d.join manifestName).components then some none else none) := by
  unfold look
  rw [get?_readManifest]
  cases hp : c.get? p with
  | some found => rfl
  | none =>
    by_cases hpd : p.components = (d.join manifestName).components
    · have hload : loadManifest t (d.join manifestName) = .ok none := by
        rw [← learn_of_get?_eq_none (get?_congr hpd ▸ hp), hlearn]
      rw [if_pos hpd, if_pos hpd, hload]
      rfl
    · rw [if_neg hpd, if_neg hpd]

/-- **The entries after a walk.**  What was recorded stays.  What is new was found in the tree, in a
directory that the walk looks at. -/
theorem get?_search_eq_some_iff (hds : Apart ds) {found : Option Manifest} :
    (search t c ds).2.get? p = some found ↔
      c.get? p = some found ∨
        c.get? p = none ∧ ∃ d, c.LooksAt t ds d ∧
          p.components = (d.join manifestName).components ∧
          loadManifest t (d.join manifestName) = .ok found := by
  induction ds generalizing c with
  | nil => simp [search, LooksAt]
  | cons d ds ih =>
    rw [apart_cons] at hds
    by_cases hd : d.fileName? = some boundaryName
    · simp [search, hd, looksAt_cons]
    rw [search_cons hd]
    simp only [looksAt_cons]
    rcases hlearn : c.learn t d with f | (_ | m)
    · simp [get?_look_eq_some_iff, hd]
    · simp only [ih hds.2, looksAt_look hds.1, get?_look_of_absent hlearn]
      cases hp : c.get? p with
      | some found' => simp
      | none =>
        by_cases hpd : p.components = (d.join manifestName).components
        · have hload : loadManifest t (d.join manifestName) = .ok none := by
            rw [← learn_of_get?_eq_none (get?_congr hpd ▸ hp), hlearn]
          have hlater : ∀ e, c.LooksAt t ds e → p.components ≠ (e.join manifestName).components :=
            fun e he hpe => hds.1 e he.mem (hpe.symm.trans hpd)
          constructor
          · rintro (hnew | ⟨habsurd, -⟩)
            · rw [if_pos hpd, Option.none_or, Option.some_inj] at hnew
              exact Or.inr ⟨rfl, d, ⟨hd, Or.inl rfl⟩, hpd, hnew ▸ hload⟩
            · simp [hpd] at habsurd
          · rintro (habsurd | ⟨-, e, ⟨-, rfl | ⟨-, he⟩⟩, hpe, hfound⟩)
            · cases habsurd
            · cases hload.symm.trans hfound
              simp [hpd]
            · exact absurd hpe (hlater e he)
        · simp [hpd, hd]
    · simp [get?_look_eq_some_iff, hd]

/-! ## Where a walk ends -/

/-- An answer other than that there is no scope comes from a directory that all below leave open. -/
theorem search_fst_eq_iff (hds : Apart ds) {answer : Except Fault (Option PackageScope)}
    (hanswer : answer ≠ .ok none) :
    (search t c ds).1 = answer ↔
      ∃ below d above, ds = below ++ d :: above ∧ (∀ e ∈ below, c.answerAt? t e = none) ∧
        c.answerAt? t d = some answer := by
  rw [search_fst hds]
  have hsome : (ds.findSome? (c.answerAt? t)).getD (.ok none) = answer ↔
      ds.findSome? (c.answerAt? t) = some answer := by
    cases ds.findSome? (c.answerAt? t) with
    | none => simp [hanswer.symm]
    | some a => simp
  rw [hsome, List.findSome?_eq_some_iff]
  constructor
  · rintro ⟨below, d, above, hsplit, hd, hbelow⟩
    exact ⟨below, d, above, hsplit, hbelow, hd⟩
  · rintro ⟨below, d, above, hsplit, hbelow, hd⟩
    exact ⟨below, d, above, hsplit, hd, hbelow⟩

theorem answerAt?_eq_scope_iff {scope : PackageScope} :
    c.answerAt? t d = some (.ok (some scope)) ↔
      d.fileName? ≠ some boundaryName ∧ scope.directory = d ∧
        c.learn t d = .ok (some scope.manifest) := by
  obtain ⟨directory, m⟩ := scope
  unfold answerAt?
  split
  · next hd => simp [hd]
  · next hd => rcases c.learn t d with f | (_ | m') <;> simp [hd, eq_comm]

theorem answerAt?_eq_error_iff {f : Fault} :
    c.answerAt? t d = some (.error f) ↔
      d.fileName? ≠ some boundaryName ∧ c.learn t d = .error f := by
  unfold answerAt?
  split
  · next hd => simp [hd]
  · next hd => rcases c.learn t d with f' | (_ | m) <;> simp [hd]

theorem look_of_get? {found : Option Manifest} (h : c.get? (d.join manifestName) = some found) :
    c.look t d = c := by
  unfold look readManifest
  rw [h]

/-- Directories whose absence is recorded are passed without a look at the tree. -/
theorem search_append {below above : List Path}
    (h : ∀ e ∈ below, e.fileName? ≠ some boundaryName ∧ c.get? (e.join manifestName) = some none) :
    search t c (below ++ above) = search t c above := by
  induction below with
  | nil => rfl
  | cons d below ih =>
    rw [List.forall_mem_cons] at h
    obtain ⟨⟨hd, hget⟩, hbelow⟩ := h
    have hlearn : c.learn t d = .ok none := by
      unfold learn
      rw [hget]
    rw [List.cons_append, search_cons hd, hlearn, look_of_get? hget]
    exact ih hbelow

/-- The manifests of the directories around a path have different names. -/
theorem apart_enclosing (p : Path) : Apart p.enclosing := by
  have hcomponents : ∀ k, ((Path.ofBody .root (p.names.take k)).join manifestName).components =
      (.root, p.names.take k ++ [manifestName.bytes]) := by
    intro k
    have hnaming : ∀ s ∈ p.names.take k, Path.IsNaming s :=
      fun s hs => Path.isNaming_of_mem_names (List.mem_of_mem_take hs)
    unfold Path.components
    rw [Path.names_join _ (by decide), Path.names_ofBody_root hnaming,
      Path.anchor_eq_root_iff.mpr (Path.isAbsolute_join rfl _)]
    congr
  unfold Apart Path.enclosing
  rw [List.map_map]
  refine List.Nodup.map_on ?_ (List.nodup_reverse.mpr List.nodup_range)
  intro k hk l hl heq
  simp only [Function.comp_apply, hcomponents, Prod.mk.injEq, List.append_cancel_right_eq] at heq
  have hlength := congrArg List.length heq.2
  rw [List.mem_reverse, List.mem_range] at hk hl
  rw [List.length_take, List.length_take] at hlength
  omega

/-! ## Footprints -/

/-- What a walk through directories has left, where `run` is its answer and the cache after it. -/
structure Footprint (t : FileTree) (c : ScopeCache) (ds : List Path)
    (run : Except Fault (Option PackageScope) × ScopeCache) : Prop where
  /-- An entry was there before, or it is new and says what is in the tree, in a directory that the
  walk looks at. -/
  entry_iff : ∀ p found, run.2.get? p = some found ↔
    c.get? p = some found ∨
      c.get? p = none ∧ ∃ d, c.LooksAt t ds d ∧
        p.components = (d.join manifestName).components ∧
        loadManifest t (d.join manifestName) = .ok found
  /-- A new entry holds a manifest if and only if that is the scope that is found. -/
  manifest_iff : ∀ d ∈ ds, c.get? (d.join manifestName) = none → ∀ m,
    run.2.get? (d.join manifestName) = some (some m) ↔ run.1 = .ok (some ⟨d, m⟩)
  /-- A boundary gets no entry. -/
  boundary : ∀ d ∈ ds, d.fileName? = some boundaryName →
    run.2.get? (d.join manifestName) = c.get? (d.join manifestName)
  /-- No directory above one where the walk ends gets an entry. -/
  above : ∀ below d above, ds = below ++ d :: above → c.answerAt? t d ≠ none →
    ∀ e ∈ above, run.2.get? (e.join manifestName) = c.get? (e.join manifestName)

/-- Directories that are not looked at keep what is recorded for them. -/
theorem get?_search_of_not_looksAt (hds : Apart ds) (hd : d ∈ ds) (h : ¬c.LooksAt t ds d) :
    (search t c ds).2.get? (d.join manifestName) = c.get? (d.join manifestName) := by
  refine Option.ext fun found => ?_
  rw [get?_search_eq_some_iff hds]
  refine ⟨?_, Or.inl⟩
  rintro (hold | ⟨-, e, he, hcomponents, -⟩)
  · exact hold
  · exact absurd (hds.eq_of_components_eq hd he.mem hcomponents ▸ he) h

theorem footprint_search (t : FileTree) (c : ScopeCache) (hds : Apart ds) :
    Footprint t c ds (search t c ds) := by
  refine ⟨fun p found => get?_search_eq_some_iff hds, ?_, ?_, ?_⟩
  · intro d hd hnone m
    rw [get?_search_eq_some_iff hds, search_fst_eq_iff hds (by simp)]
    constructor
    · rintro (habsurd | ⟨-, e, he, hcomponents, hload⟩)
      · cases hnone.symm.trans habsurd
      · obtain rfl := hds.eq_of_components_eq hd he.mem hcomponents
        obtain ⟨below, above, hsplit, hbelow, hboundary⟩ := he
        refine ⟨below, d, above, hsplit, hbelow, ?_⟩
        exact answerAt?_eq_scope_iff.mpr ⟨hboundary, rfl, (learn_of_get?_eq_none hnone).trans hload⟩
    · rintro ⟨below, e, above, hsplit, hbelow, he⟩
      obtain ⟨hboundary, rfl, hlearn⟩ := answerAt?_eq_scope_iff.mp he
      refine Or.inr ⟨hnone, d, ⟨below, above, hsplit, hbelow, hboundary⟩, rfl, ?_⟩
      rw [← learn_of_get?_eq_none hnone, hlearn]
  · intro d hd hboundary
    refine get?_search_of_not_looksAt hds hd ?_
    rintro ⟨-, -, -, -, hne⟩
    exact hne hboundary
  · rintro below d above rfl hd e he
    exact get?_search_of_not_looksAt hds (by simp [he]) (not_looksAt_of_mem_above hds.nodup hd he)

/-- A walk that fails has recorded the absences below, and nothing of the manifest that fails. -/
theorem exists_of_search_eq_error (hds : Apart ds) {f : Fault}
    (h : (search t c ds).1 = .error f) :
    ∃ below d above, ds = below ++ d :: above ∧ d.fileName? ≠ some boundaryName ∧
      loadManifest t (d.join manifestName) = .error f ∧
      (search t c ds).2.get? (d.join manifestName) = none ∧
      ∀ e ∈ below, e.fileName? ≠ some boundaryName ∧
        (search t c ds).2.get? (e.join manifestName) = some none := by
  rw [search_fst_eq_iff hds (by simp)] at h
  obtain ⟨below, d, above, rfl, hbelow, hd⟩ := h
  obtain ⟨hboundary, hlearn⟩ := answerAt?_eq_error_iff.mp hd
  have hnone := get?_eq_none_of_learn hlearn
  have hload : loadManifest t (d.join manifestName) = .error f := by
    rw [← learn_of_get?_eq_none hnone, hlearn]
  refine ⟨below, d, above, rfl, hboundary, hload, ?_, fun e he => ?_⟩
  · rw [Option.eq_none_iff_forall_ne_some]
    intro found hfound
    rcases (get?_search_eq_some_iff hds).mp hfound with hold | ⟨-, e, he, hcomponents, hfound⟩
    · cases hnone.symm.trans hold
    · obtain rfl := hds.eq_of_components_eq (by simp) he.mem hcomponents
      cases hload.symm.trans hfound
  · obtain ⟨hne, hlearn⟩ := answerAt?_eq_none_iff.mp (hbelow e he)
    refine ⟨hne, (get?_search_eq_some_iff hds).mpr ?_⟩
    cases hget : c.get? (e.join manifestName) with
    | some found =>
      left
      unfold learn at hlearn
      rw [hget] at hlearn
      exact congrArg some (Except.ok.inj hlearn)
    | none =>
      obtain ⟨before, after, rfl⟩ := List.append_of_mem he
      refine Or.inr ⟨rfl, e, ⟨before, after ++ d :: above, by simp, ?_, hne⟩, rfl, ?_⟩
      · exact fun b hb => hbelow b (List.mem_append_left _ hb)
      · rw [← learn_of_get?_eq_none hget, hlearn]

theorem findScope_eq_search {file start : Path} (h : t.resolve file = .ok start) :
    c.findScope t file = search t c start.enclosing := by
  unfold findScope
  rw [h, ← Path.properAncestors_eq (FileTree.isTrimmed_of_resolve h)]

/-- **What looking for a scope leaves.**  A path that does not resolve leaves the cache as it is.
For any other, the new entries are those of the directories that the walk looks at.  If the walk
fails, the manifest that it fails at has no entry, and the directories below it have absences: the
same call on a tree that may have changed reads that manifest again, and goes on from there. -/
theorem findScope_footprint (c : ScopeCache) (t : FileTree) (file : Path) :
    let left := (c.findScope t file).2
    (∀ e, t.resolve file = .error e → c.findScope t file = (.error (.io e), c)) ∧
      ∀ start, t.resolve file = .ok start →
        Footprint t c start.enclosing (c.findScope t file) ∧
        ∀ f, (c.findScope t file).1 = .error f →
          ∃ below d above, start.enclosing = below ++ d :: above ∧
            loadManifest t (d.join manifestName) = .error f ∧
            left.get? (d.join manifestName) = none ∧
            (∀ e ∈ below, left.get? (e.join manifestName) = some none) ∧
            ∀ t' : FileTree, t'.resolve file = .ok start →
              left.findScope t' file =
                match loadManifest t' (d.join manifestName) with
                | .ok none => search t' (left.insert (d.join manifestName) none) above
                | .ok (some m) =>
                  (.ok (some ⟨d, m⟩), left.insert (d.join manifestName) (some m))
                | .error f' => (.error f', left) := by
  intro left
  refine ⟨fun e he => ?_, fun start hstart => ?_⟩
  · unfold findScope
    rw [he]
  have hds := apart_enclosing start
  have hrun : c.findScope t file = search t c start.enclosing := findScope_eq_search hstart
  refine ⟨hrun ▸ footprint_search t c hds, fun f hf => ?_⟩
  obtain ⟨below, d, above, hsplit, hboundary, hload, hnone, hbelow⟩ :=
    exists_of_search_eq_error hds (hrun ▸ hf)
  rw [← hrun] at hnone hbelow
  refine ⟨below, d, above, hsplit, hload, hnone, fun e he => (hbelow e he).2, ?_⟩
  intro t' hstart'
  rw [findScope_eq_search hstart', hsplit, search_append hbelow, search, if_neg hboundary,
    readManifest, hnone]
  rcases loadManifest t' (d.join manifestName) with f' | (_ | m) <;> rfl

/-- A package with this manifest and a directory for its files. -/
def packageWith (manifest : String) : FileTree where
  contents :=
    [(Text.encode "app".toList, .directory
        [(Text.encode "package.json".toList, .file (Text.encode manifest.toList)),
         (Text.encode "src".toList, .directory [])])]

/-- The walk fails at a damaged manifest, past a directory that has none.  What is recorded is the
absence; when the manifest has been repaired, it is read again and found. -/
theorem findScope_footprint_damagedManifest :
    let t := packageWith "\x7b"
    let t' := packageWith "\x7b\x7d"
    let file := Path.ofText "/app/src/a.js"
    let app := Path.ofText "/app"
    let src := Path.ofText "/app/src"
    let left := (empty.findScope t file).2
    (t.resolve file = .ok file ∧ t'.resolve file = .ok file ∧ ∃ f,
        (empty.findScope t file).1 = .error f) ∧
      left.get? (src.join manifestName) = some none ∧
      left.get? (app.join manifestName) = none ∧
      ∃ m, (left.findScope t' file).1 = .ok (some ⟨app, m⟩) := by
  intro t t' file app src left
  have hstart : t.resolve file = .ok file := by decide +kernel
  have hstart' : t'.resolve file = .ok file := by decide +kernel
  have henclosing : file.enclosing = [src, app, .root] := by decide +kernel
  have hfails : ∃ f, (empty.findScope t file).1 = .error f := by
    have hnone : (empty.findScope t file).1.isOk = false := by decide +kernel
    cases hanswer : (empty.findScope t file).1 with
    | error f => exact ⟨f, rfl⟩
    | ok answer =>
      rw [hanswer] at hnone
      cases hnone
  obtain ⟨f, hf⟩ := hfails
  obtain ⟨below, d, above, hsplit, hload, hnone, hbelow, hagain⟩ :=
    ((findScope_footprint empty t file).2 file hstart).2 f hf
  -- Of the directories around the file only `/app` has a manifest that cannot be loaded.
  have hothers : ∀ e ∈ [src, Path.root], e ≠ d := by
    have hok : ∀ e ∈ [src, Path.root], (loadManifest t (e.join manifestName)).isOk = true := by
      decide +kernel
    rintro e he rfl
    have hload' := hok e he
    rw [hload] at hload'
    cases hload'
  obtain ⟨rfl, rfl⟩ : below = [src] ∧ d = app := by
    rw [henclosing] at hsplit
    rcases below with _ | ⟨b, _ | ⟨b', _ | ⟨b'', below⟩⟩⟩
    · exact absurd (List.cons.inj hsplit).1 (hothers src (by simp))
    · simp only [List.cons_append, List.nil_append, List.cons.injEq] at hsplit
      exact ⟨by rw [hsplit.1], hsplit.2.1.symm⟩
    · simp only [List.cons_append, List.nil_append, List.cons.injEq] at hsplit
      exact absurd hsplit.2.2.1 (hothers .root (by simp))
    · simp at hsplit
  refine ⟨⟨hstart, hstart', f, hf⟩, hbelow src (by simp), hnone, ?_⟩
  rw [hagain t' hstart']
  have hfound : ((loadManifest t' (app.join manifestName)).toOption.join).isSome = true := by
    decide +kernel
  rcases hload' : loadManifest t' (app.join manifestName) with e | (_ | m)
  · simp [hload', Except.toOption] at hfound
  · simp [hload', Except.toOption] at hfound
  · exact ⟨m, rfl⟩

end ModuleMap.ScopeCache
