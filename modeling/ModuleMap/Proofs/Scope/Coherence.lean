import ModuleMap.Format
import ModuleMap.Proofs.FileTree.Respelling

/-!
# Lookups that went before do not matter

While the file tree stays as it is, what is recorded in a cache is what is in the tree, so a scope
found through the cache is the one found without it.

An entry is shared by all spellings of a path, and only the one that came first was looked at.  The
lookups of scopes use the shortest spelling, and what is found under any other is also found under
that (`ScopeCache.loadManifest_names`).  So a cache counts as coherent if each of its entries agrees
with the tree at the shortest spelling.

* `ScopeCall`, `ScopeCache.after`: the calls that use a cache, and the cache after some of them.
* `ScopeCache.KeptByReading`: what reading one manifest keeps, every call keeps
  (`KeptByReading.leave`, `KeptByReading.after`).
* `ScopeCache.loadManifest_of_components_eq`: what is found under another spelling.
* `ScopeCache.Coherent`: the invariant.
* `FileTree.scopeAt?`, `FileTree.scopeOf`: the walk without a cache.
* `ScopeCache.findScope_after`: a scope found after any calls.
-/

namespace ModuleMap

/-! ## Calls -/

/-- A call that goes through the cache, or clears it. -/
inductive ScopeCall where
  | findScope (file : Path)
  | readManifest (p : Path)
  | classify (p : Path) (packageScoped : Bool)
  | resolve (o : Overrides) (p : Path) (packageScoped : Bool)
  | clear

/-- The cache that a call leaves, also where the call fails. -/
def ScopeCall.leave (t : FileTree) (c : ScopeCache) : ScopeCall → ScopeCache
  | findScope file => (c.findScope t file).2
  | readManifest p => (c.readManifest t p).2
  | classify p packageScoped => (ModuleFormat.classify t c p packageScoped).2
  | resolve o p packageScoped => (ModuleFormat.resolve t o c p packageScoped).2
  | clear => .empty

/-- The cache after some calls, the first of which finds it empty. -/
def ScopeCache.after (t : FileTree) (calls : List ScopeCall) : ScopeCache :=
  calls.foldl (ScopeCall.leave t) .empty

/-! ## What reading keeps -/

namespace ScopeCache

/-- Reading any manifest keeps a property of caches. -/
def KeptByReading (t : FileTree) (P : ScopeCache → Prop) : Prop :=
  ∀ c p, P c → P (c.readManifest t p).2

namespace KeptByReading

variable {t : FileTree} {P : ScopeCache → Prop} {c : ScopeCache} (h : KeptByReading t P)
include h

theorem search (hc : P c) (ds : List Path) : P (search t c ds).2 := by
  induction ds generalizing c with
  | nil => exact hc
  | cons d ds ih =>
    have hread := h c (d.join manifestName) hc
    rw [ScopeCache.search]
    split
    · exact hc
    · generalize c.readManifest t (d.join manifestName) = answer at hread ⊢
      obtain ⟨f | (_ | m), c'⟩ := answer
      · exact hread
      · exact ih hread
      · exact hread

theorem findScope (hc : P c) (file : Path) : P (c.findScope t file).2 := by
  unfold ScopeCache.findScope
  split
  · exact h.search hc _
  · exact hc

theorem classify (hc : P c) (p : Path) (packageScoped : Bool) :
    P (ModuleFormat.classify t c p packageScoped).2 := by
  unfold ModuleFormat.classify
  have hfind := h.findScope hc p
  split
  · exact hc
  · generalize c.findScope t p = answer at hfind ⊢
    obtain ⟨f | (_ | scope), c'⟩ := answer
    · exact hfind
    · exact hfind
    · exact hfind

theorem resolve (hc : P c) (o : Overrides) (p : Path) (packageScoped : Bool) :
    P (ModuleFormat.resolve t o c p packageScoped).2 := by
  unfold ModuleFormat.resolve
  split
  · exact hc
  · exact hc
  · exact h.classify hc p packageScoped
  · exact h.classify hc p packageScoped

/-- Every call keeps the property, if an empty cache has it or the call does not clear. -/
theorem leave (hc : P c) {call : ScopeCall} (hclear : call = .clear → P .empty) :
    P (call.leave t c) := by
  cases call with
  | findScope file => exact h.findScope hc file
  | readManifest p => exact h c p hc
  | classify p packageScoped => exact h.classify hc p packageScoped
  | resolve o p packageScoped => exact h.resolve hc o p packageScoped
  | clear => exact hclear rfl

/-- If an empty cache has the property, the cache has it after any calls. -/
theorem after (hempty : P .empty) (calls : List ScopeCall) : P (after t calls) :=
  List.foldlRecOn calls _ hempty fun _ hc _ _ => h.leave hc fun _ => hempty

end KeptByReading

end ScopeCache

/-! ## The walk without a cache -/

namespace FileTree

/-- The answer of a walk that has come to a directory, if it ends there. -/
def scopeAt? (t : FileTree) (d : Path) : Option (Except Fault (Option PackageScope)) :=
  if d.fileName? = some boundaryName then some (.ok none)
  else
    match t.readText (d.join manifestName) with
    | .error .notFound => none
    | .error e => some (.error (.manifestRead (d.join manifestName) e))
    | .ok text =>
      match Json.Value.parse text with
      | .error e => some (.error (.manifestParse (d.join manifestName) e))
      | .ok v => some (.ok (some ⟨d, .ofValue v⟩))

/-- The first answer on the way up; a walk that gets past the root finds no scope. -/
def scopeAmong (t : FileTree) (ds : List Path) : Except Fault (Option PackageScope) :=
  (ds.findSome? t.scopeAt?).getD (.ok none)

/-- The scope of a file, by a walk through the directories around its normal form. -/
def scopeOf (t : FileTree) (file : Path) : Except Fault (Option PackageScope) :=
  match t.resolve file with
  | .ok start => t.scopeAmong start.enclosing
  | .error e => .error (.io e)

theorem scopeAmong_cons (t : FileTree) (d : Path) (ds : List Path) :
    t.scopeAmong (d :: ds) = (t.scopeAt? d).getD (t.scopeAmong ds) := by
  unfold scopeAmong
  rw [List.findSome?_cons]
  cases t.scopeAt? d <;> rfl

/-- The answer of a walk in terms of what is loaded at a directory. -/
theorem scopeAt?_of_ne_boundary {t : FileTree} {d : Path} (hd : d.fileName? ≠ some boundaryName) :
    t.scopeAt? d =
      match ScopeCache.loadManifest t (d.join manifestName) with
      | .ok none => none
      | .ok (some m) => some (.ok (some ⟨d, m⟩))
      | .error f => some (.error f) := by
  unfold scopeAt? ScopeCache.loadManifest readOptional Manifest.parse
  rw [if_neg hd]
  rcases t.readText (d.join manifestName) with e | text
  · cases e <;> rfl
  · cases hv : Json.Value.parse text <;> simp [hv, bind, Except.bind, pure, Except.pure]

/-- A boundary hides all directories above it. -/
theorem scopeAmong_takeWhile (t : FileTree) (ds : List Path) :
    t.scopeAmong (ds.takeWhile (·.fileName? ≠ some boundaryName)) = t.scopeAmong ds := by
  induction ds with
  | nil => rfl
  | cons d ds ih =>
    by_cases hd : d.fileName? = some boundaryName
    · rw [List.takeWhile_cons_of_neg (by simp [hd]), scopeAmong_cons, scopeAt?, if_pos hd]
      rfl
    · rw [List.takeWhile_cons_of_pos (by simp [hd]), scopeAmong_cons, scopeAmong_cons, ih]

/-- Only the manifests below the boundary matter. -/
theorem scopeAmong_congr {t t' : FileTree} {ds : List Path}
    (h : ∀ d ∈ ds.takeWhile (·.fileName? ≠ some boundaryName),
      t'.readText (d.join manifestName) = t.readText (d.join manifestName)) :
    t'.scopeAmong ds = t.scopeAmong ds := by
  rw [← scopeAmong_takeWhile t', ← scopeAmong_takeWhile t]
  generalize ds.takeWhile (·.fileName? ≠ some boundaryName) = below at h
  induction below with
  | nil => rfl
  | cons d below ih =>
    rw [List.forall_mem_cons] at h
    rw [scopeAmong_cons, scopeAmong_cons, ih h.2, scopeAt?, scopeAt?, h.1]

end FileTree

namespace ScopeCache

variable {t : FileTree} {c : ScopeCache}

/-! ## Coherence -/

/-- What is recorded for a path is what is in the tree at its shortest spelling. -/
def Coherent (t : FileTree) (c : ScopeCache) : Prop :=
  ∀ p found, p.IsShortest → c.get? p = some found → loadManifest t p = .ok found

theorem coherent_empty (t : FileTree) : Coherent t empty := by
  intro p found _ hget
  cases hget

/-- What is found under one spelling is found under each other one that can be followed. -/
theorem loadManifest_of_components_eq {p q : Path} {found : Option Manifest}
    (h : p.components = q.components) (hq : loadManifest t q = .ok found) :
    loadManifest t p =
      match t.spellingFault? p with
      | some e => .error (.manifestRead p e)
      | none => .ok found := by
  unfold loadManifest at hq ⊢
  cases hread : t.readOptional q with
  | error e =>
    rw [hread] at hq
    cases hq
  | ok text? =>
    rw [FileTree.readOptional_of_components_eq h hread]
    rw [hread] at hq
    cases t.spellingFault? p with
    | some e => rfl
    | none =>
      cases text? with
      | none => exact hq
      | some text =>
        cases hm : Manifest.parse text with
        | error e => simp [hm] at hq
        | ok m => simpa [hm] using hq

/-- The spelling under which something is found can be followed. -/
theorem spellingFault?_eq_none_of_loadManifest {p : Path} {found : Option Manifest}
    (h : loadManifest t p = .ok found) : t.spellingFault? p = none := by
  have hp := loadManifest_of_components_eq rfl h
  rw [h] at hp
  cases hfault : t.spellingFault? p with
  | none => rfl
  | some e =>
    rw [hfault] at hp
    cases hp

/-- A manifest, or its absence, that is found under some spelling is found under the shortest. -/
theorem loadManifest_names {p : Path} {found : Option Manifest} (hp : p.anchor = .root)
    (h : loadManifest t p = .ok found) : loadManifest t (.ofBody .root p.names) = .ok found := by
  have hcomponents : (Path.ofBody .root p.names).components = p.components := by
    rw [Path.components, Path.components, Path.anchor_ofBody_root, hp,
      Path.names_ofBody_root fun s hs => Path.isNaming_of_mem_names hs]
  rw [loadManifest_of_components_eq hcomponents h,
    FileTree.spellingFault?_names hp (spellingFault?_eq_none_of_loadManifest h)]

theorem Coherent.insert {p : Path} {found : Option Manifest} (hc : Coherent t c)
    (hp : loadManifest t p = .ok found) : Coherent t (c.insert p found) := by
  intro q found' hq hget
  rw [get?_insert] at hget
  split at hget
  · next hcomponents =>
    cases hget
    have hanchor : p.anchor = .root := (congrArg Prod.fst hcomponents).symm.trans hq.anchor_eq
    have hnames : q.names = p.names := congrArg Prod.snd hcomponents
    rw [← hq, hnames]
    exact loadManifest_names hanchor hp
  · exact hc q found' hq hget

/-- What is read is what is recorded, or else what is in the tree. -/
theorem readManifest_fst (c : ScopeCache) (t : FileTree) (p : Path) :
    (c.readManifest t p).1 =
      match c.get? p with
      | some found => .ok found
      | none => loadManifest t p := by
  unfold readManifest
  cases c.get? p with
  | some found => rfl
  | none => cases loadManifest t p <;> rfl

/-- Reading a manifest keeps the cache coherent. -/
theorem Coherent.readManifest (hc : Coherent t c) (p : Path) :
    Coherent t (c.readManifest t p).2 := by
  unfold ScopeCache.readManifest
  split
  · exact hc
  · split
    · next hload => exact hc.insert hload
    · exact hc

/-- Under the shortest spelling a coherent cache answers as the tree does. -/
theorem Coherent.readManifest_fst (hc : Coherent t c) {p : Path} (hp : p.IsShortest) :
    (c.readManifest t p).1 = loadManifest t p := by
  rw [ScopeCache.readManifest_fst]
  cases hget : c.get? p with
  | some found => exact (hc p found hp hget).symm
  | none => rfl

theorem keptByReading_coherent (t : FileTree) : KeptByReading t (Coherent t) :=
  fun _ p hc => hc.readManifest p

/-- A search gives the answer of the walk. -/
theorem Coherent.search_fst (hc : Coherent t c) {ds : List Path}
    (hshort : ∀ d ∈ ds, (d.join manifestName).IsShortest) :
    (search t c ds).1 = t.scopeAmong ds := by
  induction ds generalizing c with
  | nil => rfl
  | cons d ds ih =>
    rw [search, FileTree.scopeAmong_cons]
    by_cases hd : d.fileName? = some boundaryName
    · rw [if_pos hd, FileTree.scopeAt?, if_pos hd]
      rfl
    · rw [List.forall_mem_cons] at hshort
      rw [if_neg hd, FileTree.scopeAt?_of_ne_boundary hd]
      have hkeeps := hc.readManifest (d.join manifestName)
      have hanswer := hc.readManifest_fst hshort.1
      generalize c.readManifest t (d.join manifestName) = answer at hkeeps hanswer ⊢
      obtain ⟨f | (_ | m), c'⟩ := answer
      · rw [← hanswer]
        rfl
      · rw [← hanswer]
        exact ih hkeeps hshort.2
      · rw [← hanswer]
        rfl

/-- The scope found through a coherent cache is that of the walk. -/
theorem Coherent.findScope_fst (hc : Coherent t c) (file : Path) :
    (c.findScope t file).1 = t.scopeOf file := by
  unfold ScopeCache.findScope FileTree.scopeOf
  cases hstart : t.resolve file with
  | error e => rfl
  | ok start =>
    show (search t c start.properAncestors).1 = _
    rw [Path.properAncestors_eq (FileTree.isTrimmed_of_resolve hstart)]
    refine hc.search_fst fun d hd => ?_
    obtain ⟨ns, hns, rfl⟩ := Path.exists_names_of_mem_enclosing hd
    exact Path.isShortest_join hns ⟨by decide, by decide⟩

/-- A coherent cache gives no other format than an empty one. -/
theorem Coherent.classify_fst (hc : Coherent t c) (p : Path) (packageScoped : Bool) :
    (ModuleFormat.classify t c p packageScoped).1 =
      (ModuleFormat.classify t .empty p packageScoped).1 := by
  have hscope : (c.findScope t p).1 = (empty.findScope t p).1 := by
    rw [hc.findScope_fst, (coherent_empty t).findScope_fst]
  unfold ModuleFormat.classify
  split
  · rfl
  · generalize c.findScope t p = answer, empty.findScope t p = fresh at hscope ⊢
    obtain ⟨f | (_ | scope), c'⟩ := answer <;> obtain ⟨f' | (_ | scope'), c''⟩ := fresh <;>
      cases hscope <;> rfl

/-- With overrides taken into account, it gives none either. -/
theorem Coherent.resolve_fst (hc : Coherent t c) (o : Overrides) (p : Path)
    (packageScoped : Bool) :
    (ModuleFormat.resolve t o c p packageScoped).1 =
      (ModuleFormat.resolve t o .empty p packageScoped).1 := by
  unfold ModuleFormat.resolve
  split
  · rfl
  · rfl
  · exact hc.classify_fst p packageScoped
  · exact hc.classify_fst p packageScoped

/-- The cache is coherent after any calls. -/
theorem coherent_after (t : FileTree) (calls : List ScopeCall) : Coherent t (after t calls) :=
  (keptByReading_coherent t).after (coherent_empty t) calls

/-- **Lookups that went before do not matter.**  After any calls on a tree, the scope that is found
for a file is the one that the walk without a cache finds.  In any other tree that has the same
texts at the manifests below the innermost boundary, it is also the one that is found there. -/
theorem findScope_after (t : FileTree) (calls : List ScopeCall) (file : Path) :
    ((after t calls).findScope t file).1 = t.scopeOf file ∧
      ∀ t' : FileTree, t'.resolve file = t.resolve file →
        (∀ start, t.resolve file = .ok start →
          ∀ d ∈ start.enclosing.takeWhile (·.fileName? ≠ some boundaryName),
            t'.readText (d.join manifestName) = t.readText (d.join manifestName)) →
        ∀ calls', ((after t' calls').findScope t' file).1 = t.scopeOf file := by
  refine ⟨(coherent_after t calls).findScope_fst file, fun t' hstart hsame calls' => ?_⟩
  rw [(coherent_after t' calls').findScope_fst file]
  unfold FileTree.scopeOf
  rw [hstart]
  cases hresolve : t.resolve file with
  | error e => rfl
  | ok start => exact FileTree.scopeAmong_congr (hsame start hresolve)

end ScopeCache

end ModuleMap
