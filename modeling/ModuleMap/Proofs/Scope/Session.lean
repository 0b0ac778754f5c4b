import ModuleMap.FileTree.Edit
import ModuleMap.Proofs.Scope.Footprint

/-!
# Answers last until the cache is cleared

While a cache is in use, files come and go.  A cache never replaces an entry and never forgets one,
and before a walk gives an answer it has recorded all that it has looked at.  So the same walk,
taken again later, finds the same entries and looks at no file: it gives the answer that it gave
before, whatever has become of the tree.  Only a cache that is cleared gives way to the tree as it
is.

* `ScopeCache.Extends`: the entries of one cache in another, which every call but clearing keeps
  (`ScopeCall.extends_leave`).
* `ScopeCache.search_replay`, `ScopeCache.findScope_replay`, `ModuleFormat.classify_replay`: answers
  found again.
* `ScopeSession`, `ScopeSession.after`: trees that change and caches that are used in between.
* `ScopeSession.answers_persist`: what becomes of the answers.
-/

namespace ModuleMap

variable {t t' : FileTree} {c c' c'' : ScopeCache}

/-! ## Caches that grow -/

namespace ScopeCache

/-- What the one cache has recorded the other has recorded, too. -/
def Extends (c c' : ScopeCache) : Prop :=
  ∀ p found, c.get? p = some found → c'.get? p = some found

theorem Extends.refl (c : ScopeCache) : c.Extends c :=
  fun _ _ h => h

theorem Extends.trans (h : c.Extends c') (h' : c'.Extends c'') : c.Extends c'' :=
  fun p found hget => h' p found (h p found hget)

/-- Reading a manifest keeps all entries. -/
theorem extends_readManifest (c : ScopeCache) (t : FileTree) (p : Path) :
    c.Extends (c.readManifest t p).2 := by
  intro q found hget
  rw [get?_readManifest, hget]
  rfl

/-- So does every call but clearing. -/
theorem keptByReading_extends (c : ScopeCache) (t : FileTree) : KeptByReading t c.Extends :=
  fun c' p hc' => hc'.trans (extends_readManifest c' t p)

end ScopeCache

/-- Only clearing loses an entry. -/
theorem ScopeCall.extends_leave (t : FileTree) (c : ScopeCache) {call : ScopeCall}
    (hcall : call ≠ .clear) : c.Extends (call.leave t c) :=
  (c.keptByReading_extends t).leave (ScopeCache.Extends.refl c) fun hclear => absurd hclear hcall

/-! ## Answers found again -/

namespace ScopeCache

/-- What is found out is recorded. -/
theorem get?_look_of_learn {d : Path} {found : Option Manifest} (h : c.learn t d = .ok found) :
    (c.look t d).get? (d.join manifestName) = some found := by
  rw [get?_look_eq_some_iff]
  cases hget : c.get? (d.join manifestName) with
  | none => exact Or.inr ⟨rfl, rfl, (learn_of_get?_eq_none hget).symm.trans h⟩
  | some found' =>
    unfold learn at h
    rw [hget] at h
    exact Or.inl (congrArg some (Except.ok.inj h))

/-- A walk that has given an answer gives it again, and looks at no file. -/
theorem search_replay {ds : List Path} {answer : Option PackageScope}
    (h : (search t c ds).1 = .ok answer) (hc' : (search t c ds).2.Extends c') :
    search t' c' ds = (.ok answer, c') := by
  induction ds generalizing c with
  | nil =>
    cases h
    rfl
  | cons d ds ih =>
    by_cases hd : d.fileName? = some boundaryName
    · rw [search, if_pos hd] at h
      rw [search, if_pos hd]
      cases h
      rfl
    rw [search_cons hd] at h hc'
    rw [search, if_neg hd]
    -- The look at `d` is the entry that the first walk has left.
    have hagain : ∀ {found}, c.learn t d = .ok found → (c.look t d).Extends c' →
        c'.readManifest t' (d.join manifestName) = (.ok found, c') := by
      intro found hlearn hext
      unfold readManifest
      rw [hext _ _ (get?_look_of_learn hlearn)]
    rcases hlearn : c.learn t d with f | (_ | m)
    · rw [hlearn] at h
      cases h
    · rw [hlearn] at h hc'
      have hlater := (keptByReading_extends _ t).search (Extends.refl (c.look t d)) ds
      rw [hagain hlearn (hlater.trans hc')]
      exact ih h hc'
    · rw [hlearn] at h hc'
      cases h
      rw [hagain hlearn hc']

theorem findScope_replay {file : Path} {answer : Option PackageScope}
    (h : (c.findScope t file).1 = .ok answer) (hc' : (c.findScope t file).2.Extends c')
    (hfile : t'.resolve file = t.resolve file) : c'.findScope t' file = (.ok answer, c') := by
  unfold findScope at h hc' ⊢
  rw [hfile]
  cases hstart : t.resolve file with
  | error e =>
    rw [hstart] at h
    cases h
  | ok start =>
    rw [hstart] at h hc'
    exact search_replay h hc'

end ScopeCache

theorem ModuleFormat.classify_replay {file : Path} {packageScoped : Bool} {format : ModuleFormat}
    (h : (classify t c file packageScoped).1 = .ok format)
    (hc' : (classify t c file packageScoped).2.Extends c')
    (hfile : t'.resolve file = t.resolve file) :
    classify t' c' file packageScoped = (.ok format, c') := by
  unfold classify at h hc' ⊢
  cases hext : ofExtension? file packageScoped with
  | some format' =>
    rw [hext] at h
    cases h
    rfl
  | none =>
    rw [hext] at h hc'
    obtain ⟨answer, hanswer⟩ : ∃ answer, c.findScope t file = answer := ⟨_, rfl⟩
    obtain ⟨f | found, left⟩ := answer
    · simp only [hanswer] at h
      cases h
    · have hagain : c'.findScope t' file = (.ok found, c') := by
        refine ScopeCache.findScope_replay (by rw [hanswer]) ?_ hfile
        rw [hanswer] at hc' ⊢
        cases found <;> exact hc'
      simp only [hanswer] at h
      simp only [hagain]
      cases found <;> cases h <;> rfl

/-- The start of a walk depends on the tree through the working directory only, and through nothing
for absolute paths. -/
theorem FileTree.resolve_congr {p : Path} (h : p.isAbsolute = true ∨ t'.cwd? = t.cwd?) :
    t'.resolve p = t.resolve p := by
  unfold resolve
  rcases h with h | h
  · rw [h]
    rfl
  · rw [h]

/-! ## The format in a tree -/

/-- The format of a file by its extension, and where that leaves it open by a walk without a
cache. -/
def FileTree.formatOf (t : FileTree) (p : Path) (packageScoped : Bool) :
    Except Fault ModuleFormat :=
  match ModuleFormat.ofExtension? p packageScoped with
  | some format => .ok format
  | none => (t.scopeOf p).map fun scope =>
      if scope.any (·.manifest.isModule) then .nodeEsm else .nodeCjs

theorem ScopeCache.Coherent.classify_eq_formatOf (hc : c.Coherent t) (p : Path)
    (packageScoped : Bool) :
    (ModuleFormat.classify t c p packageScoped).1 = t.formatOf p packageScoped := by
  unfold ModuleFormat.classify FileTree.formatOf
  cases ModuleFormat.ofExtension? p packageScoped with
  | some format => rfl
  | none =>
    rw [← hc.findScope_fst p]
    generalize c.findScope t p = answer
    obtain ⟨f | (_ | scope), c'⟩ := answer <;> rfl

/-! ## Sessions -/

/-- A tree that is in use, and the cache of what was looked up in it. -/
structure ScopeSession where
  tree : FileTree
  cache : ScopeCache := .empty

/-- What can happen in a session: a change of the tree, which may stop half way, or a call. -/
inductive SessionStep where
  | write (p : Path) (content : Content)
  | remove (p : Path)
  | call (call : ScopeCall)

namespace ScopeSession

/-- The session after a step. -/
def step (s : ScopeSession) : SessionStep → ScopeSession
  | .write p content => { s with tree := s.tree.after (.write p content) }
  | .remove p => { s with tree := s.tree.after (.remove p) }
  | .call call => { s with cache := call.leave s.tree s.cache }

/-- The session after some steps. -/
def after (s : ScopeSession) (steps : List SessionStep) : ScopeSession :=
  steps.foldl step s

theorem extends_step (s : ScopeSession) {step : SessionStep} (hstep : step ≠ .call .clear) :
    s.cache.Extends (s.step step).cache := by
  cases step with
  | write p content => exact ScopeCache.Extends.refl _
  | remove p => exact ScopeCache.Extends.refl _
  | call call => exact ScopeCall.extends_leave s.tree s.cache fun h => hstep (h ▸ rfl)

/-- Without clearing, entries last. -/
theorem extends_after (s : ScopeSession) {steps : List SessionStep}
    (hsteps : .call .clear ∉ steps) : s.cache.Extends (s.after steps).cache := by
  induction steps generalizing s with
  | nil => exact ScopeCache.Extends.refl _
  | cons step steps ih =>
    rw [List.mem_cons, not_or] at hsteps
    exact (s.extends_step (Ne.symm hsteps.1)).trans (ih _ hsteps.2)

/-- **Answers last until the cache is cleared.**  A scope or a format that has been given is given
again, whatever is written, removed and looked up in between, as long as the working directory of a
relative path is still there.  After the cache is cleared, answers are those of the tree as it is
then. -/
theorem answers_persist (s : ScopeSession) {steps : List SessionStep}
    (hsteps : .call .clear ∉ steps) (file : Path) :
    (∀ answer, (s.cache.findScope s.tree file).1 = .ok answer →
      let later := (s.step (.call (.findScope file))).after steps
      file.isAbsolute = true ∨ later.tree.cwd? = s.tree.cwd? →
        later.cache.findScope later.tree file = (.ok answer, later.cache)) ∧
    (∀ packageScoped format,
      (ModuleFormat.classify s.tree s.cache file packageScoped).1 = .ok format →
      let later := (s.step (.call (.classify file packageScoped))).after steps
      file.isAbsolute = true ∨ later.tree.cwd? = s.tree.cwd? →
        ModuleFormat.classify later.tree later.cache file packageScoped =
          (.ok format, later.cache)) ∧
    let cleared := (s.after steps).step (.call .clear)
    cleared.tree = (s.after steps).tree ∧
      (cleared.cache.findScope cleared.tree file).1 = cleared.tree.scopeOf file ∧
      ∀ packageScoped, (ModuleFormat.classify cleared.tree cleared.cache file packageScoped).1 =
        cleared.tree.formatOf file packageScoped := by
  refine ⟨?_, ?_, ?_⟩
  · intro answer hanswer later hcwd
    exact ScopeCache.findScope_replay hanswer
      (extends_after (s.step (.call (.findScope file))) hsteps) (FileTree.resolve_congr hcwd)
  · intro packageScoped format hformat later hcwd
    exact ModuleFormat.classify_replay hformat
      (extends_after (s.step (.call (.classify file packageScoped))) hsteps)
      (FileTree.resolve_congr hcwd)
  · intro cleared
    have hcoherent : cleared.cache.Coherent cleared.tree := ScopeCache.coherent_empty _
    exact ⟨rfl, hcoherent.findScope_fst file, hcoherent.classify_eq_formatOf file⟩

/-- A package of modules, seen from the directory that its files are in. -/
def modulePackage : FileTree :=
  { ScopeCache.packageWith "\x7b\"type\": \"module\"\x7d" with
    workingDirectory := ⟨["app", "src"].map fun s => Text.encode s.toList, 0⟩ }

/-- The manifest is damaged and then removed, and another one gets in its way. -/
def manifestChanges : List SessionStep :=
  [.write (.ofText "../package.json") (.file []),
   .call (.findScope (.ofText "/app/lib/b.js")),
   .remove (.ofText "/app/package.json"),
   .write (.ofText "package.json") (.file (Text.encode "\x7b\x7d".toList))]

/-- The file stays a module for the cache, which is none any more in the tree. -/
theorem answers_persist_manifestChanges :
    let s : ScopeSession := ⟨modulePackage, .empty⟩
    let file := Path.ofText "./a.js"
    let later := (s.step (.call (.classify file true))).after manifestChanges
    (.call .clear ∉ manifestChanges ∧ later.tree.cwd? = s.tree.cwd?) ∧
      (ModuleFormat.classify s.tree s.cache file true).1 = .ok .nodeEsm ∧
      (ModuleFormat.classify later.tree later.cache file true).1 = .ok .nodeEsm ∧
      later.tree.formatOf file true = .ok .nodeCjs := by
  intro s file later
  have hsteps : .call .clear ∉ manifestChanges := by simp [manifestChanges]
  have hcwd : later.tree.cwd? = s.tree.cwd? := by decide +kernel
  have hfirst : (ModuleFormat.classify s.tree s.cache file true).1 = .ok .nodeEsm := by
    decide +kernel
  have hagain := (answers_persist s hsteps file).2.1 true .nodeEsm hfirst (Or.inr hcwd)
  exact ⟨⟨hsteps, hcwd⟩, hfirst, congrArg Prod.fst hagain, by decide +kernel⟩

end ScopeSession

end ModuleMap
