import ModuleMap.Proofs.FirstFailure
import ModuleMap.Tsconfig.Load

/-!
# Loading, one config at a time

Loading a config is two things: visiting it, which may fail, and loading what it extends, one config
after the other, each layered over the ones before.  This file says so in an equation, and gives the
induction that goes with it: what holds of a config when it holds of all that it extends holds of
every config that can be loaded.

* `FileTree.basesOf`: the configs that a config extends, in order.
* `Tsconfig.layerAll`, `Tsconfig.loadAll`: configs loaded one after the other.
* `Tsconfig.loadChain_eq`: loading a config by loading those.
* `Tsconfig.loadChain_induct_result`, `Tsconfig.loadChain_induct`: the induction over loading.
* `Tsconfig.loadWithin`: loading along chains of bounded depth, which can be evaluated.
* `Tsconfig.load_eq`, `Tsconfig.load_eq_ok_iff`: loading from a path.
-/

namespace ModuleMap

/-- The paths of the configs that the config at a path extends, in order. -/
def FileTree.basesOf (t : FileTree) (p : Path) (d : Declared) : List Path :=
  d.bases.map (t.extended p.directory)

/-- What a file declares is what the text in it declares. -/
theorem Declared.load_eq_ok_iff {t : FileTree} {p : Path} {d : Declared} :
    Declared.load t p = .ok d ↔ ∃ text, t.readLossy p = .ok text ∧ Declared.parse text = .ok d := by
  unfold Declared.load
  cases t.readLossy p with
  | error e => simp
  | ok text => cases hd : Declared.parse text <;> simp [hd]

namespace Tsconfig

/-- Configs loaded one after the other, each layered over the ones before; the first fault ends
this. -/
def layerAll (load : Path → Option (Except Fault Tsconfig)) :
    Tsconfig → List Path → Option (Except Fault Tsconfig)
  | earlier, [] => some (.ok earlier)
  | earlier, p :: ps =>
    match load p with
    | none => none
    | some (.error f) => some (.error f)
    | some (.ok c) => layerAll load (earlier.inherit c) ps

/-- The configs of a chain loaded one after the other. -/
def loadAll (t : FileTree) (chain : List Path.Key) :
    Tsconfig → List Path → Option (Except Fault Tsconfig) :=
  layerAll (loadChain t chain)

@[simp] theorem loadAll_nil (t : FileTree) (chain : List Path.Key) (earlier : Tsconfig) :
    loadAll t chain earlier [] = some (.ok earlier) := rfl

theorem loadAll_cons (t : FileTree) (chain : List Path.Key) (earlier : Tsconfig) (p : Path)
    (ps : List Path) :
    loadAll t chain earlier (p :: ps) =
      match loadChain t chain p with
      | none => none
      | some (.error f) => some (.error f)
      | some (.ok c) => loadAll t chain (earlier.inherit c) ps := rfl

/-- What a config is, given what loading along the longer chain gives. -/
def loadVisited (t : FileTree) (load : List Path.Key → Path → Option (Except Fault Tsconfig))
    (chain : List Path.Key) (p : Path) : Option (Except Fault Tsconfig) :=
  match visit t chain p with
  | .error f => some (.error f)
  | .ok d => do
    let inherited ← layerAll (load (p.key :: chain)) {} (t.basesOf p d)
    return inherited.map (·.declare p.directory d)

theorem visit_eq_ok_iff {t : FileTree} {chain : List Path.Key} {p : Path} {d : Declared} :
    visit t chain p = .ok d ↔ p.key ∉ chain ∧ Declared.load t p = .ok d := by
  rw [visit]
  split
  · next hmem => simp [hmem]
  · next hmem => simp [hmem]

/-- A list of configs is loaded if its first one is and the others are layered over that. -/
theorem layerAll_cons_eq_ok_iff {load : Path → Option (Except Fault Tsconfig)}
    {earlier c : Tsconfig} {p : Path} {ps : List Path} :
    layerAll load earlier (p :: ps) = some (.ok c) ↔
      ∃ base, load p = some (.ok base) ∧
        layerAll load (earlier.inherit base) ps = some (.ok c) := by
  rw [layerAll]
  rcases hbase : load p with _ | (f | base)
  · simp
  · simp
  · simp

/-- All configs of a list that is loaded are loaded. -/
theorem exists_of_layerAll {load : Path → Option (Except Fault Tsconfig)} {earlier c : Tsconfig}
    {ps : List Path} (h : layerAll load earlier ps = some (.ok c)) :
    ∀ p ∈ ps, ∃ base, load p = some (.ok base) := by
  induction ps generalizing earlier with
  | nil => simp
  | cons p ps ih =>
    obtain ⟨base, hbase, hrest⟩ := layerAll_cons_eq_ok_iff.mp h
    exact List.forall_mem_cons.mpr ⟨⟨base, hbase⟩, ih hrest⟩

/-- Once a config is visited, what it is comes from what it extends. -/
theorem loadVisited_of_visit {t : FileTree}
    {load : List Path.Key → Path → Option (Except Fault Tsconfig)} {chain : List Path.Key}
    {p : Path} {d : Declared} (hd : visit t chain p = .ok d) :
    loadVisited t load chain p =
      (layerAll (load (p.key :: chain)) {} (t.basesOf p d)).map
        (·.map (·.declare p.directory d)) := by
  rw [loadVisited, hd]
  show (layerAll (load (p.key :: chain)) {} (t.basesOf p d) >>= _) = _
  cases layerAll (load (p.key :: chain)) {} (t.basesOf p d) <;> rfl

/-- A config is loaded if it can be visited and all that it extends is loaded. -/
theorem loadVisited_eq_ok_iff {t : FileTree}
    {load : List Path.Key → Path → Option (Except Fault Tsconfig)} {chain : List Path.Key}
    {p : Path} {c : Tsconfig} :
    loadVisited t load chain p = some (.ok c) ↔
      ∃ d inherited, visit t chain p = .ok d ∧
        layerAll (load (p.key :: chain)) {} (t.basesOf p d) = some (.ok inherited) ∧
        c = inherited.declare p.directory d := by
  cases hd : visit t chain p with
  | error f =>
    rw [loadVisited, hd]
    simp
  | ok d =>
    rw [loadVisited_of_visit hd, map_map_eq_ok_iff]
    simp [eq_comm]

/-- After a fault nothing is layered any more. -/
theorem foldlM_error (load : Path → Option (Except Fault Tsconfig)) (place : String → Path)
    (values : List String) (f : Fault) :
    values.foldlM
      (fun (earlier : Except Fault Tsconfig) value =>
        match earlier with
        | .error f => some (.error f)
        | .ok c => do
          let base ← load (place value)
          return base.map c.inherit)
      (.error f) = some (.error f) := by
  induction values with
  | nil => rfl
  | cons value values ih =>
    rw [List.foldlM_cons]
    exact ih

/-- The loop over the `extends` values layers the configs that they name. -/
theorem foldlM_eq_layerAll (load : Path → Option (Except Fault Tsconfig)) (place : String → Path)
    (values : List String) (earlier : Tsconfig) :
    values.foldlM
      (fun (earlier : Except Fault Tsconfig) value =>
        match earlier with
        | .error f => some (.error f)
        | .ok c => do
          let base ← load (place value)
          return base.map c.inherit)
      (.ok earlier) = layerAll load earlier (values.map place) := by
  induction values generalizing earlier with
  | nil => rfl
  | cons value values ih =>
    rw [List.foldlM_cons, List.map_cons, layerAll]
    rcases hbase : load (place value) with _ | (f | c)
    · rfl
    · exact foldlM_error load place values f
    · exact ih (earlier.inherit c)

/-- A config is loaded by visiting it and layering what it declares over the configs that it
extends. -/
theorem loadChain_eq (t : FileTree) (chain : List Path.Key) (p : Path) :
    loadChain t chain p = loadVisited t (loadChain t) chain p := by
  rw [loadChain, loadVisited]
  cases visit t chain p with
  | error f => rfl
  | ok d =>
    exact congrArg (· >>= _)
      (foldlM_eq_layerAll (loadChain t (p.key :: chain)) (t.extended p.directory) d.bases {})

/-- What holds of the result for a config, provided that it holds of the results for all configs
that it extends, holds of every result. -/
theorem loadChain_induct_result {t : FileTree}
    {motive : List Path.Key → Path → Except Fault Tsconfig → Prop}
    (h : ∀ load : List Path.Key → Path → Option (Except Fault Tsconfig),
      (∀ chain p r, load chain p = some r → motive chain p r) →
      ∀ chain p r, loadVisited t load chain p = some r → motive chain p r)
    {chain : List Path.Key} {p : Path} {r : Except Fault Tsconfig}
    (hr : loadChain t chain p = some r) : motive chain p r := by
  refine loadChain.partial_correctness t motive (fun load ih chain p r hr => ?_) chain p r hr
  refine h load ih chain p r ?_
  rw [loadVisited, ← hr]
  cases visit t chain p with
  | error f => rfl
  | ok d =>
    exact congrArg (· >>= _)
      (foldlM_eq_layerAll (load (p.key :: chain)) (t.extended p.directory) d.bases {}).symm

/-- What holds of a visited config, provided that it holds of all configs that it extends, holds of
every config that can be loaded. -/
theorem loadChain_induct {t : FileTree} {motive : List Path.Key → Path → Tsconfig → Prop}
    (h : ∀ load : List Path.Key → Path → Option (Except Fault Tsconfig),
      (∀ chain p c, load chain p = some (.ok c) → motive chain p c) →
      ∀ chain p d inherited, visit t chain p = .ok d →
        layerAll (load (p.key :: chain)) {} (t.basesOf p d) = some (.ok inherited) →
        motive chain p (inherited.declare p.directory d))
    {chain : List Path.Key} {p : Path} {c : Tsconfig}
    (hc : loadChain t chain p = some (.ok c)) : motive chain p c := by
  refine loadChain_induct_result (motive := fun chain p r => ∀ c, r = .ok c → motive chain p c)
    (fun load ih chain p r hr c hrc => ?_) hc c rfl
  subst hrc
  obtain ⟨d, inherited, hd, hbases, rfl⟩ := loadVisited_eq_ok_iff.mp hr
  exact h load (fun chain p c hc => ih chain p _ hc c rfl) chain p d inherited hd hbases

/-! ## Chains of bounded depth -/

/-- Loading along chains that grow by less than the given number of configs. -/
def loadWithin (t : FileTree) : Nat → List Path.Key → Path → Option (Except Fault Tsconfig)
  | 0, _, _ => none
  | n + 1, chain, p => loadVisited t (loadWithin t n) chain p

/-- What is layered depends on how the given configs are loaded. -/
theorem layerAll_congr {load load' : Path → Option (Except Fault Tsconfig)} {ps : List Path}
    (h : ∀ p ∈ ps, load p = load' p) (earlier : Tsconfig) :
    layerAll load earlier ps = layerAll load' earlier ps := by
  induction ps generalizing earlier with
  | nil => rfl
  | cons p ps ih =>
    rw [List.forall_mem_cons] at h
    rw [layerAll, layerAll, h.1]
    rcases load' p with _ | (f | c)
    · rfl
    · rfl
    · exact ih h.2 (earlier.inherit c)

/-- What has an answer keeps it where more has answers. -/
theorem layerAll_mono {load load' : Path → Option (Except Fault Tsconfig)}
    (h : ∀ p r, load p = some r → load' p = some r) {ps : List Path} {earlier : Tsconfig}
    {r : Except Fault Tsconfig} (hr : layerAll load earlier ps = some r) :
    layerAll load' earlier ps = some r := by
  induction ps generalizing earlier with
  | nil => exact hr
  | cons p ps ih =>
    rw [layerAll] at hr ⊢
    rcases hbase : load p with _ | (f | base) <;> rw [hbase] at hr
    · cases hr
    · rwa [h p _ hbase]
    · rw [h p _ hbase]
      exact ih hr

theorem loadVisited_mono {t : FileTree}
    {load load' : List Path.Key → Path → Option (Except Fault Tsconfig)}
    (h : ∀ chain p r, load chain p = some r → load' chain p = some r) {chain : List Path.Key}
    {p : Path} {r : Except Fault Tsconfig} (hr : loadVisited t load chain p = some r) :
    loadVisited t load' chain p = some r := by
  cases hd : visit t chain p with
  | error f =>
    rw [loadVisited, hd] at hr ⊢
    exact hr
  | ok d =>
    rw [loadVisited_of_visit hd] at hr ⊢
    obtain ⟨inherited, hbases, rfl⟩ := Option.map_eq_some_iff.mp hr
    rw [layerAll_mono (h (p.key :: chain)) hbases, Option.map_some]

/-- What has an answer along chains of bounded depth has it along any. -/
theorem loadChain_of_loadWithin {t : FileTree} {n : Nat} {chain : List Path.Key} {p : Path}
    {r : Except Fault Tsconfig} (h : loadWithin t n chain p = some r) :
    loadChain t chain p = some r := by
  induction n generalizing chain p r with
  | zero => cases h
  | succ n ih =>
    rw [loadChain_eq]
    exact loadVisited_mono (fun _ _ _ hr => ih hr) h

/-! ## Loading from a path -/

/-- A path that has a normal form is loaded as a chain of its own. -/
theorem load_eq {t : FileTree} {p path : Path} (hpath : t.resolve p = .ok path) :
    load t p = (loadChain t [] path).map (·.map fun c => { c with path }) := by
  rw [load, hpath]

/-- A config is loaded only if its path has a normal form and the chain from there ends well. -/
theorem load_eq_ok_iff {t : FileTree} {p : Path} {c : Tsconfig} :
    load t p = some (.ok c) ↔
      ∃ path c', t.resolve p = .ok path ∧ loadChain t [] path = some (.ok c') ∧
        c = { c' with path } := by
  constructor
  · intro h
    cases hpath : t.resolve p with
    | error e =>
      rw [load, hpath] at h
      cases h
    | ok path =>
      rw [load_eq hpath] at h
      obtain ⟨c', hr, rfl⟩ := map_map_eq_ok_iff.mp h
      exact ⟨path, c', rfl, hr, rfl⟩
  · rintro ⟨path, c', hpath, hr, rfl⟩
    rw [load_eq hpath]
    exact map_map_eq_ok_iff.mpr ⟨c', hr, rfl⟩

/-- A config whose chains are short can be loaded by evaluation. -/
theorem load_of_loadWithin {t : FileTree} {p path : Path} {n : Nat} {c : Tsconfig}
    (hpath : t.resolve p = .ok path)
    (h : (loadWithin t n [] path).bind Except.toOption = some c) :
    load t p = some (.ok { c with path }) := by
  obtain ⟨r, hr, hc⟩ := Option.bind_eq_some_iff.mp h
  cases r with
  | error f => cases hc
  | ok c' =>
    cases hc
    exact load_eq_ok_iff.mpr ⟨path, c, hpath, loadChain_of_loadWithin hr, rfl⟩

end Tsconfig

end ModuleMap
