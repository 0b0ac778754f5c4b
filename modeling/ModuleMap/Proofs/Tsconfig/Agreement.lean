import ModuleMap.Proofs.Tsconfig.Loading

/-!
# Trees that load alike

Loading gives a config, or fails, or has no answer.  In two trees it ends alike if it gives the same
config in both, fails in both, or has no answer in either; the faults may differ.

Without an answer there are no steps to follow, so the trees are compared by their answers.  Every
answer in the first tree is matched in the second, by the induction over loading in the first, and
every answer in the second is matched in the first.  For both it is enough that configs are visited
alike and lead to the same places, as far as loading comes.

* `ending`, `ending_cases`: what a computation comes to, whatever its fault is.
* `Matched`: answers of one computation that another one has, too.
* `Tsconfig.IsLoaded`: how far loading comes.
* `Tsconfig.ending_loadChain`, `Tsconfig.ending_load`: trees that load alike.
-/

namespace ModuleMap

variable {ε α β : Type} {x y : Option (Except ε α)}

/-! ## Endings -/

/-- What a computation comes to: a result or a failure, if it has an answer. -/
def ending (x : Option (Except ε α)) : Option (Option α) :=
  x.map Except.toOption

theorem ending_eq_none_iff : ending x = none ↔ x = none :=
  Option.map_eq_none_iff

theorem ending_eq_failure_iff : ending x = some none ↔ ∃ e, x = some (.error e) := by
  rcases x with _ | (e | a) <;> simp [ending, Except.toOption]

theorem ending_eq_result_iff {a : α} : ending x = some (some a) ↔ x = some (.ok a) := by
  rcases x with _ | (e | b) <;> simp [ending, Except.toOption]

theorem ending_map (f : α → β) (x : Option (Except ε α)) :
    ending (x.map (·.map f)) = (ending x).map (·.map f) := by
  rcases x with _ | (e | a) <;> rfl

/-- Computations that end alike have no answer, or fail, or have the same result. -/
theorem ending_cases (h : ending x = ending y) :
    (x = none ∧ y = none) ∨ (∃ e e', x = some (.error e) ∧ y = some (.error e')) ∨
      ∃ a, x = some (.ok a) ∧ y = some (.ok a) := by
  rcases x with _ | (e | a)
  · exact Or.inl ⟨rfl, ending_eq_none_iff.mp h.symm⟩
  · obtain ⟨e', he'⟩ := ending_eq_failure_iff.mp h.symm
    exact Or.inr (Or.inl ⟨e, e', rfl, he'⟩)
  · exact Or.inr (Or.inr ⟨a, rfl, ending_eq_result_iff.mp h.symm⟩)

/-- They have the same results, and both have an answer or none. -/
theorem ending_eq_iff :
    ending x = ending y ↔ (∀ a, x = some (.ok a) ↔ y = some (.ok a)) ∧ (x = none ↔ y = none) := by
  constructor
  · intro h
    refine ⟨fun a => ?_, ?_⟩
    · rw [← ending_eq_result_iff, h, ending_eq_result_iff]
    · rw [← ending_eq_none_iff, h, ending_eq_none_iff]
  · rintro ⟨hresult, hnone⟩
    rcases x with _ | (e | a)
    · rw [hnone.mp rfl]
    · rcases y with _ | (e' | b)
      · cases hnone.mpr rfl
      · rfl
      · cases (hresult b).mpr rfl
    · rw [(hresult a).mp rfl]

/-- They still do after a step that fails on every failure. -/
theorem ending_map_congr {ε' : Type} {g : Except ε α → Except ε' β}
    (hg : ∀ e, ∃ e', g (.error e) = .error e') (h : ending x = ending y) :
    ending (x.map g) = ending (y.map g) := by
  rcases ending_cases h with ⟨rfl, rfl⟩ | ⟨e, e', rfl, rfl⟩ | ⟨a, rfl, rfl⟩
  · rfl
  · obtain ⟨f, hf⟩ := hg e
    obtain ⟨f', hf'⟩ := hg e'
    rw [Option.map_some, Option.map_some, hf, hf']
    rfl
  · rfl

/-- Every answer of one computation is matched by one of the other. -/
def Matched (x y : Option (Except ε α)) : Prop :=
  ∀ r, x = some r → ending y = some r.toOption

theorem Matched.map (h : Matched x y) (f : α → β) :
    Matched (x.map (·.map f)) (y.map (·.map f)) := by
  intro r hr
  obtain ⟨r', hr', rfl⟩ := Option.map_eq_some_iff.mp hr
  rw [ending_map, h r' hr']
  cases r' <;> rfl

theorem Matched.ending_eq (h : Matched x y) (h' : Matched y x) : ending x = ending y := by
  cases x with
  | some r => exact (h r rfl).symm
  | none =>
    cases y with
    | none => rfl
    | some r => exact h' r rfl

namespace Tsconfig

variable {t u : FileTree}

/-! ## One config -/

/-- What a value of a config in a directory leads to is loaded. -/
def IsLoaded (t : FileTree) (chain : List Path.Key) (directory : Path) (value : String) : Prop :=
  ∃ c, loadChain t chain (t.extended directory value) = some (.ok c)

/-- What is layered depends only on the places that are come to. -/
theorem layerAll_matched {load load' : Path → Option (Except Fault Tsconfig)}
    {place place' : String → Path} (Loaded : String → Prop) {values : List String}
    (h : ∀ earlier value later, values = earlier ++ value :: later → (∀ e ∈ earlier, Loaded e) →
      Matched (load (place value)) (load' (place' value)) ∧
        ∀ c, load (place value) = some (.ok c) → Loaded value)
    (start : Tsconfig) :
    Matched (layerAll load start (values.map place))
      (layerAll load' start (values.map place')) := by
  induction values generalizing start with
  | nil =>
    rintro r ⟨⟩
    rfl
  | cons value values ih =>
    obtain ⟨hvalue, hloaded⟩ := h [] value values rfl (fun e he => nomatch he)
    intro r hr
    rw [List.map_cons, layerAll] at hr ⊢
    rcases hbase : load (place value) with _ | (f | c) <;> rw [hbase] at hr
    · cases hr
    · cases hr
      obtain ⟨f', hf'⟩ := ending_eq_failure_iff.mp (hvalue _ hbase)
      rw [hf']
      rfl
    · rw [ending_eq_result_iff.mp (hvalue _ hbase)]
      refine ih (fun earlier v later hsplit hearlier => ?_) _ r hr
      refine h (value :: earlier) v later ?_ (List.forall_mem_cons.mpr ⟨hloaded c hbase, hearlier⟩)
      rw [hsplit, List.cons_append]

/-- So is what becomes of a config, if it is visited alike. -/
theorem loadVisited_matched {load load' : List Path.Key → Path → Option (Except Fault Tsconfig)}
    {chain : List Path.Key} {p : Path} (Loaded : String → Prop)
    (hvisit : ∀ d, visit t chain p = .ok d ↔ visit u chain p = .ok d)
    (hbase : ∀ d earlier value later, visit t chain p = .ok d →
      d.bases = earlier ++ value :: later → (∀ e ∈ earlier, Loaded e) →
      Matched (load (p.key :: chain) (t.extended p.directory value))
          (load' (p.key :: chain) (u.extended p.directory value)) ∧
        ∀ c, load (p.key :: chain) (t.extended p.directory value) = some (.ok c) → Loaded value) :
    Matched (loadVisited t load chain p) (loadVisited u load' chain p) := by
  cases ht : visit t chain p with
  | error f =>
    cases hu : visit u chain p with
    | error f' =>
      rw [loadVisited, loadVisited, ht, hu]
      rintro r ⟨⟩
      rfl
    | ok d => cases ht.symm.trans ((hvisit d).mpr hu)
  | ok d =>
    rw [loadVisited_of_visit ht, loadVisited_of_visit ((hvisit d).mp ht)]
    exact (layerAll_matched Loaded (fun earlier value later hsplit hearlier =>
      hbase d earlier value later ht hsplit hearlier) {}).map _

/-! ## Chains -/

/-- Trees load alike along a chain if their configs are visited alike and lead to the same places.
It is said what is to hold of the configs that are come to; they are come to in the first tree. -/
theorem ending_loadChain {I : List Path.Key → Path → Prop}
    (hvisit : ∀ chain p, I chain p → ∀ d, visit t chain p = .ok d ↔ visit u chain p = .ok d)
    (hbase : ∀ chain p d earlier value later, I chain p → visit t chain p = .ok d →
      d.bases = earlier ++ value :: later →
      (∀ e ∈ earlier, IsLoaded t (p.key :: chain) p.directory e) →
      u.extended p.directory value = t.extended p.directory value ∧
        I (p.key :: chain) (t.extended p.directory value))
    {chain : List Path.Key} {p : Path} (h : I chain p) :
    ending (loadChain t chain p) = ending (loadChain u chain p) := by
  refine Matched.ending_eq (fun r hr => ?_) fun r hr => ?_
  · -- Which values are come to depends on what is loaded, so the induction says that, too.
    refine (loadChain_induct_result (motive := fun chain p r => loadChain t chain p = some r ∧
      (I chain p → ending (loadChain u chain p) = some r.toOption)) ?_ hr).2 h
    intro load ih chain p r hr
    refine ⟨?_, fun hI => ?_⟩
    · rw [loadChain_eq]
      exact loadVisited_mono (fun chain p r hr => (ih chain p r hr).1) hr
    · rw [loadChain_eq]
      refine loadVisited_matched (IsLoaded t (p.key :: chain) p.directory) (hvisit chain p hI)
        (fun d earlier value later hd hsplit hearlier => ?_) r hr
      obtain ⟨hplace, hnext⟩ := hbase chain p d earlier value later hI hd hsplit hearlier
      rw [hplace]
      exact ⟨fun r hr => (ih _ _ r hr).2 hnext, fun c hc => ⟨c, (ih _ _ _ hc).1⟩⟩
  · refine loadChain_induct_result (motive := fun chain p r =>
      I chain p → ending (loadChain t chain p) = some r.toOption) ?_ hr h
    intro load ih chain p r hr hI
    rw [loadChain_eq]
    refine loadVisited_matched (IsLoaded t (p.key :: chain) p.directory)
      (fun d => (hvisit chain p hI d).symm)
      (fun d earlier value later hd hsplit hearlier => ?_) r hr
    obtain ⟨hplace, hnext⟩ := hbase chain p d earlier value later hI
      ((hvisit chain p hI d).mpr hd) hsplit hearlier
    rw [hplace]
    exact ⟨fun r hr => ih _ _ r hr hnext,
      fun c hc => ⟨c, ending_eq_result_iff.mp (ih _ _ _ hc hnext)⟩⟩

/-- Trees load alike from a path if they do along the chain that begins there. -/
theorem ending_load {p : Path} (hresolve : u.resolve p = t.resolve p)
    (h : ∀ path, t.resolve p = .ok path →
      ending (loadChain t [] path) = ending (loadChain u [] path)) :
    ending (load t p) = ending (load u p) := by
  unfold load
  rw [hresolve]
  cases hpath : t.resolve p with
  | error e => rfl
  | ok path =>
    exact ending_map_congr (fun e => ⟨e, rfl⟩) (h path hpath)

end Tsconfig

end ModuleMap
