import Mathlib.Data.FinEnum
import Mathlib.Data.Set.Card
import Mathlib.Data.Set.Finite.List
import ModuleMap.Proofs.FileTree.Files
import ModuleMap.Proofs.Tsconfig.Extended
import ModuleMap.Proofs.Tsconfig.Traversal

/-!
# When chains of configs end

A chain ends when it comes back to a config that is on it already, and configs are told apart by the
names in their paths.  A file of many names can so be on a chain many times.  The paths that are
taken from the directory of a config are in normal form; those that are looked up in `node_modules`
are joined as they are written, so that each `..` in the name of a package stays in the path, and in
the paths of all that is extended from there.

Where no package is named with a `..`, the paths have none, and a chain holds each file at most
once.  Where one is, the paths can grow without end, and only a bound on their length ends the
chain.

* `Declared.NamesPlainPackages`: configs that name no package with a `..`.
* `Visit.Loaded`: what is known of the configs on a chain.
* `Tsconfig.loadWithin_of_traversal`: how deep loading goes.
* `Tsconfig.exists_loadChain_of_pathLimit`, `Tsconfig.exists_load`: with a bound on the length of
  paths, loading ends.
* `Tsconfig.load_of_namesPlainPackages`: so it does where no package is named with a `..`, and then
  each cycle of files is found.
* `Tsconfig.loadChain_endless`: a config that extends itself and is never found to do so.
-/

namespace ModuleMap

open Relation

variable {t : FileTree}

/-- No package that the config extends is named with a `..`. -/
def Declared.NamesPlainPackages (d : Declared) : Prop :=
  ∀ value ∈ d.bases, FileTree.isPathValue value = false →
    Path.dotDot ∉ (Path.ofText value).segments

instance (d : Declared) : Decidable d.NamesPlainPackages :=
  inferInstanceAs (Decidable (∀ value ∈ d.bases, FileTree.isPathValue value = false →
    Path.dotDot ∉ (Path.ofText value).segments))

/-! ## The configs on a chain -/

/-- The configs on the chain of a visit can be read, and no two of them are namesakes. -/
structure Visit.Loaded (t : FileTree) (v : Visit) : Prop where
  exists_load : ∀ f ∈ v.chain, ∃ d, Declared.load t f = .ok d
  pairwise : v.chain.Pairwise fun f g => f.components ≠ g.components

theorem Traversal.loaded {root : Path} {vs : List Visit} (h : Traversal t [] [root] vs) :
    ∀ v ∈ vs, v.Loaded t := by
  refine h.forall_mem (fun chain p hp hfault g _ => ?_) fun p _ => ⟨by simp, .nil⟩
  obtain ⟨hnew, hread⟩ := (Visit.fault?_eq_none_iff _).mp hfault
  exact ⟨List.forall_mem_cons.mpr ⟨hread, hp.exists_load⟩,
    List.pairwise_cons.mpr ⟨hnew, hp.pairwise⟩⟩

/-- A visit to a config that can be read fails only if the config is on the chain already. -/
theorem Visit.eq_configCycle_of_fault? {v : Visit} {d : Declared} {e : Fault}
    (hd : Declared.load t v.path = .ok d) (he : v.fault? t = some e) :
    e = .configCycle v.path := by
  by_cases hmem : v.path.components ∈ v.chain.map Path.components
  · unfold Visit.fault? at he
    rw [if_pos hmem] at he
    exact (Option.some_inj.mp he).symm
  · have hnone : v.fault? t = none := by
      rw [Visit.fault?_eq_none_iff]
      refine ⟨fun g hg heq => hmem ?_, d, hd⟩
      rw [heq]
      exact List.mem_map_of_mem hg
    cases hnone.symm.trans he

/-- A config that can be read is a file. -/
theorem FileTree.sameFile_self_of_load {p : Path} {d : Declared} (h : Declared.load t p = .ok d) :
    t.SameFile p p := by
  obtain ⟨text, htext, -⟩ := Declared.load_eq_ok_iff.mp h
  exact sameFile_self_of_readLossy htext

section

variable {v : Visit} (h : v.Loaded t) (hplain : ∀ f ∈ v.chain, f.IsPlain)
include h hplain

/-- Configs of plain paths that are on one chain are different files. -/
theorem Visit.Loaded.pairwise_not_sameFile :
    v.chain.Pairwise fun f g => ¬t.SameFile f g := by
  refine h.pairwise.imp_of_mem fun {f g} hf hg hne hsame => hne ?_
  exact hsame.components_eq (hplain f hf) (hplain g hg)

/-- So there are no more of them than there are files. -/
theorem Visit.Loaded.length_chain_le : v.chain.length ≤ t.fileLocations.ncard := by
  have hnodup : (v.chain.map Path.names).Nodup := by
    rw [List.Nodup, List.pairwise_map]
    refine h.pairwise.imp_of_mem fun {f g} hf hg hne hnames => hne ?_
    unfold Path.components
    rw [hnames, Path.anchor_eq_root_iff.mpr (hplain f hf).isAbsolute,
      Path.anchor_eq_root_iff.mpr (hplain g hg).isAbsolute]
  have hsub : ((v.chain.map Path.names).toFinset : Set Location) ⊆ t.fileLocations := by
    intro l hl
    obtain ⟨f, hf, rfl⟩ := List.mem_map.mp (List.mem_toFinset.mp hl)
    obtain ⟨d, hd⟩ := h.exists_load f hf
    exact FileTree.names_mem_fileLocations (hplain f hf) (FileTree.sameFile_self_of_load hd)
  calc v.chain.length = (v.chain.map Path.names).toFinset.card := by
        rw [List.toFinset_card_of_nodup hnodup, List.length_map]
    _ = ((v.chain.map Path.names).toFinset : Set Location).ncard :=
        (Set.ncard_coe_finset _).symm
    _ ≤ t.fileLocations.ncard := Set.ncard_le_ncard hsub t.finite_fileLocations

end

namespace Tsconfig

/-! ## How deep loading goes -/

/-- Configs are loaded within a bound on how much the chains of the visits grow. -/
theorem loadWithin_of_traversal {chain ps : List Path} {vs : List Visit}
    (h : Traversal t chain ps vs) {n : ℕ} (hn : ∀ v ∈ vs, v.chain.length < chain.length + n) :
    ∀ p ∈ ps, loadWithin t n (chain.map Path.key) p = loadChain t (chain.map Path.key) p := by
  induction h generalizing n with
  | nil => simp
  | @fail chain p ps e after he _ ih =>
    obtain ⟨hpos, hafter⟩ := List.forall_mem_cons.mp hn
    obtain ⟨m, rfl⟩ := Nat.exists_eq_add_one.mpr (Nat.pos_of_lt_add_right hpos)
    have hvisit : visit t (chain.map Path.key) p = .error e := by rw [visit_eq, he]
    have hload : loadWithin t (m + 1) (chain.map Path.key) p =
        loadChain t (chain.map Path.key) p := by
      rw [loadChain_eq, loadWithin, loadVisited, loadVisited, hvisit]
    exact List.forall_mem_cons.mpr ⟨hload, ih hafter⟩
  | @follow chain p ps d below after hfault hd _ _ ihbelow ihafter =>
    rw [List.forall_mem_cons, List.forall_mem_append] at hn
    obtain ⟨hpos, hbelow, hafter⟩ := hn
    obtain ⟨m, rfl⟩ := Nat.exists_eq_add_one.mpr (Nat.pos_of_lt_add_right hpos)
    have hvisit : visit t (chain.map Path.key) p = .ok d := by rw [visit_eq, hfault, hd]
    have hbases : ∀ q ∈ t.basesOf p d, loadWithin t m (p.key :: chain.map Path.key) q =
        loadChain t (p.key :: chain.map Path.key) q := by
      refine ihbelow fun v hv => ?_
      have hlt := hbelow v hv
      rw [List.length_cons]
      omega
    have hload : loadWithin t (m + 1) (chain.map Path.key) p =
        loadChain t (chain.map Path.key) p := by
      rw [loadChain_eq, loadWithin, loadVisited, loadVisited, hvisit]
      simp only [layerAll_congr hbases]
    exact List.forall_mem_cons.mpr ⟨hload, ihafter hafter⟩

/-! ## Chains that end -/

/-- With a bound on the length of paths, every chain ends: only finitely many paths can be read. -/
theorem exists_loadChain_of_pathLimit {limit : ℕ} (hlimit : t.pathLimit = some limit)
    (root : Path) : ∃ r, loadChain t [] root = some r := by
  have hfinite : {p : Path | p.bytes.length ≤ limit}.Finite := by
    have hinj : Function.Injective Path.bytes := fun p q h => by
      cases p
      cases q
      exact congrArg Path.mk h
    exact (List.finite_length_le UInt8 limit).preimage hinj.injOn
  have hkeys : ∀ f d, True → Declared.load t f = .ok d →
      f.components ∈ hfinite.toFinset.image Path.components := by
    intro f d _ hd
    obtain ⟨place, -, hplace, -⟩ := FileTree.sameFile_self_of_load hd
    have hrefusal : t.refusal? f = none := by
      cases hr : t.refusal? f with
      | none => rfl
      | some e => simp [FileTree.locate, hr] at hplace
    obtain ⟨-, -, hexceeds⟩ := FileTree.refusal?_eq_none_iff.mp hrefusal
    have hle : f.bytes.length ≤ limit := by
      simpa [FileTree.exceeds, hlimit] using hexceeds
    exact Finset.mem_image_of_mem _ (hfinite.mem_toFinset.mpr hle)
  have htraversal : ∃ vs, Traversal t [] [root] vs :=
    Traversal.exists_of_closed (fun _ _ _ _ => trivial) hkeys fun _ _ => trivial
  obtain ⟨vs, hvs⟩ := htraversal
  obtain ⟨r, hr, -⟩ := exists_loadChain_of_traversal hvs
  exact ⟨r, hr⟩

/-- Loading has an answer if paths are bounded in length or no more than finitely many configs can
be reached. -/
theorem exists_load {p root : Path} (hroot : t.resolve p = .ok root)
    (hends : (∃ limit, t.pathLimit = some limit) ∨
      {g | ReflTransGen (Extends t) root g}.Finite) : ∃ r, load t p = some r := by
  have hchain : ∃ r, loadChain t [] root = some r := by
    rcases hends with ⟨limit, hlimit⟩ | hfinite
    · exact exists_loadChain_of_pathLimit hlimit root
    · obtain ⟨vs, hvs⟩ := Traversal.exists_of_finite hfinite
      obtain ⟨r, hr, -⟩ := exists_loadChain_of_traversal hvs
      exact ⟨r, hr⟩
  obtain ⟨r, hr⟩ := hchain
  exact ⟨_, by rw [load_eq hroot, hr, Option.map_some]⟩

/-- From a path in normal form, without packages that are named with a `..`, only paths without `..`
are reached. -/
theorem isPlain_of_reaches {p root : Path} (hroot : t.resolve p = .ok root)
    (hpackages : ∀ f d, ReflTransGen (Extends t) root f → Declared.load t f = .ok d →
      d.NamesPlainPackages) {f : Path} (hf : ReflTransGen (Extends t) root f) : f.IsPlain := by
  induction hf with
  | refl => exact FileTree.isPlain_of_resolve hroot
  | @tail f g hf hg ih =>
    obtain ⟨d, hd, hmem⟩ := hg
    obtain ⟨value, hvalue, rfl⟩ := List.mem_map.mp hmem
    exact t.isPlain_extended ih.directory fun hpath => hpackages f d hf hd value hvalue hpath

/-- Then there is a traversal. -/
theorem exists_traversal_of_namesPlainPackages {p root : Path} (hroot : t.resolve p = .ok root)
    (hpackages : ∀ f d, ReflTransGen (Extends t) root f → Declared.load t f = .ok d →
      d.NamesPlainPackages) : ∃ vs, Traversal t [] [root] vs := by
  have hkeys : ∀ f d, ReflTransGen (Extends t) root f → Declared.load t f = .ok d →
      f.components ∈ t.finite_fileLocations.toFinset.image (Prod.mk Path.Anchor.root) := by
    intro f d hf hd
    have hplain := isPlain_of_reaches hroot hpackages hf
    have hmem := FileTree.names_mem_fileLocations hplain (FileTree.sameFile_self_of_load hd)
    refine Finset.mem_image.mpr ⟨f.names, t.finite_fileLocations.mem_toFinset.mpr hmem, ?_⟩
    rw [Path.components, Path.anchor_eq_root_iff.mpr hplain.isAbsolute]
  refine Traversal.exists_of_closed (fun f g hf hg => hf.tail hg) hkeys fun q hq => ?_
  rw [List.mem_singleton.mp hq]

/-- Where all configs can be read and one of them reaches itself, the first fault is a cycle: some
visit fails, and there is no other reason. -/
theorem exists_configCycle {root : Path} {vs : List Visit} (hvs : Traversal t [] [root] vs)
    (hread : ∀ f, ReflTransGen (Extends t) root f → ∃ d, Declared.load t f = .ok d) {f g : Path}
    (hf : ReflTransGen (Extends t) root f) (hfg : TransGen (Extends t) f g)
    (hcomponents : g.components = f.components) :
    ∃ q, vs.findSome? (Visit.fault? t) = some (.configCycle q) := by
  have hfails : vs.findSome? (Visit.fault? t) ≠ none := by
    rw [Ne, List.findSome?_eq_none_iff, hvs.fault?_eq_none_iff]
    exact fun hnone => (hnone f hf).2 g hfg hcomponents
  obtain ⟨e, he⟩ := Option.ne_none_iff_exists'.mp hfails
  obtain ⟨v, hv, hfault⟩ := List.exists_of_findSome?_eq_some he
  obtain ⟨d, hd⟩ := hread v.path (hvs.linked_root v hv).1
  obtain rfl := Visit.eq_configCycle_of_fault? hd hfault
  exact ⟨v.path, he⟩

/-- **Cycles are found by file where no package is named with a `..`.**  Then loading ends, and goes
no deeper than there are files, and one step more.  The configs that are being loaded at any time
are different files, and a config that is one of these files under whatever path is found to be a
cycle.  The fault is that of the first visit that fails; so if all configs can be read and some of
them extends itself, it is a cycle. -/
theorem load_of_namesPlainPackages {p root : Path} (hroot : t.resolve p = .ok root)
    (hpackages : ∀ f d, ReflTransGen (Extends t) root f → Declared.load t f = .ok d →
      d.NamesPlainPackages) :
    (∃ r, loadChain t [] root = some r ∧
        loadWithin t (t.fileLocations.ncard + 1) [] root = some r) ∧
      ∃ vs, (∀ ws, Traversal t [] [root] ws ↔ ws = vs) ∧
        (∀ v ∈ vs, v.chain.Pairwise (fun f g => ¬t.SameFile f g) ∧
          v.chain.length ≤ t.fileLocations.ncard ∧
          ∀ f ∈ v.chain, t.SameFile f v.path → v.fault? t = some (.configCycle v.path)) ∧
        (∀ e, load t p = some (.error e) ↔ vs.findSome? (Visit.fault? t) = some e) ∧
        ((∀ f, ReflTransGen (Extends t) root f → ∃ d, Declared.load t f = .ok d) →
          ∀ f g, ReflTransGen (Extends t) root f → TransGen (Extends t) f g → t.SameFile f g →
            ∃ q, load t p = some (.error (.configCycle q))) := by
  obtain ⟨vs, hvs⟩ := exists_traversal_of_namesPlainPackages hroot hpackages
  have hplain : ∀ v ∈ vs, v.path.IsPlain ∧ ∀ f ∈ v.chain, f.IsPlain := by
    intro v hv
    obtain ⟨hreach, hchain⟩ := hvs.linked_root v hv
    exact ⟨isPlain_of_reaches hroot hpackages hreach,
      fun f hf => isPlain_of_reaches hroot hpackages (hchain f hf).1⟩
  have hlength : ∀ v ∈ vs, v.chain.length ≤ t.fileLocations.ncard :=
    fun v hv => (hvs.loaded v hv).length_chain_le (hplain v hv).2
  have herror := load_eq_error_iff hroot hvs
  refine ⟨?_, vs, hvs.iff_eq, fun v hv => ⟨?_, hlength v hv, ?_⟩, herror, ?_⟩
  · obtain ⟨r, hr, -⟩ := exists_loadChain_of_traversal hvs
    have hwithin := loadWithin_of_traversal hvs (n := t.fileLocations.ncard + 1)
      (fun v hv => by have := hlength v hv; simp only [List.length_nil]; omega) root (by simp)
    exact ⟨r, hr, hwithin.trans hr⟩
  · exact (hvs.loaded v hv).pairwise_not_sameFile (hplain v hv).2
  · intro f hf hsame
    have hcomponents := hsame.components_eq ((hplain v hv).2 f hf) (hplain v hv).1
    unfold Visit.fault?
    rw [if_pos (hcomponents ▸ List.mem_map_of_mem hf)]
  · intro hread f g hf hfg hsame
    have hg : ReflTransGen (Extends t) root g := hf.trans hfg.to_reflTransGen
    have hcomponents := hsame.components_eq (isPlain_of_reaches hroot hpackages hf)
      (isPlain_of_reaches hroot hpackages hg)
    obtain ⟨q, hq⟩ := exists_configCycle hvs hread hf hfg hcomponents.symm
    exact ⟨q, (herror _).mpr hq⟩

/-- A config that extends a package, which extends the config. -/
def packageCycle : FileTree where
  contents :=
    [(Text.encode "app.json".toList, configFile [("extends", .string "base")]),
     (Text.encode "node_modules".toList, .directory
        [(Text.encode "base".toList, .directory
          [(Text.encode "tsconfig.json".toList,
            configFile [("extends", .string "../../app.json")])])])]

/-- The two configs of `packageCycle`. -/
def packageCycleFiles : List Path :=
  [.ofText "/app.json", .ofText "/node_modules/base/tsconfig.json"]

/-- Both configs can be read, and the one leads to the other; that is found to be a cycle. -/
theorem load_of_namesPlainPackages_packageCycle :
    (∀ f, ReflTransGen (Extends packageCycle) (.ofText "/app.json") f →
        ∃ d, Declared.load packageCycle f = .ok d ∧ d.NamesPlainPackages) ∧
      ∃ q, load packageCycle (.ofText "/app.json") = some (.error (.configCycle q)) := by
  have happ : Declared.load packageCycle (.ofText "/app.json") = .ok { bases := ["base"] } := by
    decide +kernel
  have hbase : Declared.load packageCycle (.ofText "/node_modules/base/tsconfig.json") =
      .ok { bases := ["../../app.json"] } := by decide +kernel
  have hfiles : ∀ f, ReflTransGen (Extends packageCycle) (.ofText "/app.json") f →
      f ∈ packageCycleFiles :=
    fun f hf => mem_of_reaches (by decide) (by decide +kernel) hf
  have hread : ∀ f, ReflTransGen (Extends packageCycle) (.ofText "/app.json") f →
      ∃ d, Declared.load packageCycle f = .ok d ∧ d.NamesPlainPackages := by
    intro f hf
    have hmem := hfiles f hf
    rw [packageCycleFiles, List.mem_cons, List.mem_singleton] at hmem
    rcases hmem with rfl | rfl
    · exact ⟨_, happ, by decide⟩
    · exact ⟨_, hbase, by decide⟩
  have hout : Extends packageCycle (.ofText "/app.json")
      (.ofText "/node_modules/base/tsconfig.json") := ⟨_, happ, by decide +kernel⟩
  have hback : Extends packageCycle (.ofText "/node_modules/base/tsconfig.json")
      (.ofText "/app.json") := ⟨_, hbase, by decide +kernel⟩
  have hpackages : ∀ f d, ReflTransGen (Extends packageCycle) (.ofText "/app.json") f →
      Declared.load packageCycle f = .ok d → d.NamesPlainPackages := by
    intro f d hf hd
    obtain ⟨d', hd', hplain⟩ := hread f hf
    cases hd.symm.trans hd'
    exact hplain
  have hroot : packageCycle.resolve (.ofText "/app.json") = .ok (.ofText "/app.json") := by
    decide +kernel
  refine ⟨hread, ?_⟩
  obtain ⟨-, vs, -, -, -, hfound⟩ := load_of_namesPlainPackages hroot hpackages
  exact hfound (fun f hf => (hread f hf).imp fun d hd => hd.1) _ _ .refl
    (.tail (.single hout) hback) (FileTree.sameFile_self_of_load happ)

/-! ## A chain without end -/

/-- A directory with an empty directory of packages and a config that extends the package `..`. -/
def endless : FileTree where
  contents :=
    [(Text.encode "p".toList, .directory
        [(Text.encode "tsconfig.json".toList, configFile [("extends", .string "..")]),
         (Text.encode "node_modules".toList, .directory [])])]

/-- The name of the directory. -/
def projectName : Segment := Text.encode "p".toList

/-- The way from the directory to its packages and back, some times over. -/
def detour (n : ℕ) : List Segment :=
  (List.replicate n [packagesName.bytes, Path.dotDot]).flatten

/-- The path of the config after some detours. -/
def endlessConfig (n : ℕ) : Path :=
  .ofBody .root (projectName :: detour n ++ [configName.bytes])

/-- The paths with fewer detours, those with the most first. -/
def endlessChain (n : ℕ) : List Path :=
  ((List.range n).map endlessConfig).reverse

theorem detour_succ (n : ℕ) : detour (n + 1) = detour n ++ [packagesName.bytes, Path.dotDot] := by
  unfold detour
  rw [List.replicate_succ', List.flatten_append, List.flatten_singleton]

theorem length_detour (n : ℕ) : (detour n).length = 2 * n := by
  induction n with
  | zero => rfl
  | succ n ih =>
    rw [detour_succ, List.length_append, ih]
    rfl

theorem endlessChain_succ (n : ℕ) :
    endlessChain (n + 1) = endlessConfig n :: endlessChain n := by
  unfold endlessChain
  rw [List.range_succ, List.map_append, List.reverse_append]
  rfl

/-- The segments of the path are names, and there is no NUL byte in them. -/
theorem isNaming_of_mem_endless {n : ℕ} {s : Segment}
    (hs : s ∈ projectName :: detour n ++ [configName.bytes]) : Path.IsNaming s ∧ 0 ∉ s := by
  have hall : ∀ s ∈ [projectName, packagesName.bytes, Path.dotDot, configName.bytes],
      (slash ∉ s ∧ Path.isVoid s = false) ∧ 0 ∉ s := by decide
  have hdetour : ∀ s ∈ detour n, s ∈ [packagesName.bytes, Path.dotDot] := by
    intro s hs
    obtain ⟨ss, hss, hmem⟩ := List.mem_flatten.mp hs
    rwa [List.eq_of_mem_replicate hss] at hmem
  refine hall s ?_
  rcases List.mem_append.mp hs with hs | hs
  · rcases List.mem_cons.mp hs with rfl | hs
    · exact List.mem_cons_self
    · have hmem := hdetour s hs
      simp only [List.mem_cons, List.not_mem_nil, or_false] at hmem ⊢
      tauto
  · rw [List.mem_singleton.mp hs]
    simp

theorem isNaming_of_mem_detour {n : ℕ} {s : Segment} (hs : s ∈ projectName :: detour n) :
    Path.IsNaming s :=
  (isNaming_of_mem_endless (List.mem_append_left _ hs)).1

/-- A detour leads back to the directory. -/
theorem walk_detour (n : ℕ) (ss : List Segment) :
    endless.walk .root (projectName :: detour n ++ ss) = endless.walk ⟨[projectName], 0⟩ ss := by
  have hstep : endless.step .root projectName = .ok ⟨[projectName], 0⟩ := by decide +kernel
  have hout : endless.step ⟨[projectName], 0⟩ packagesName.bytes =
      .ok ⟨[projectName, packagesName.bytes], 0⟩ := by decide +kernel
  have hback : endless.step ⟨[projectName, packagesName.bytes], 0⟩ Path.dotDot =
      .ok ⟨[projectName], 0⟩ := by decide +kernel
  rw [List.cons_append, FileTree.walk_cons, hstep]
  show endless.walk ⟨[projectName], 0⟩ (detour n ++ ss) = _
  induction n with
  | zero => rfl
  | succ n ih =>
    have hdetour : detour (n + 1) = packagesName.bytes :: Path.dotDot :: detour n := rfl
    rw [hdetour, List.cons_append, FileTree.walk_cons, hout]
    show endless.walk ⟨[projectName, packagesName.bytes], 0⟩ (Path.dotDot :: detour n ++ ss) = _
    rw [List.cons_append, FileTree.walk_cons, hback]
    exact ih

/-- After a detour, a path leads where it leads without. -/
theorem locate_detour (n : ℕ) {ss : List Segment} (hss : ∀ s ∈ ss, Path.IsNaming s ∧ 0 ∉ s) :
    endless.locate (.ofBody .root (projectName :: detour n ++ ss)) =
      endless.walk ⟨[projectName], 0⟩ ss := by
  have hnaming : ∀ s ∈ projectName :: detour n ++ ss, Path.IsNaming s ∧ 0 ∉ s := by
    intro s hs
    rcases List.mem_append.mp hs with hs | hs
    · exact isNaming_of_mem_endless (List.mem_append_left _ hs)
    · exact hss s hs
  have hrefusal : endless.refusal? (.ofBody .root (projectName :: detour n ++ ss)) = none := by
    rw [FileTree.refusal?_eq_none_iff, Path.bytes_ofBody_root (by simp)]
    refine ⟨fun hmem => ?_, by simp, rfl⟩
    obtain ⟨s, hs, hnul⟩ := List.mem_flatMap.mp hmem
    rcases List.mem_cons.mp hnul with hslash | hnul
    · exact absurd hslash (by decide)
    · exact (hnaming s hs).2 hnul
  rw [FileTree.locate, hrefusal]
  show endless.walk .root (Path.ofBody .root (projectName :: detour n ++ ss)).segments = _
  rw [FileTree.walk_ofBody_root fun s hs => (hnaming s hs).1, walk_detour]

/-- All the paths name the one config. -/
theorem locate_endlessConfig (n : ℕ) :
    endless.locate (endlessConfig n) = .ok ⟨[projectName, configName.bytes], 0⟩ := by
  unfold endlessConfig
  have hconfig : ∀ s ∈ [configName.bytes], Path.IsNaming s ∧ 0 ∉ s :=
    fun s hs => isNaming_of_mem_endless (n := 0) (List.mem_append_right _ hs)
  rw [locate_detour n hconfig]
  decide +kernel

theorem load_endlessConfig (n : ℕ) :
    Declared.load endless (endlessConfig n) = .ok { bases := [".."] } := by
  have hnode : endless.nodeAt (endlessConfig n) = endless.nodeAt (endlessConfig 0) := by
    rw [FileTree.nodeAt_eq, FileTree.nodeAt_eq, locate_endlessConfig, locate_endlessConfig]
  have hzero : Declared.load endless (endlessConfig 0) = .ok { bases := [".."] } := by
    decide +kernel
  obtain ⟨text, htext, hparse⟩ := Declared.load_eq_ok_iff.mp hzero
  refine Declared.load_eq_ok_iff.mpr ⟨text, ?_, hparse⟩
  rw [← htext]
  unfold FileTree.readLossy FileTree.readBytes
  rw [hnode]

theorem directory_endlessConfig (n : ℕ) :
    (endlessConfig n).directory = .ofBody .root (projectName :: detour n) := by
  have hnaming : ∀ s ∈ projectName :: detour n ++ [configName.bytes], Path.IsNaming s :=
    fun s hs => (isNaming_of_mem_endless hs).1
  unfold Path.directory endlessConfig
  rw [Path.parent?_eq (Path.isTrimmed_ofBody_root hnaming), Path.names_ofBody_root hnaming,
    if_neg (by simp), List.dropLast_concat, Option.getD_some]

/-- The package of the config is found in the packages beside it, one detour further on. -/
theorem extended_endlessConfig (n : ℕ) :
    endless.extended (endlessConfig n).directory ".." = endlessConfig (n + 1) := by
  have hpath : FileTree.isPathValue ".." = false := by decide
  have hsegments : projectName :: detour (n + 1) =
      projectName :: detour n ++ [packagesName.bytes] ++ [(Path.ofText "..").bytes] := by
    rw [detour_succ, List.append_assoc]
    rfl
  have hbeside : ∀ s ∈ projectName :: detour n ++ [packagesName.bytes], Path.IsNaming s := by
    intro s hs
    refine isNaming_of_mem_detour (n := n + 1) ?_
    rw [hsegments]
    exact List.mem_append_left _ hs
  have hcandidate : ((Path.ofBody .root (projectName :: detour n)).join packagesName).join
      (.ofText "..") = .ofBody .root (projectName :: detour (n + 1)) := by
    rw [Path.join_ofBody_root (fun s hs => isNaming_of_mem_detour hs) (by decide),
      Path.join_ofBody_root hbeside (by decide), ← hsegments]
  have hdirectory : endless.isDirectory (.ofBody .root (projectName :: detour (n + 1))) = true := by
    have hlocate : endless.locate (.ofBody .root (projectName :: detour (n + 1) ++ [])) =
        endless.walk ⟨[projectName], 0⟩ [] := locate_detour (n + 1) (by simp)
    rw [List.append_nil] at hlocate
    unfold FileTree.isDirectory
    rw [FileTree.nodeAt_eq, hlocate]
    decide +kernel
  have hconfig : endless.packageConfig? ".." (.ofBody .root (projectName :: detour n)) =
      some (endlessConfig (n + 1)) := by
    unfold FileTree.packageConfig?
    simp only [hcandidate, hdirectory, if_true]
    rw [Path.join_ofBody_root (fun s hs => isNaming_of_mem_detour hs) (by decide)]
    rfl
  rw [endless.extended_of_isPathValue_eq_false _ hpath, directory_endlessConfig, Path.ancestors,
    List.findSome?_cons, hconfig]
  rfl

/-- Each path leads to the next. -/
theorem extends_endlessConfig (n : ℕ) :
    Extends endless (endlessConfig n) (endlessConfig (n + 1)) := by
  refine ⟨_, load_endlessConfig n, ?_⟩
  rw [← extended_endlessConfig n]
  exact List.mem_singleton_self _

/-- The paths are told apart by how long they are, so that none is taken for one before. -/
theorem fault?_endlessConfig (n : ℕ) :
    Visit.fault? endless ⟨endlessChain n, endlessConfig n⟩ = none := by
  have hlength : ∀ m, (endlessConfig m).names.length = 2 * m + 2 := by
    intro m
    unfold endlessConfig
    rw [Path.names_ofBody_root fun s hs => (isNaming_of_mem_endless hs).1, List.length_append,
      List.length_cons, length_detour]
    rfl
  refine (Visit.fault?_eq_none_iff _).mpr ⟨fun g hg hcomponents => ?_, _, load_endlessConfig n⟩
  obtain ⟨m, hm, rfl⟩ := List.mem_map.mp (List.mem_reverse.mp hg)
  have hlt : m < n := List.mem_range.mp hm
  have heq : (endlessConfig n).names.length = (endlessConfig m).names.length :=
    congrArg (fun components => components.2.length) hcomponents
  rw [hlength, hlength] at heq
  omega

/-- **A config that extends itself without end.**  The paths of the one config of `endless` lead
each to the next, and no visit fails, however many of them are on the chain.  So loading has no
result, where it should have found a cycle. -/
theorem loadChain_endless :
    (endless.pathLimit = none ∧ endless.nameLimit = none ∧
        endlessConfig 0 = .ofText "/p/tsconfig.json") ∧
      (∀ n, endless.SameFile (endlessConfig 0) (endlessConfig n) ∧
        Extends endless (endlessConfig n) (endlessConfig (n + 1)) ∧
        Visit.fault? endless ⟨endlessChain n, endlessConfig n⟩ = none) ∧
      loadChain endless [] (endlessConfig 0) = none := by
  refine ⟨⟨rfl, rfl, by decide⟩, fun n => ⟨?_, extends_endlessConfig n, fault?_endlessConfig n⟩, ?_⟩
  · obtain ⟨bytes, hbytes⟩ : ∃ bytes,
        endless.nodeIn? ⟨[projectName, configName.bytes], 0⟩ = some (.file bytes) := ⟨_, rfl⟩
    exact ⟨_, bytes, locate_endlessConfig 0, locate_endlessConfig n, hbytes⟩
  rw [Option.eq_none_iff_forall_ne_some]
  intro r hr
  -- A result at some depth would come from a result one level further down.
  have hnever := loadChain_induct_result
    (motive := fun chain p _ =>
      ∀ n, chain = (endlessChain n).map Path.key → p = endlessConfig n → False)
    (fun load ih chain p r hr n hchain hp => ?_) hr
  · exact hnever 0 rfl rfl
  · subst hchain hp
    have hvisit : visit endless ((endlessChain n).map Path.key) (endlessConfig n) =
        .ok { bases := [".."] } := by rw [visit_eq, fault?_endlessConfig, load_endlessConfig]
    have hbases : endless.basesOf (endlessConfig n) { bases := [".."] } =
        [endlessConfig (n + 1)] := by rw [← extended_endlessConfig n]; rfl
    rw [loadVisited, hvisit] at hr
    simp only [hbases, layerAll] at hr
    cases hnext : load ((endlessConfig n).key :: (endlessChain n).map Path.key)
        (endlessConfig (n + 1)) with
    | none =>
      rw [hnext] at hr
      cases hr
    | some r' =>
      refine ih _ _ r' hnext (n + 1) ?_ rfl
      rw [endlessChain_succ, List.map_cons]

end Tsconfig

end ModuleMap
