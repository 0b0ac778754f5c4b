import Mathlib.Data.Set.Finite.Basic
import Mathlib.Logic.Relation
import ModuleMap.Proofs.Tsconfig.Inheritance

/-!
# When loading fails

Loading goes through the configs depth first, from left to right, and ends at the first visit that
fails.  A visit to a config that is being loaded already is a cycle; any other fails only if the
file cannot be read or is not of the expected form.

What makes the visits speak about the configs alone is that a chain holds exactly the configs that
lead to the one visited: a config is on its own chain only if it extends itself, and whatever it
extends is visited with the config on the chain.

* `Extends`: the configs that a config extends.
* `Visit`, `Visit.fault?`: a visit and why it fails.
* `Traversal`, `Traversal.unique`, `Traversal.exists_of_closed`, `Traversal.exists_of_finite`: the
  visits in order.
* `Traversal.forall_mem`: what all visits have.
* `Tsconfig.loadAll_of_traversal`, `Tsconfig.exists_loadChain_of_traversal`,
  `Tsconfig.load_eq_error_iff`: loading has an answer, and ends at the first visit that fails.
* `Traversal.fault?_eq_none_iff`: no visit fails if all configs can be read and none extends itself.
* `Tsconfig.load_eq_first_fault`: both together, for a config that is loaded by itself.
-/

namespace ModuleMap

open Relation

/-- The config at the first path can be read, and it extends the config at the second. -/
def Extends (t : FileTree) (f g : Path) : Prop :=
  ∃ d, Declared.load t f = .ok d ∧ g ∈ t.basesOf f d

/-- Nothing else is reached from some configs if whatever they extend is among them. -/
theorem mem_of_reaches {t : FileTree} {configs : List Path} {root g : Path} (hroot : root ∈ configs)
    (hclosed : ∀ f ∈ configs, ∀ g ∈ ((Declared.load t f).toOption.map (t.basesOf f)).getD [],
      g ∈ configs)
    (hg : ReflTransGen (Extends t) root g) : g ∈ configs := by
  induction hg with
  | refl => exact hroot
  | @tail f g _ hfg ih =>
    obtain ⟨d, hd, hmem⟩ := hfg
    refine hclosed f ih g ?_
    rw [hd]
    exact hmem

/-- A visit to a config, with the configs that are being loaded at the time, innermost first. -/
structure Visit where
  chain : List Path
  path : Path

/-- Why a visit fails, if it does: the config is being loaded already, it cannot be read, or it is
not of the expected form. -/
def Visit.fault? (t : FileTree) (v : Visit) : Option Fault :=
  if v.path.components ∈ v.chain.map Path.components then some (.configCycle v.path)
  else
    match t.readLossy v.path with
    | .error e => some (.configRead v.path e)
    | .ok text =>
      match Declared.parse text with
      | .error e => some (.configParse v.path e)
      | .ok _ => none

/-- The visits to the configs at some paths and to all that they extend, depth first and from left
to right.  What a config extends is visited only if the visit to the config itself does not fail. -/
inductive Traversal (t : FileTree) : List Path → List Path → List Visit → Prop
  | nil {chain : List Path} : Traversal t chain [] []
  | fail {chain : List Path} {p : Path} {ps : List Path} {e : Fault} {after : List Visit}
      (he : Visit.fault? t ⟨chain, p⟩ = some e) (hafter : Traversal t chain ps after) :
      Traversal t chain (p :: ps) (⟨chain, p⟩ :: after)
  | follow {chain : List Path} {p : Path} {ps : List Path} {d : Declared}
      {below after : List Visit} (hfault : Visit.fault? t ⟨chain, p⟩ = none)
      (hd : Declared.load t p = .ok d) (hbelow : Traversal t (p :: chain) (t.basesOf p d) below)
      (hafter : Traversal t chain ps after) :
      Traversal t chain (p :: ps) (⟨chain, p⟩ :: (below ++ after))

variable {t : FileTree}

/-! ## One visit -/

theorem key_mem_map_key_iff {chain : List Path} {p : Path} :
    p.key ∈ chain.map Path.key ↔ p.components ∈ chain.map Path.components := by
  simp only [List.mem_map, Path.key_eq_key_iff]

/-- A visit fails, or else what the config declares is known. -/
theorem visit_eq (chain : List Path) (p : Path) :
    Tsconfig.visit t (chain.map Path.key) p =
      match Visit.fault? t ⟨chain, p⟩ with
      | some e => .error e
      | none => Declared.load t p := by
  unfold Tsconfig.visit Visit.fault?
  simp only [key_mem_map_key_iff]
  split
  · rfl
  · rw [Declared.load]
    cases t.readLossy p with
    | error e => rfl
    | ok text => cases hd : Declared.parse text <;> simp [hd]

/-- A visit does not fail if the config is new on its chain and can be read. -/
theorem Visit.fault?_eq_none_iff (v : Visit) :
    v.fault? t = none ↔
      (∀ g ∈ v.chain, v.path.components ≠ g.components) ∧ ∃ d, Declared.load t v.path = .ok d := by
  unfold Visit.fault? Declared.load
  split
  · next hmem =>
    obtain ⟨g, hg, hgv⟩ := List.mem_map.mp hmem
    refine iff_of_false (by simp) ?_
    rintro ⟨hnew, -⟩
    exact hnew g hg hgv.symm
  · next hmem =>
    have hnew : ∀ g ∈ v.chain, v.path.components ≠ g.components := by
      intro g hg heq
      exact hmem (heq ▸ List.mem_map_of_mem hg)
    rw [and_iff_right hnew]
    cases t.readLossy v.path with
    | error e => simp
    | ok text => cases hd : Declared.parse text <;> simp [hd]

/-! ## The traversal -/

/-- There is no more than one traversal. -/
theorem Traversal.unique {chain ps : List Path} {vs ws : List Visit}
    (h : Traversal t chain ps vs) (h' : Traversal t chain ps ws) : vs = ws := by
  induction h generalizing ws with
  | nil =>
    cases h'
    rfl
  | fail he _ ih =>
    cases h' with
    | fail _ hafter' => rw [ih hafter']
    | follow hfault' _ _ _ => simp [he] at hfault'
  | follow hfault hd _ _ ihbelow ihafter =>
    cases h' with
    | fail he' _ => simp [hfault] at he'
    | follow _ hd' hbelow' hafter' =>
      cases hd.symm.trans hd'
      rw [ihbelow hbelow', ihafter hafter']

theorem Traversal.iff_eq {chain ps : List Path} {vs : List Visit} (h : Traversal t chain ps vs)
    (ws : List Visit) : Traversal t chain ps ws ↔ ws = vs := by
  constructor
  · intro hws
    exact hws.unique h
  · rintro rfl
    exact h

/-- How many of the components are those of no path on a chain. -/
def freshCount (keys : Finset (Path.Anchor × List Segment)) (chain : List Path) : ℕ :=
  (keys \ (chain.map Path.components).toFinset).card

/-- A config that is new on a chain is no longer new when it has been put there. -/
theorem freshCount_cons_lt {keys : Finset (Path.Anchor × List Segment)} {chain : List Path}
    {p : Path} (hp : p.components ∈ keys) (hnew : ∀ g ∈ chain, p.components ≠ g.components) :
    freshCount keys (p :: chain) < freshCount keys chain := by
  unfold freshCount
  apply Finset.card_lt_card
  refine ⟨fun k hk => ?_, fun hsub => ?_⟩
  · simp only [Finset.mem_sdiff, List.map_cons, List.toFinset_cons, Finset.mem_insert] at hk ⊢
    exact ⟨hk.1, fun hmem => hk.2 (Or.inr hmem)⟩
  · have hfresh : p.components ∈ keys \ (chain.map Path.components).toFinset := by
      rw [Finset.mem_sdiff, List.mem_toFinset, List.mem_map]
      refine ⟨hp, ?_⟩
      rintro ⟨g, hg, heq⟩
      exact hnew g hg heq.symm
    have hgone := (Finset.mem_sdiff.mp (hsub hfresh)).2
    simp at hgone

/-- Where the configs that can be read have finitely many components, the traversal comes to an end:
each chain grows by configs that are new on it. -/
theorem Traversal.exists_of_closed {P : Path → Prop}
    (hclosed : ∀ f g, P f → Extends t f g → P g) {keys : Finset (Path.Anchor × List Segment)}
    (hkeys : ∀ f d, P f → Declared.load t f = .ok d → f.components ∈ keys) {chain ps : List Path}
    (hps : ∀ p ∈ ps, P p) : ∃ vs, Traversal t chain ps vs := by
  induction hn : freshCount keys chain using Nat.strong_induction_on generalizing chain ps with
  | _ n ih =>
    induction ps with
    | nil => exact ⟨[], .nil⟩
    | cons p ps ihps =>
      rw [List.forall_mem_cons] at hps
      obtain ⟨after, hafter⟩ := ihps hps.2
      cases hfault : Visit.fault? t ⟨chain, p⟩ with
      | some e => exact ⟨_, .fail hfault hafter⟩
      | none =>
        obtain ⟨hnew, d, hd⟩ := (Visit.fault?_eq_none_iff _).mp hfault
        have hbases : ∀ g ∈ t.basesOf p d, P g := by
          intro g hg
          exact hclosed p g hps.1 ⟨d, hd, hg⟩
        have hlt : freshCount keys (p :: chain) < n := by
          rw [← hn]
          exact freshCount_cons_lt (hkeys p d hps.1 hd) hnew
        obtain ⟨below, hbelow⟩ := ih _ hlt hbases rfl
        exact ⟨_, .follow hfault hd hbelow hafter⟩

/-- Where finitely many configs can be reached, there is a traversal. -/
theorem Traversal.exists_of_finite {root : Path}
    (hfinite : {g | ReflTransGen (Extends t) root g}.Finite) :
    ∃ vs, Traversal t [] [root] vs := by
  have hclosed : ∀ f g, ReflTransGen (Extends t) root f → Extends t f g →
      ReflTransGen (Extends t) root g := fun f g hf hg => hf.tail hg
  have hkeys : ∀ f d, ReflTransGen (Extends t) root f → Declared.load t f = .ok d →
      f.components ∈ hfinite.toFinset.image Path.components := by
    intro f d hf _
    rw [Finset.mem_image]
    exact ⟨f, hfinite.mem_toFinset.mpr hf, rfl⟩
  refine Traversal.exists_of_closed hclosed hkeys fun p hp => ?_
  rw [List.mem_singleton.mp hp]

/-- What the first visits have, and what is handed on from a visit that does not fail to what the
config extends, all visits have. -/
theorem Traversal.forall_mem {I : Visit → Prop}
    (hstep : ∀ chain p, I ⟨chain, p⟩ → Visit.fault? t ⟨chain, p⟩ = none →
      ∀ g, Extends t p g → I ⟨p :: chain, g⟩)
    {chain ps : List Path} {vs : List Visit} (h : Traversal t chain ps vs)
    (hps : ∀ p ∈ ps, I ⟨chain, p⟩) : ∀ v ∈ vs, I v := by
  induction h with
  | nil => simp
  | fail _ _ ih =>
    rw [List.forall_mem_cons] at hps ⊢
    exact ⟨hps.1, ih hps.2⟩
  | @follow chain p _ d _ _ hfault hd _ _ ihbelow ihafter =>
    rw [List.forall_mem_cons] at hps
    obtain ⟨hp, hps⟩ := hps
    have hbases : ∀ g ∈ t.basesOf p d, I ⟨p :: chain, g⟩ := by
      intro g hg
      exact hstep chain p hp hfault g ⟨d, hd, hg⟩
    rw [List.forall_mem_cons, List.forall_mem_append]
    exact ⟨hp, ihbelow hbases, ihafter hps⟩

/-! ## Loading along the traversal -/

/-- Loading ends well if no visit fails, and else at the first visit that does. -/
theorem Tsconfig.loadAll_of_traversal {chain ps : List Path} {vs : List Visit}
    (h : Traversal t chain ps vs) (earlier : Tsconfig) :
    ∃ r, loadAll t (chain.map Path.key) earlier ps = some r ∧
      ∀ e, r = .error e ↔ vs.findSome? (Visit.fault? t) = some e := by
  induction h generalizing earlier with
  | nil => exact ⟨.ok earlier, rfl, fun e => by simp⟩
  | @fail chain p ps f after he _ _ =>
    have hload : loadChain t (chain.map Path.key) p = some (.error f) := by
      rw [loadChain_eq, loadVisited, visit_eq, he]
    refine ⟨.error f, ?_, fun e => ?_⟩
    · rw [loadAll_cons, hload]
    · rw [List.findSome?_cons, he]
      simp
  | @follow chain p ps d below after hfault hd _ _ ihbelow ihafter =>
    obtain ⟨r, hr, hbelow⟩ := ihbelow {}
    have hload : loadChain t (chain.map Path.key) p =
        some (r.map (·.declare p.directory d)) := by
      have hbases : layerAll (loadChain t (p.key :: chain.map Path.key)) {} (t.basesOf p d) =
          some r := hr
      rw [loadChain_eq, loadVisited, visit_eq, hfault]
      simp only [hd, hbases]
      rfl
    rw [loadAll_cons, hload, List.findSome?_cons, hfault, List.findSome?_append]
    cases r with
    | error f =>
      rw [(hbelow f).mp rfl]
      exact ⟨.error f, rfl, fun e => by simp⟩
    | ok c =>
      have hnone : below.findSome? (Visit.fault? t) = none := by
        rw [Option.eq_none_iff_forall_ne_some]
        intro e he
        cases (hbelow e).mpr he
      rw [hnone]
      exact ihafter (earlier.inherit (c.declare p.directory d))

/-! ## When no visit fails -/

/-- The configs on the chain of a visit lead to the config that is visited, and all can be reached
from a root. -/
def Visit.Linked (t : FileTree) (root : Path) (v : Visit) : Prop :=
  ReflTransGen (Extends t) root v.path ∧
    ∀ f ∈ v.chain, ReflTransGen (Extends t) root f ∧ TransGen (Extends t) f v.path

/-- What a config extends is linked when the config has been put on the chain. -/
theorem Visit.Linked.extend {root p g : Path} {chain : List Path}
    (h : Visit.Linked t root ⟨chain, p⟩) (hg : Extends t p g) :
    Visit.Linked t root ⟨p :: chain, g⟩ := by
  obtain ⟨hroot, hchain⟩ := h
  refine ⟨hroot.tail hg, fun f hf => ?_⟩
  rcases List.mem_cons.mp hf with rfl | hf
  · exact ⟨hroot, .single hg⟩
  · exact ⟨(hchain f hf).1, (hchain f hf).2.tail hg⟩

/-- All visits are linked if the first ones are. -/
theorem Traversal.linked {root : Path} {chain ps : List Path} {vs : List Visit}
    (h : Traversal t chain ps vs) (hps : ∀ p ∈ ps, Visit.Linked t root ⟨chain, p⟩) :
    ∀ v ∈ vs, v.Linked t root :=
  h.forall_mem (fun _ _ hp _ _ hg => hp.extend hg) hps

/-- So are all visits of a traversal from the root. -/
theorem Traversal.linked_root {root : Path} {vs : List Visit} (h : Traversal t [] [root] vs) :
    ∀ v ∈ vs, v.Linked t root := by
  refine h.linked fun p hp => ?_
  rw [List.mem_singleton.mp hp]
  exact ⟨.refl, by simp⟩

/-- The configs at the given paths are visited. -/
theorem Traversal.mem_of_mem {chain ps : List Path} {vs : List Visit} (h : Traversal t chain ps vs)
    {p : Path} (hp : p ∈ ps) : ⟨chain, p⟩ ∈ vs := by
  induction h with
  | nil => cases hp
  | fail _ _ ih =>
    rcases List.mem_cons.mp hp with rfl | hp
    · exact List.mem_cons_self
    · exact List.mem_cons_of_mem _ (ih hp)
  | follow _ _ _ _ _ ihafter =>
    rcases List.mem_cons.mp hp with rfl | hp
    · exact List.mem_cons_self
    · exact List.mem_cons_of_mem _ (List.mem_append_right _ (ihafter hp))

/-- After a visit that does not fail, all that the config extends is visited with the config on the
chain. -/
theorem Traversal.mem_of_extends {chain ps : List Path} {vs : List Visit}
    (h : Traversal t chain ps vs) {v : Visit} (hv : v ∈ vs) (hfault : v.fault? t = none) {g : Path}
    (hg : Extends t v.path g) : ⟨v.path :: v.chain, g⟩ ∈ vs := by
  induction h with
  | nil => cases hv
  | fail he _ ih =>
    rcases List.mem_cons.mp hv with rfl | hv
    · simp [he] at hfault
    · exact List.mem_cons_of_mem _ (ih hv)
  | follow _ hd hbelow _ ihbelow ihafter =>
    refine List.mem_cons_of_mem _ (List.mem_append.mpr ?_)
    rcases List.mem_cons.mp hv with rfl | hv
    · obtain ⟨d', hd', hg⟩ := hg
      cases hd.symm.trans hd'
      exact Or.inl (hbelow.mem_of_mem hg)
    · rcases List.mem_append.mp hv with hv | hv
      · exact Or.inl (ihbelow hv)
      · exact Or.inr (ihafter hv)

section

variable {root : Path} {vs : List Visit} (h : Traversal t [] [root] vs)
include h

/-- If no visit fails, every config that can be reached is visited. -/
theorem Traversal.exists_visit (hfault : ∀ v ∈ vs, v.fault? t = none) {g : Path}
    (hg : ReflTransGen (Extends t) root g) : ∃ chain, ⟨chain, g⟩ ∈ vs := by
  induction hg with
  | refl => exact ⟨[], h.mem_of_mem List.mem_cons_self⟩
  | tail _ hfg ih =>
    obtain ⟨chain, hf⟩ := ih
    exact ⟨_, h.mem_of_extends hf (hfault _ hf) hfg⟩

/-- If no visit fails, what follows after a visited config is visited with that on the chain. -/
theorem Traversal.exists_visit_below (hfault : ∀ v ∈ vs, v.fault? t = none) {f g : Path}
    {chain : List Path} (hf : ⟨chain, f⟩ ∈ vs) (hfg : TransGen (Extends t) f g) :
    ∃ chain', f ∈ chain' ∧ ⟨chain', g⟩ ∈ vs := by
  induction hfg with
  | single hfg => exact ⟨f :: chain, List.mem_cons_self, h.mem_of_extends hf (hfault _ hf) hfg⟩
  | tail _ hgg ih =>
    obtain ⟨chain', hmem, hvisit⟩ := ih
    exact ⟨_, List.mem_cons_of_mem _ hmem, h.mem_of_extends hvisit (hfault _ hvisit) hgg⟩

/-- No visit fails if and only if all configs that can be reached can be read and none of them leads
to itself. -/
theorem Traversal.fault?_eq_none_iff :
    (∀ v ∈ vs, v.fault? t = none) ↔
      ∀ f, ReflTransGen (Extends t) root f →
        (∃ d, Declared.load t f = .ok d) ∧
          ∀ g, TransGen (Extends t) f g → g.components ≠ f.components := by
  constructor
  · intro hfault f hf
    obtain ⟨chain, hvisit⟩ := h.exists_visit hfault hf
    refine ⟨((Visit.fault?_eq_none_iff _).mp (hfault _ hvisit)).2, fun g hfg => ?_⟩
    obtain ⟨chain', hmem, hvisit'⟩ := h.exists_visit_below hfault hvisit hfg
    exact ((Visit.fault?_eq_none_iff _).mp (hfault _ hvisit')).1 f hmem
  · intro hgood v hv
    obtain ⟨hreach, hchain⟩ := h.linked_root v hv
    rw [Visit.fault?_eq_none_iff]
    refine ⟨?_, (hgood _ hreach).1⟩
    -- A namesake on the chain would lead to itself.
    intro f hf
    obtain ⟨hfroot, hfv⟩ := hchain f hf
    exact (hgood f hfroot).2 _ hfv

end

namespace Tsconfig

/-- Where there is a traversal, loading has an answer, and this is a fault if some visit fails. -/
theorem exists_loadChain_of_traversal {root : Path} {vs : List Visit}
    (h : Traversal t [] [root] vs) :
    ∃ r, loadChain t [] root = some r ∧
      ∀ e, r = .error e ↔ vs.findSome? (Visit.fault? t) = some e := by
  obtain ⟨r, hr, hfirst⟩ := loadAll_of_traversal h {}
  rw [List.map_nil, loadAll_cons] at hr
  rcases hload : loadChain t [] root with _ | (f | c) <;> rw [hload] at hr <;> cases hr
  · exact ⟨_, rfl, hfirst⟩
  · exact ⟨.ok c, rfl, fun e => by simpa using hfirst e⟩

/-- A config is not loaded if and only if some visit fails, and then the first such visit says
why. -/
theorem load_eq_error_iff {p root : Path} {vs : List Visit} (hroot : t.resolve p = .ok root)
    (hvs : Traversal t [] [root] vs) (e : Fault) :
    load t p = some (.error e) ↔ vs.findSome? (Visit.fault? t) = some e := by
  obtain ⟨r, hr, hfirst⟩ := exists_loadChain_of_traversal hvs
  rw [load_eq hroot, map_map_eq_error_iff, hr, Option.some_inj, hfirst]

/-- **Loading fails at the first visit that does.**  Where finitely many configs can be reached from
the normal form of a path, loading has an answer, and the config is loaded if and only if all of
them can be read and none of them leads to itself.  If it is not, the fault is that of the first
visit that fails in the only traversal from there. -/
theorem load_eq_first_fault {p root : Path} (hroot : t.resolve p = .ok root)
    (hfinite : {g | ReflTransGen (Extends t) root g}.Finite) :
    (∃ r, load t p = some r) ∧
      ((∃ c, load t p = some (.ok c)) ↔
        ∀ f, ReflTransGen (Extends t) root f →
          (∃ d, Declared.load t f = .ok d) ∧
            ∀ g, TransGen (Extends t) f g → g.components ≠ f.components) ∧
      ∃ vs, (∀ ws, Traversal t [] [root] ws ↔ ws = vs) ∧
        ∀ e, load t p = some (.error e) ↔ vs.findSome? (Visit.fault? t) = some e := by
  obtain ⟨vs, hvs⟩ := Traversal.exists_of_finite hfinite
  obtain ⟨chained, hchained, -⟩ := exists_loadChain_of_traversal hvs
  obtain ⟨r, hr⟩ : ∃ r, load t p = some r := ⟨_, by rw [load_eq hroot, hchained, Option.map_some]⟩
  have herror := load_eq_error_iff hroot hvs
  refine ⟨⟨r, hr⟩, ?_, vs, hvs.iff_eq, herror⟩
  rw [← hvs.fault?_eq_none_iff, ← List.findSome?_eq_none_iff, Option.eq_none_iff_forall_ne_some]
  constructor
  · rintro ⟨c, hc⟩ e he
    cases hc.symm.trans ((herror e).mpr he)
  · intro hnone
    cases r with
    | ok c => exact ⟨c, hr⟩
    | error e => exact absurd ((herror e).mp hr) (hnone e)

end Tsconfig

/-! ## Two sides -/

namespace twoSides

/-- The config that extends both sides. -/
def app : Path := .ofText "/app.json"

def left : Path := .ofText "/left.json"

def right : Path := .ofText "/right.json"

/-- The config that both sides extend. -/
def base : Path := .ofText "/lib/base.json"

/-- A config that is not there. -/
def missing : Path := .ofText "/none.json"

/-- The second side extends, after `base.json`, the config that extends it and one that is
missing. -/
def knot : FileTree :=
  twoSides ["./lib/base", "./app.json", "./none.json"]

/-- The values that the second side extends, in the diamond and in the knot. -/
def rightSides : List (List String) :=
  [["./lib/base"], ["./lib/base", "./app.json", "./none.json"]]

section

variable {values : List String}

/-- What the configs declare. -/
theorem load_declared (h : values ∈ rightSides) :
    Declared.load (twoSides values) app = .ok { bases := ["./left.json", "./right.json"] } ∧
      Declared.load (twoSides values) left =
        .ok { bases := ["./lib/base.json"], mapping := ⟨some (.ofText "left"), none⟩ } ∧
      Declared.load (twoSides values) right =
        .ok { bases := values, mapping := ⟨none, some []⟩ } ∧
      Declared.load (twoSides values) base =
        .ok { mapping := ⟨some (.ofText "src"), some [("a", ["b"])]⟩ } ∧
      Declared.load (twoSides values) missing = .error (.configRead missing .notFound) := by
  revert values
  decide +kernel

/-- Where the values lead to. -/
theorem basesOf_eq (h : values ∈ rightSides) :
    (twoSides values).basesOf app { bases := ["./left.json", "./right.json"] } = [left, right] ∧
      (twoSides values).basesOf left
        { bases := ["./lib/base.json"], mapping := ⟨some (.ofText "left"), none⟩ } = [base] ∧
      (twoSides values).basesOf right { bases := values, mapping := ⟨none, some []⟩ } =
        base :: [app, missing].take (values.length - 1) := by
  revert values
  decide +kernel

theorem finite_reaches (h : values ∈ rightSides) :
    {g | ReflTransGen (Extends (twoSides values)) app g}.Finite := by
  refine (List.finite_toSet [app, left, right, base, missing]).subset fun g hg => ?_
  have hroot : app ∈ [app, left, right, base, missing] := List.mem_cons_self
  refine mem_of_reaches hroot ?_ hg
  obtain ⟨happ, hleft, hright, hbase, hmissing⟩ := load_declared h
  obtain ⟨happBases, hleftBases, hrightBases⟩ := basesOf_eq h
  simp only [List.forall_mem_cons, happ, hleft, hright, hbase, hmissing, Except.toOption,
    Option.map_some, Option.getD_some, happBases, hleftBases, hrightBases]
  have hsub : [app, missing] ⊆ [app, left, right, base, missing] := by simp
  exact ⟨by simp, by simp, ⟨by simp, fun g hg => hsub (List.mem_of_mem_take hg)⟩,
    by simp [FileTree.basesOf], by simp, by simp⟩

/-- Both sides are visited, and `base.json` on each of them. -/
theorem mem_traversal (h : values ∈ rightSides) {vs : List Visit}
    (hvs : Traversal (twoSides values) [] [app] vs) :
    ⟨[app], right⟩ ∈ vs ∧ ⟨[left, app], base⟩ ∈ vs ∧ ⟨[right, app], base⟩ ∈ vs := by
  obtain ⟨happ, hleft, hright, -⟩ := load_declared h
  obtain ⟨happBases, hleftBases, hrightBases⟩ := basesOf_eq h
  have hvisit := hvs.mem_of_mem List.mem_cons_self
  have hfault := (Visit.fault?_eq_none_iff ⟨[], app⟩).mpr ⟨by simp, _, happ⟩
  have hvisitLeft : ⟨[app], left⟩ ∈ vs :=
    hvs.mem_of_extends hvisit hfault ⟨_, happ, by simp [happBases]⟩
  have hvisitRight : ⟨[app], right⟩ ∈ vs :=
    hvs.mem_of_extends hvisit hfault ⟨_, happ, by simp [happBases]⟩
  have hfaultLeft := (Visit.fault?_eq_none_iff ⟨[app], left⟩).mpr ⟨by decide +kernel, _, hleft⟩
  have hfaultRight := (Visit.fault?_eq_none_iff ⟨[app], right⟩).mpr ⟨by decide +kernel, _, hright⟩
  exact ⟨hvisitRight, hvs.mem_of_extends hvisitLeft hfaultLeft ⟨_, hleft, by simp [hleftBases]⟩,
    hvs.mem_of_extends hvisitRight hfaultRight ⟨_, hright, by simp [hrightBases]⟩⟩

end

end twoSides

open twoSides

/-- On both sides `base.json` is visited, and no visit fails.  In the knot there is a visit to
`none.json` that fails, but loading has failed before, where `app.json` is visited again. -/
theorem Tsconfig.load_eq_first_fault_diamond :
    ({g | ReflTransGen (Extends diamond) app g}.Finite ∧
      (∃ c, load diamond app = some (.ok c)) ∧
      ∃ vs, Traversal diamond [] [app] vs ∧
        ⟨[left, app], base⟩ ∈ vs ∧ ⟨[right, app], base⟩ ∈ vs ∧
        vs.findSome? (Visit.fault? diamond) = none) ∧
    {g | ReflTransGen (Extends knot) app g}.Finite ∧
      load knot app = some (.error (.configCycle app)) ∧
      ∃ vs, Traversal knot [] [app] vs ∧
        (∃ v ∈ vs, v.fault? knot = some (.configRead missing .notFound)) ∧
        vs.findSome? (Visit.fault? knot) = some (.configCycle app) := by
  have hdiamond : ["./lib/base"] ∈ rightSides := by decide
  have hknot : ["./lib/base", "./app.json", "./none.json"] ∈ rightSides := by decide
  have hrootDiamond : diamond.resolve app = .ok app := by decide +kernel
  have hrootKnot : knot.resolve app = .ok app := by decide +kernel
  refine ⟨⟨finite_reaches hdiamond, ⟨_, load_diamond⟩, ?_⟩, finite_reaches hknot, ?_⟩
  · obtain ⟨-, -, vs, hvs, hfirst⟩ :=
      load_eq_first_fault hrootDiamond (finite_reaches hdiamond)
    have htraversal := (hvs vs).mpr rfl
    obtain ⟨-, hleft, hright⟩ := mem_traversal hdiamond htraversal
    refine ⟨vs, htraversal, hleft, hright, ?_⟩
    rw [Option.eq_none_iff_forall_ne_some]
    intro e he
    cases load_diamond.symm.trans ((hfirst e).mpr he)
  · obtain ⟨-, -, vs, hvs, hfirst⟩ :=
      load_eq_first_fault hrootKnot (finite_reaches hknot)
    have htraversal := (hvs vs).mpr rfl
    obtain ⟨hvisit, -, -⟩ := mem_traversal hknot htraversal
    obtain ⟨-, -, hright, -⟩ := load_declared hknot
    obtain ⟨-, -, hbases⟩ := basesOf_eq hknot
    have hfault := (Visit.fault?_eq_none_iff ⟨[app], right⟩).mpr ⟨by decide +kernel, _, hright⟩
    have hextends : Extends knot right missing := by
      refine ⟨_, hright, ?_⟩
      rw [knot, hbases]
      simp
    have hmissing : ⟨[right, app], missing⟩ ∈ vs := htraversal.mem_of_extends hvisit hfault hextends
    have hchain : loadWithin knot 3 [] app = some (.error (.configCycle app)) := by
      decide +kernel
    have hload : load knot app = some (.error (.configCycle app)) := by
      rw [load_eq hrootKnot, loadChain_of_loadWithin hchain]
      rfl
    exact ⟨hload, vs, htraversal, ⟨_, hmissing, by decide +kernel⟩, (hfirst _).mp hload⟩

end ModuleMap
