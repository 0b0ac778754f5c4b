import Mathlib.Data.Fin.VecNotation
import Mathlib.Data.Fintype.Basic
import Mathlib.Order.Fin.Basic
import ModuleMap.Proofs.Mapping.Selection

/-!
# The order of `paths` entries

Two keys can tie for a specifier only if nothing but the text after their stars tells them apart:
texts of equally many bytes with which the same specifier begins are the same text.  So the order in
which entries are declared counts among such rivals alone, and any other change of it leaves the
mapping as it was.

* `Rivals`, `rivals_of_keyRank_eq`: the keys that can tie.
* `Reorders`: a list of entries in another order that is the same among rivals.
* `Wins`: the place of the winner among entries, with `Wins.unique` and `Wins.reorder`.
* `Mapper.exists_ofOptions_iff`: which options make a mapper.
* `Mapper.map?_eq_of_reorders`: the mappers of entries in two orders.
-/

namespace ModuleMap

/-! ## Rivals -/

/-- Keys that can tie: those with one star and the same text before it, and those without a star
that are the same. -/
inductive Rivals : String → String → Prop
  | static {key : String} (hkey : '*' ∉ key.toList) : Rivals key key
  | wildcard {before after after' : String} (hbefore : '*' ∉ before.toList)
      (hafter : '*' ∉ after.toList) (hafter' : '*' ∉ after'.toList) :
      Rivals (before ++ "*" ++ after) (before ++ "*" ++ after')

theorem Rivals.takeWhile_eq {key key' : String} (h : Rivals key key') :
    key.toList.takeWhile (· ≠ '*') = key'.toList.takeWhile (· ≠ '*') := by
  cases h with
  | static _ => rfl
  | wildcard hbefore _ _ => rw [takeWhile_wildcard hbefore, takeWhile_wildcard hbefore]

/-- Texts of equally many bytes with which the same text begins are the same. -/
theorem eq_of_append_eq_append {start start' rest rest' : String}
    (h : start ++ rest = start' ++ rest') (hbytes : start.utf8ByteSize = start'.utf8ByteSize) :
    start = start' := by
  have hnone : ∀ {s t : String} {cs : List Char}, s.toList = t.toList ++ cs →
      s.utf8ByteSize = t.utf8ByteSize → s = t := by
    intro s t cs hs hsize
    obtain rfl : s = t ++ String.ofList cs := String.toList_injective (by simp [hs])
    rw [String.utf8ByteSize_append, Nat.add_eq_left, String.utf8ByteSize_eq_zero_iff] at hsize
    rw [hsize, String.append_empty]
  have hlists : start.toList ++ rest.toList = start'.toList ++ rest'.toList := by
    simpa using congrArg String.toList h
  rcases List.append_eq_append_iff.mp hlists with ⟨cs, hcs, -⟩ | ⟨cs, hcs, -⟩
  · exact (hnone hcs hbytes.symm).symm
  · exact hnone hcs hbytes

/-- Keys that match one specifier and are equally specific are rivals. -/
theorem rivals_of_keyRank_eq {key key' s : String} (h : Matches key s) (h' : Matches key' s)
    (hrank : keyRank key = keyRank key') : Rivals key key' := by
  obtain ⟨captured, h⟩ := h
  obtain ⟨captured', h'⟩ := h'
  cases h with
  | static hkey =>
    cases h' with
    | static _ => exact .static hkey
    | wildcard _ hbefore _ =>
      rw [keyRank_of_star_notMem hkey, keyRank_wildcard hbefore] at hrank
      exact absurd hrank (ENat.top_ne_natCast _)
  | @wildcard before after _ hbefore hafter =>
    generalize hs : before ++ captured ++ after = s at h'
    cases h' with
    | static hkey =>
      rw [keyRank_of_star_notMem hkey, keyRank_wildcard hbefore] at hrank
      exact absurd hrank (ENat.natCast_ne_top _)
    | @wildcard before' after' _ hbefore' hafter' =>
      rw [keyRank_wildcard hbefore, keyRank_wildcard hbefore', Nat.cast_inj] at hrank
      rw [String.append_assoc, String.append_assoc] at hs
      obtain rfl := eq_of_append_eq_append hs hrank
      exact .wildcard hbefore hafter hafter'

/-! ## The winner in another order -/

/-- A list of entries in another order, in which rivals come one after the other as before. -/
def Reorders (entries entries' : List (String × List String)) : Prop :=
  ∃ σ : Fin entries.length ≃ Fin entries'.length, (∀ i, entries'.get (σ i) = entries.get i) ∧
    ∀ i j, i < j → Rivals (entries.get i).1 (entries.get j).1 → σ i < σ j

/-- The place of the entry that is to map a specifier. -/
structure Wins (entries : List (String × List String)) (s : String) (i : Fin entries.length) :
    Prop where
  matches_key : Matches (entries.get i).1 s
  lt_of_lt : ∀ j < i, Matches (entries.get j).1 s →
    keyRank (entries.get j).1 < keyRank (entries.get i).1
  le_of_lt : ∀ j > i, Matches (entries.get j).1 s →
    keyRank (entries.get j).1 ≤ keyRank (entries.get i).1

variable {entries entries' earlier later : List (String × List String)}
  {e : String × List String} {s : String}

theorem Winner.exists_wins (h : Winner entries s earlier e later) :
    ∃ i, entries.get i = e ∧ Wins entries s i := by
  obtain ⟨rfl, hmatches, hearlier, hlater⟩ := h
  have hget : (earlier ++ e :: later).get ⟨earlier.length, by simp⟩ = e := by simp
  refine ⟨_, hget, hget.symm ▸ hmatches, fun j hj hmatch => ?_, fun j hj hmatch => ?_⟩
  · have hlt : j.val < earlier.length := hj
    rw [hget]
    refine hearlier _ ?_ hmatch
    rw [List.get_eq_getElem, List.getElem_append_left hlt]
    exact List.getElem_mem _
  · have hlt : earlier.length < j.val := hj
    rw [hget]
    refine hlater _ ?_ hmatch
    rw [List.get_eq_getElem, List.getElem_append_right hlt.le, List.getElem_cons,
      dif_neg (by omega)]
    exact List.getElem_mem _

/-- No entry that matches is more specific than the winner. -/
theorem Wins.le {i : Fin entries.length} (h : Wins entries s i) (j : Fin entries.length)
    (hmatch : Matches (entries.get j).1 s) :
    keyRank (entries.get j).1 ≤ keyRank (entries.get i).1 := by
  rcases lt_trichotomy j i with hj | rfl | hj
  · exact (h.lt_of_lt j hj hmatch).le
  · exact le_rfl
  · exact h.le_of_lt j hj hmatch

theorem Wins.unique {i j : Fin entries.length} (hi : Wins entries s i) (hj : Wins entries s j) :
    i = j := by
  rcases lt_trichotomy i j with hlt | heq | hlt
  · exact absurd (hi.le j hj.matches_key) (hj.lt_of_lt i hlt hi.matches_key).not_ge
  · exact heq
  · exact absurd (hj.le i hi.matches_key) (hi.lt_of_lt j hlt hj.matches_key).not_ge

/-- The winner wins in any order that is the same among rivals: an entry that comes before it there
did so already or is no rival, and it is less specific either way. -/
theorem Wins.reorder {σ : Fin entries.length ≃ Fin entries'.length} {i : Fin entries.length}
    (hσ : ∀ i, entries'.get (σ i) = entries.get i)
    (hrivals : ∀ i j, i < j → Rivals (entries.get i).1 (entries.get j).1 → σ i < σ j)
    (h : Wins entries s i) : Wins entries' s (σ i) := by
  have hback : ∀ j, entries'.get j = entries.get (σ.symm j) := by
    intro j
    rw [← hσ, σ.apply_symm_apply]
  refine ⟨(hσ i).symm ▸ h.matches_key, fun j hj hmatch => ?_, fun j _ hmatch => ?_⟩
  · rw [hback] at hmatch ⊢
    rw [hσ]
    rcases lt_trichotomy (σ.symm j) i with hlt | rfl | hlt
    · exact h.lt_of_lt _ hlt hmatch
    · rw [σ.apply_symm_apply] at hj
      exact absurd hj (lt_irrefl j)
    · refine lt_of_le_of_ne (h.le _ hmatch) fun hrank => ?_
      have hafter := hrivals i _ hlt (rivals_of_keyRank_eq h.matches_key hmatch hrank.symm)
      rw [σ.apply_symm_apply] at hafter
      exact absurd hj hafter.not_gt
  · rw [hback] at hmatch ⊢
    rw [hσ]
    exact h.le _ hmatch

theorem Reorders.mem_iff (h : Reorders entries entries') : e ∈ entries' ↔ e ∈ entries := by
  obtain ⟨σ, hσ, -⟩ := h
  rw [List.mem_iff_get, List.mem_iff_get]
  refine σ.exists_congr_right.symm.trans (exists_congr fun i => ?_)
  rw [hσ]

/-! ## The mapping -/

/-- A rule is what its entry is parsed to. -/
theorem Rule.eq_of_entry_eq {r r' : Rule} (hr : Pattern.parse r.pattern.key = .ok r.pattern)
    (hr' : Pattern.parse r'.pattern.key = .ok r'.pattern) (h : r.entry = r'.entry) : r = r' := by
  obtain ⟨p, outputs⟩ := r
  obtain ⟨p', outputs'⟩ := r'
  obtain ⟨hkey, rfl⟩ := Prod.mk.inj h
  dsimp only at hr hr' hkey
  rw [hkey, hr'] at hr
  rw [Except.ok.inj hr]

namespace Mapper

/-- Options make a mapper if they have no entries, or else a base directory and only keys that can
be parsed. -/
theorem exists_ofOptions_iff {o : MappingOptions} :
    (∃ m, ofOptions o = .ok m) ↔
      o.paths.getD [] = [] ∨ (o.baseUrl.filter (· ≠ .empty)).isSome ∧
        ∀ e ∈ o.paths.getD [], ∃ r, Rule.ofEntry e = .ok r := by
  rw [← exists_mapM_eq_ok_iff]
  constructor
  · rintro ⟨m, hm⟩
    rcases ofOptions_eq_ok_iff.mp hm with ⟨hnil, -⟩ | ⟨-, hbase, hrules⟩
    · exact Or.inl hnil
    · exact Or.inr ⟨Option.isSome_of_eq_some hbase, m.rules, mapM_eq_ok_iff.mpr hrules⟩
  · intro h
    by_cases hnil : o.paths.getD [] = []
    · exact ⟨{}, ofOptions_eq_ok_iff.mpr (Or.inl ⟨hnil, rfl⟩)⟩
    · obtain ⟨hsome, rules, hrules⟩ := h.resolve_left hnil
      obtain ⟨base, hbase⟩ := Option.isSome_iff_exists.mp hsome
      exact ⟨⟨base, rules⟩,
        ofOptions_eq_ok_iff.mpr (Or.inr ⟨hnil, hbase, mapM_eq_ok_iff.mp hrules⟩)⟩

/-- The best match is by the entry that wins. -/
theorem exists_wins_of_best? {m : Mapper}
    (hparse : ∀ r ∈ m.rules, Pattern.parse r.pattern.key = .ok r.pattern) {s c : String} {r : Rule}
    (h : m.best? s = some (r, c)) :
    r ∈ m.rules ∧ r.pattern.capture? s = some c ∧
      ∃ i, (m.rules.map Rule.entry).get i = r.entry ∧ Wins (m.rules.map Rule.entry) s i := by
  have hbest := best_best? m s
  rw [h] at hbest
  obtain ⟨earlier, later, hrules, hwinner⟩ := winner_of_best hparse hbest
  exact ⟨hrules ▸ List.mem_append_right _ List.mem_cons_self, hbest.1, hwinner.exists_wins⟩

/-- The best match is the same in any order that is the same among rivals. -/
theorem best?_eq_of_reorders {m m' : Mapper}
    (hparse : ∀ r ∈ m.rules, Pattern.parse r.pattern.key = .ok r.pattern)
    (hparse' : ∀ r ∈ m'.rules, Pattern.parse r.pattern.key = .ok r.pattern)
    (h : Reorders (m.rules.map Rule.entry) (m'.rules.map Rule.entry)) (s : String) :
    m.best? s = m'.best? s := by
  have hsome : (m.best? s).isSome ↔ (m'.best? s).isSome := by
    rw [isSome_best?_iff hparse, isSome_best?_iff hparse']
    exact exists_congr fun e => and_congr_left fun _ => h.mem_iff.symm
  cases hbest : m.best? s with
  | none =>
    rw [hbest] at hsome
    exact (Option.not_isSome_iff_eq_none.mp (mt hsome.mpr Bool.false_ne_true)).symm
  | some b =>
    rw [hbest] at hsome
    obtain ⟨r, c⟩ := b
    obtain ⟨⟨r', c'⟩, hbest'⟩ := Option.isSome_iff_exists.mp (hsome.mp rfl)
    obtain ⟨hr, hc, i, hi, hwins⟩ := exists_wins_of_best? hparse hbest
    obtain ⟨hr', hc', i', hi', hwins'⟩ := exists_wins_of_best? hparse' hbest'
    obtain ⟨σ, hσ, hrivals⟩ := h
    obtain rfl := hwins'.unique (hwins.reorder hσ hrivals)
    have hentry : r.entry = r'.entry := by rw [← hi, ← hi', hσ]
    obtain rfl := Rule.eq_of_entry_eq (hparse r hr) (hparse' r' hr') hentry
    obtain rfl : c = c' := Option.some_inj.mp (hc.symm.trans hc')
    rw [hbest']

/-- Mappers with the same best match give the same candidates, if their base directories are the
same should they have rules. -/
theorem map?_eq_of_best?_eq {m m' : Mapper}
    (hbase : m.rules ≠ [] → m'.rules ≠ [] → m.baseDirectory = m'.baseDirectory) {s : String}
    (h : m.best? s = m'.best? s) : m.map? s = m'.map? s := by
  have hrules : ∀ (m : Mapper) b, m.best? s = some b → m.rules ≠ [] := by
    rintro ⟨_, _ | _⟩ b hb
    · cases hb
    · exact List.cons_ne_nil _ _
  rw [map?, map?, h]
  cases hbest : m'.best? s with
  | none => rfl
  | some b => rw [hbase (hrules m b (h.trans hbest)) (hrules m' b hbest)]

/-- **The order of entries matters among rivals only.**  Options with the same base directory and
the same entries, in another order that is the same among rivals, make a mapper or not alike; and
the two mappers give the same rule and the same candidates for each specifier. -/
theorem map?_eq_of_reorders {entries entries' : List (String × List String)}
    (h : Reorders entries entries') (base : Option Path) :
    (∃ m m', ofOptions ⟨base, some entries⟩ = .ok m ∧ ofOptions ⟨base, some entries'⟩ = .ok m' ∧
        ∀ s, m.map? s = m'.map? s) ∨
      (∃ f f', ofOptions ⟨base, some entries⟩ = .error f ∧
        ofOptions ⟨base, some entries'⟩ = .error f') := by
  have hmakes : (∃ m, ofOptions ⟨base, some entries⟩ = .ok m) ↔
      ∃ m, ofOptions ⟨base, some entries'⟩ = .ok m := by
    simp only [exists_ofOptions_iff, Option.getD_some, List.eq_nil_iff_forall_not_mem, h.mem_iff]
  cases hm : ofOptions ⟨base, some entries⟩ with
  | error f =>
    cases hm' : ofOptions ⟨base, some entries'⟩ with
    | error f' => exact Or.inr ⟨f, f', rfl, rfl⟩
    | ok m' =>
      obtain ⟨m, hok⟩ := hmakes.mpr ⟨m', hm'⟩
      cases hm.symm.trans hok
  | ok m =>
    obtain ⟨m', hm'⟩ := hmakes.mp ⟨m, hm⟩
    refine Or.inl ⟨m, m', rfl, hm', fun s => ?_⟩
    obtain ⟨hentries, hparse⟩ := rules_of_ofOptions hm
    obtain ⟨hentries', hparse'⟩ := rules_of_ofOptions hm'
    rw [Option.getD_some] at hentries hentries'
    refine map?_eq_of_best?_eq (fun hrules hrules' => ?_)
      (best?_eq_of_reorders hparse hparse' (hentries.symm ▸ hentries'.symm ▸ h) s)
    have hbase : base = some m.baseDirectory := baseUrl_of_ofOptions hm hrules
    have hbase' : base = some m'.baseDirectory := baseUrl_of_ofOptions hm' hrules'
    exact Option.some_inj.mp (hbase.symm.trans hbase')

/-- Four entries, the first and the third of them rivals. -/
def fourEntries : List (String × List String) :=
  [("a/*", ["x/*"]), ("b", ["y"]), ("a/*.js", ["z/*"]), ("*", ["w/*"])]

/-- The entries of `fourEntries` with the last one first and the second one last. -/
def fourReordered : List (String × List String) :=
  [("*", ["w/*"]), ("a/*", ["x/*"]), ("a/*.js", ["z/*"]), ("b", ["y"])]

/-- Where each of `fourEntries` is in `fourReordered`. -/
def fourPlaces : Fin 4 ≃ Fin 4 where
  toFun := ![1, 3, 2, 0]
  invFun := ![3, 0, 2, 1]
  left_inv := by decide
  right_inv := by decide

theorem reorders_fourEntries : Reorders fourEntries fourReordered := by
  have hget : ∀ i : Fin fourEntries.length,
      fourReordered.get (fourPlaces i : Fin 4) = fourEntries.get i := by decide
  have hplace : ∀ i j : Fin fourEntries.length, i < j →
      (fourEntries.get i).1.toList.takeWhile (· ≠ '*') =
        (fourEntries.get j).1.toList.takeWhile (· ≠ '*') →
      fourPlaces i < fourPlaces j := by decide
  exact ⟨fourPlaces, hget, fun i j hij h => hplace i j hij h.takeWhile_eq⟩

theorem map?_eq_of_reorders_fourEntries :
    ∃ m m', ofOptions ⟨some (.ofText "/src"), some fourEntries⟩ = .ok m ∧
      ofOptions ⟨some (.ofText "/src"), some fourReordered⟩ = .ok m' ∧
      (∀ s, m.map? s = m'.map? s) ∧
      m.map? "a/k.js" = some (⟨.wildcard "a/" "", ["x/*"]⟩, [.ofText "/src/x/k.js"]) := by
  rcases map?_eq_of_reorders reorders_fourEntries (some (.ofText "/src")) with
    ⟨m, m', hm, hm', hmap⟩ | ⟨f, _, hf, _⟩
  · refine ⟨m, m', hm, hm', hmap, ?_⟩
    obtain rfl := Except.ok.inj (hm.symm.trans (by rfl))
    decide
  · cases hf

end Mapper

end ModuleMap
