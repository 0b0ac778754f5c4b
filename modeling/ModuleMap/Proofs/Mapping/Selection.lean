import Mathlib.Data.List.Induction
import ModuleMap.Proofs.FirstFailure
import ModuleMap.Proofs.Mapping.Key

/-!
# The rule that maps a specifier

A specifier is mapped by the first of the most specific rules that match it.  The search keeps the
best match so far, and a later rule takes its place only if it is more specific; so the list of
rules falls apart at the winner into earlier ones that are less specific and later ones that are not
more specific.

* `Best`: this division of the rules, kept by one step of the search (`best_better`) and so found
  by all of it (`best_best?`).
* `Mapper.ofOptions_eq_ok_iff`, `Mapper.rules_of_ofOptions`: the rules are those of the entries, in
  their order.
* `Winner`, `CandidatesOf`: the entry that is to map a specifier, and what it gives.
* `Mapper.map?_selects`: which specifiers are mapped, by which entry, and to what.
-/

namespace ModuleMap

/-! ## The running maximum -/

/-- The best match among rules: none if no rule matches, else the first of the most specific rules
that match, with what it captures. -/
def Best (s : String) (rules : List Rule) : Option (Rule × String) → Prop
  | none => ∀ r ∈ rules, r.pattern.capture? s = none
  | some (b, c) =>
    b.pattern.capture? s = some c ∧ ∃ earlier later, rules = earlier ++ b :: later ∧
      (∀ r ∈ earlier, (r.pattern.capture? s).isSome →
        r.pattern.specificity.rank < b.pattern.specificity.rank) ∧
      ∀ r ∈ later, (r.pattern.capture? s).isSome →
        r.pattern.specificity.rank ≤ b.pattern.specificity.rank

theorem best_nil (s : String) : Best s [] none :=
  fun _ hr => absurd hr List.not_mem_nil

/-- The best match stays if the next rule, should it match, is not more specific. -/
theorem Best.keep {s : String} {rules : List Rule} {best : Option (Rule × String)} {r : Rule}
    (h : Best s rules best)
    (hr : ∀ b ∈ best, (r.pattern.capture? s).isSome →
      r.pattern.specificity.rank ≤ b.1.pattern.specificity.rank)
    (hnone : best = none → r.pattern.capture? s = none) : Best s (rules ++ [r]) best := by
  cases best with
  | none =>
    intro r' hr'
    rcases List.mem_append.mp hr' with hmem | hmem
    · exact h r' hmem
    · rw [List.mem_singleton.mp hmem, hnone rfl]
  | some b =>
    obtain ⟨hc, earlier, later, rfl, hearlier, hlater⟩ := h
    refine ⟨hc, earlier, later ++ [r], by simp, hearlier, fun r' hr' hsome => ?_⟩
    rcases List.mem_append.mp hr' with hmem | hmem
    · exact hlater r' hmem hsome
    · rw [List.mem_singleton.mp hmem] at hsome ⊢
      exact hr b rfl hsome

/-- The next rule becomes the best match if it matches and is more specific. -/
theorem Best.take {s c : String} {rules : List Rule} {best : Option (Rule × String)} {r : Rule}
    (h : Best s rules best) (hc : r.pattern.capture? s = some c)
    (hr : ∀ b ∈ best, b.1.pattern.specificity.rank < r.pattern.specificity.rank) :
    Best s (rules ++ [r]) (some (r, c)) := by
  refine ⟨hc, rules, [], rfl, fun r' hr' hsome => ?_, fun r' hr' => nomatch hr'⟩
  cases best with
  | none =>
    rw [h r' hr'] at hsome
    cases hsome
  | some b =>
    obtain ⟨-, earlier, later, rfl, hearlier, hlater⟩ := h
    have hrank := hr b rfl
    rcases List.mem_append.mp hr' with hmem | hmem
    · exact (hearlier r' hmem hsome).trans hrank
    rcases List.mem_cons.mp hmem with rfl | hmem
    · exact hrank
    · exact (hlater r' hmem hsome).trans_lt hrank

/-- One step of the search keeps the best match. -/
theorem best_better {s : String} {rules : List Rule} {best : Option (Rule × String)}
    (h : Best s rules best) (r : Rule) : Best s (rules ++ [r]) (Mapper.better s best r) := by
  cases hr : r.pattern.capture? s with
  | none =>
    simp only [Mapper.better, hr]
    exact h.keep (fun b _ hsome => by simp [hr] at hsome) fun _ => hr
  | some c =>
    cases best with
    | none =>
      simp only [Mapper.better, hr]
      exact h.take hr fun b hb => nomatch hb
    | some b =>
      obtain ⟨b, text⟩ := b
      simp only [Mapper.better, hr]
      split
      · next hgt =>
        refine h.take hr fun b' hb' => ?_
        cases hb'
        exact (Specificity.compare_eq_gt_iff _ _).mp hgt
      · next hgt =>
        refine h.keep (fun b' hb' _ => ?_) fun hnone => nomatch hnone
        cases hb'
        exact not_lt.mp (mt (Specificity.compare_eq_gt_iff _ _).mpr hgt)

/-- There is a best match if and only if some rule matches. -/
theorem Best.isSome_iff {s : String} {rules : List Rule} {best : Option (Rule × String)}
    (h : Best s rules best) : best.isSome ↔ ∃ r ∈ rules, (r.pattern.capture? s).isSome := by
  cases best with
  | none =>
    constructor
    · intro hsome
      cases hsome
    · rintro ⟨r, hr, hsome⟩
      rw [h r hr] at hsome
      cases hsome
  | some b =>
    obtain ⟨hc, earlier, later, rfl, -, -⟩ := h
    refine ⟨fun _ => ⟨b.1, by simp, ?_⟩, fun _ => rfl⟩
    rw [hc, Option.isSome_some]

/-- The search finds the best match. -/
theorem best_best? (m : Mapper) (s : String) : Best s m.rules (m.best? s) := by
  rw [Mapper.best?]
  induction m.rules using List.reverseRecOn with
  | nil => exact best_nil s
  | append_singleton rules r ih =>
    rw [List.foldl_append]
    exact best_better ih r

/-! ## Entries and rules -/

namespace Rule

/-- The entry that a rule stands for. -/
def entry (r : Rule) : String × List String :=
  (r.pattern.key, r.outputs)

/-- A rule stands for the entry that it was made of, and its pattern is the parsed key. -/
theorem entry_of_ofEntry {e : String × List String} {r : Rule} (h : ofEntry e = .ok r) :
    r.entry = e ∧ Pattern.parse r.pattern.key = .ok r.pattern := by
  rw [ofEntry] at h
  cases hp : Pattern.parse e.1 with
  | error f =>
    rw [hp] at h
    cases h
  | ok p =>
    rw [hp] at h
    cases h
    have hkey := Pattern.key_of_parse hp
    exact ⟨Prod.ext hkey rfl, hkey.symm ▸ hp⟩

end Rule

namespace Mapper

/-- Options without entries make a mapper without rules; others make one of their base directory and
the rules of the entries, in their order. -/
theorem ofOptions_eq_ok_iff {o : MappingOptions} {m : Mapper} :
    ofOptions o = .ok m ↔
      (o.paths.getD [] = [] ∧ m = {}) ∨
        (o.paths.getD [] ≠ [] ∧ o.baseUrl.filter (· ≠ .empty) = some m.baseDirectory ∧
          List.Forall₂ (fun e r => Rule.ofEntry e = .ok r) (o.paths.getD []) m.rules) := by
  obtain ⟨base, rules⟩ := m
  unfold ofOptions
  rcases o.paths.getD [] with _ | ⟨e, entries⟩
  · simp [eq_comm]
  · cases o.baseUrl.filter (· ≠ .empty) with
    | none => simp
    | some base' =>
      rw [← mapM_eq_ok_iff]
      dsimp only
      generalize (e :: entries).mapM Rule.ofEntry = parsed
      cases parsed <;> simp [bind, Except.bind, pure, Except.pure]

/-- A mapper has the rules of the entries, in their order. -/
theorem forall₂_of_ofOptions {o : MappingOptions} {m : Mapper} (h : ofOptions o = .ok m) :
    List.Forall₂ (fun e r => Rule.ofEntry e = .ok r) (o.paths.getD []) m.rules := by
  rcases ofOptions_eq_ok_iff.mp h with ⟨hentries, rfl⟩ | ⟨-, -, hrules⟩
  · rw [hentries]
    exact .nil
  · exact hrules

/-- A mapper that has rules has the base directory that is given. -/
theorem baseUrl_of_ofOptions {o : MappingOptions} {m : Mapper} (h : ofOptions o = .ok m)
    (hrules : m.rules ≠ []) : o.baseUrl = some m.baseDirectory := by
  rcases ofOptions_eq_ok_iff.mp h with ⟨-, rfl⟩ | ⟨-, hbase, -⟩
  · exact absurd rfl hrules
  · exact (Option.filter_eq_some_iff.mp hbase).1

/-- The entries can be read off the rules, and the rules are what their keys are parsed to. -/
theorem rules_of_ofOptions {o : MappingOptions} {m : Mapper} (h : ofOptions o = .ok m) :
    m.rules.map Rule.entry = o.paths.getD [] ∧
      ∀ r ∈ m.rules, Pattern.parse r.pattern.key = .ok r.pattern := by
  have hrules := forall₂_of_ofOptions h
  generalize o.paths.getD [] = entries, m.rules = rules at hrules ⊢
  induction hrules with
  | nil => exact ⟨rfl, fun _ hr => nomatch hr⟩
  | cons he _ ih =>
    obtain ⟨hentry, hparse⟩ := Rule.entry_of_ofEntry he
    refine ⟨by rw [List.map_cons, ih.1, hentry], fun r hr => ?_⟩
    rcases List.mem_cons.mp hr with rfl | hr
    · exact hparse
    · exact ih.2 r hr

end Mapper

/-! ## The mapping -/

/-- The entry that is to map a specifier: it matches, the matching entries before it rank lower, and
those after it rank no higher. -/
structure Winner (entries : List (String × List String)) (s : String)
    (earlier : List (String × List String)) (e : String × List String)
    (later : List (String × List String)) : Prop where
  entries_eq : entries = earlier ++ e :: later
  matches_key : Matches e.1 s
  lt_of_mem_earlier : ∀ e' ∈ earlier, Matches e'.1 s → keyRank e'.1 < keyRank e.1
  le_of_mem_later : ∀ e' ∈ later, Matches e'.1 s → keyRank e'.1 ≤ keyRank e.1

/-- The candidates that an entry gives for a specifier: its outputs in their order, each with what
the key captures, which is one text only, in the place of its first star, and then joined to the
base directory. -/
def CandidatesOf (base : Path) (e : String × List String) (s : String) (candidates : List Path) :
    Prop :=
  ∃ c, (∀ c', Captures e.1 s c' ↔ c' = c) ∧
    List.Forall₂
      (fun template candidate => ∃ output, FirstStarFilled c template output ∧
        candidate = base.joinNormalized (.ofText output))
      e.2 candidates

theorem candidatesOf_entry {r : Rule} {s c : String}
    (hparse : Pattern.parse r.pattern.key = .ok r.pattern)
    (hc : r.pattern.capture? s = some c) (base : Path) :
    CandidatesOf base r.entry s
      ((r.outputsFor c).map fun output => base.joinNormalized (.ofText output)) := by
  refine ⟨c, fun c' => ?_, ?_⟩
  · have hcapture := Pattern.capture?_iff hparse s c'
    rw [hc, Option.some.injEq, eq_comm] at hcapture
    exact hcapture.symm
  · rw [Rule.outputsFor, List.map_map, List.forall₂_map_right_iff]
    exact List.forall₂_same.mpr fun template _ => ⟨_, firstStarFilled_fillStar template c, rfl⟩

/-- The best match among rules is by the entry that is to map the specifier. -/
theorem winner_of_best {s c : String} {rules : List Rule} {r : Rule}
    (hparse : ∀ r ∈ rules, Pattern.parse r.pattern.key = .ok r.pattern)
    (h : Best s rules (some (r, c))) :
    ∃ earlier later, rules = earlier ++ r :: later ∧
      Winner (rules.map Rule.entry) s (earlier.map Rule.entry) r.entry (later.map Rule.entry) := by
  obtain ⟨hc, earlier, later, rfl, hearlier, hlater⟩ := h
  have hrank : ∀ r' ∈ earlier ++ r :: later, r'.pattern.specificity.rank = keyRank r'.entry.1 :=
    fun r' hr' => Pattern.rank_specificity (hparse r' hr')
  have hmatch : ∀ r' ∈ earlier ++ r :: later,
      ((r'.pattern.capture? s).isSome ↔ Matches r'.entry.1 s) :=
    fun r' hr' => Pattern.isSome_capture?_iff (hparse r' hr') s
  have hr : r ∈ earlier ++ r :: later := List.mem_append_right _ List.mem_cons_self
  refine ⟨earlier, later, rfl, by simp, (hmatch r hr).mp (by rw [hc, Option.isSome_some]), ?_, ?_⟩
  · intro e' he' hm
    obtain ⟨r', hr', rfl⟩ := List.mem_map.mp he'
    have hmem : r' ∈ earlier ++ r :: later := List.mem_append_left _ hr'
    rw [← hrank r' hmem, ← hrank r hr]
    exact hearlier r' hr' ((hmatch r' hmem).mpr hm)
  · intro e' he' hm
    obtain ⟨r', hr', rfl⟩ := List.mem_map.mp he'
    have hmem : r' ∈ earlier ++ r :: later :=
      List.mem_append_right _ (List.mem_cons_of_mem _ hr')
    rw [← hrank r' hmem, ← hrank r hr]
    exact hlater r' hr' ((hmatch r' hmem).mpr hm)

namespace Mapper

/-- There is a best match if and only if some key matches. -/
theorem isSome_best?_iff {m : Mapper}
    (hparse : ∀ r ∈ m.rules, Pattern.parse r.pattern.key = .ok r.pattern) (s : String) :
    (m.best? s).isSome ↔ ∃ e ∈ m.rules.map Rule.entry, Matches e.1 s := by
  rw [(best_best? m s).isSome_iff]
  constructor
  · rintro ⟨r, hr, hsome⟩
    have hmatch := (Pattern.isSome_capture?_iff (hparse r hr) s).mp hsome
    exact ⟨r.entry, List.mem_map_of_mem hr, hmatch⟩
  · rintro ⟨e, he, hmatch⟩
    obtain ⟨r, hr, rfl⟩ := List.mem_map.mp he
    exact ⟨r, hr, (Pattern.isSome_capture?_iff (hparse r hr) s).mpr hmatch⟩

/-- A specifier is mapped if and only if it does not start with a dot and some key matches it. -/
theorem isSome_map?_iff {m : Mapper}
    (hparse : ∀ r ∈ m.rules, Pattern.parse r.pattern.key = .ok r.pattern) (s : String) :
    (m.map? s).isSome ↔
      s.toList.head? ≠ some '.' ∧ ∃ e ∈ m.rules.map Rule.entry, Matches e.1 s := by
  rw [map?]
  split
  · next hdot => simp [hdot]
  · next hdot => rw [Option.isSome_map, isSome_best?_iff hparse, and_iff_right hdot]

/-- **Which entry maps a specifier, and to what.**  A specifier is mapped if and only if it does not
start with a dot and some key matches it.  Then the first of the matching entries of highest rank
maps it, by the rule at the place of the entry, to the candidates of that entry. -/
theorem map?_selects {o : MappingOptions} {m : Mapper} (h : ofOptions o = .ok m) (s : String) :
    ((m.map? s).isSome ↔
      s.toList.head? ≠ some '.' ∧ ∃ e ∈ o.paths.getD [], Matches e.1 s) ∧
    ∀ r candidates, m.map? s = some (r, candidates) →
      ∃ earlier later, Winner (o.paths.getD []) s earlier r.entry later ∧
        m.rules[earlier.length]? = some r ∧ CandidatesOf m.baseDirectory r.entry s candidates := by
  obtain ⟨hentries, hparse⟩ := rules_of_ofOptions h
  rw [← hentries]
  refine ⟨isSome_map?_iff hparse s, fun r candidates hmap => ?_⟩
  rw [map?] at hmap
  split at hmap
  · cases hmap
  obtain ⟨⟨b, c⟩, hb, heq⟩ := Option.map_eq_some_iff.mp hmap
  cases heq
  have hbest := best_best? m s
  rw [hb] at hbest
  obtain ⟨earlier, later, hrules, hwinner⟩ := winner_of_best hparse hbest
  have hmem : r ∈ m.rules := hrules ▸ List.mem_append_right _ List.mem_cons_self
  refine ⟨_, _, hwinner, by simp [hrules], ?_⟩
  exact candidatesOf_entry (hparse r hmem) hbest.1 m.baseDirectory

/-- Three entries that match one specifier, the last two with equally specific keys. -/
def tiedOptions : MappingOptions where
  baseUrl := some (.ofText "/src")
  paths := some [("pkg*", ["a/*"]), ("pkg/*", ["b/*", "*/*", "plain"]), ("pkg/*", ["c"])]

/-- The mapper of `tiedOptions`. -/
def tiedMapper : Mapper where
  baseDirectory := .ofText "/src"
  rules :=
    [⟨.wildcard "pkg" "", ["a/*"]⟩, ⟨.wildcard "pkg/" "", ["b/*", "*/*", "plain"]⟩,
     ⟨.wildcard "pkg/" "", ["c"]⟩]

/-- A star that is captured is left alone, and so is the second star of a template. -/
theorem map?_selects_tied :
    ofOptions tiedOptions = .ok tiedMapper ∧
      tiedMapper.map? "pkg/x*" =
        some (⟨.wildcard "pkg/" "", ["b/*", "*/*", "plain"]⟩,
          [.ofText "/src/b/x*", .ofText "/src/x*/*", .ofText "/src/plain"]) ∧
      ∃ earlier later,
        Winner (tiedOptions.paths.getD []) "pkg/x*" earlier
          ("pkg/*", ["b/*", "*/*", "plain"]) later ∧
        tiedMapper.rules[earlier.length]? =
          some ⟨.wildcard "pkg/" "", ["b/*", "*/*", "plain"]⟩ ∧
        CandidatesOf (.ofText "/src") ("pkg/*", ["b/*", "*/*", "plain"]) "pkg/x*"
          [.ofText "/src/b/x*", .ofText "/src/x*/*", .ofText "/src/plain"] := by
  have hmapper : ofOptions tiedOptions = .ok tiedMapper := rfl
  have hmap : tiedMapper.map? "pkg/x*" =
      some (⟨.wildcard "pkg/" "", ["b/*", "*/*", "plain"]⟩,
        [.ofText "/src/b/x*", .ofText "/src/x*/*", .ofText "/src/plain"]) := by decide
  exact ⟨hmapper, hmap, (map?_selects hmapper "pkg/x*").2 _ _ hmap⟩

end Mapper

end ModuleMap
