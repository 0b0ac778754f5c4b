import Mathlib.Data.ENat.Basic
import ModuleMap.Mapping.Mapper

/-!
# Keys of `paths` entries, as texts

What a key means is said here on its text, without the pattern that it is parsed to: which
specifiers it matches and what it captures, and how specific it is.  The parsed pattern is then
shown to say the same.

* `Captures`, `Matches`: what a key captures from a specifier.
* `keyRank`: how specific a key is, with `keyRank_wildcard`.
* `FirstStarFilled`: a template with a text in the place of its first star, with
  `firstStarFilled_fillStar`.
* `splitStar?_eq_some_iff`, `Pattern.parse_eq_ok`, `Pattern.parse_eq_error_iff`: what parsing a key
  gives.
* `Pattern.capture?_iff`, `Pattern.rank_specificity`, `Specificity.compare_eq_gt_iff`: the parsed
  pattern captures as the key does, and is as specific.
-/

namespace ModuleMap

/-! ## What keys mean -/

/-- What a key captures from a specifier.  A key without a star matches the specifier that it is,
and captures all of it; a key with one star captures what stands in the place of the star. -/
inductive Captures : (key specifier captured : String) → Prop
  | static {key : String} (hkey : '*' ∉ key.toList) : Captures key key key
  | wildcard {before after : String} (captured : String) (hbefore : '*' ∉ before.toList)
      (hafter : '*' ∉ after.toList) :
      Captures (before ++ "*" ++ after) (before ++ captured ++ after) captured

/-- Whether a key matches a specifier. -/
def Matches (key specifier : String) : Prop :=
  ∃ captured, Captures key specifier captured

/-- How specific a key is: the bytes before the star, and above all of these a key without one. -/
noncomputable def keyRank (key : String) : ℕ∞ :=
  if '*' ∈ key.toList then (String.ofList (key.toList.takeWhile (· ≠ '*'))).utf8ByteSize else ⊤

/-- A template with a text in the place of its first star. -/
inductive FirstStarFilled (fill : String) : (template output : String) → Prop
  | plain {template : String} (h : '*' ∉ template.toList) : FirstStarFilled fill template template
  | star {before : String} (after : String) (h : '*' ∉ before.toList) :
      FirstStarFilled fill (before ++ "*" ++ after) (before ++ fill ++ after)

/-! ## The first star of a text -/

theorem splitStar?_eq_none_iff {cs : List Char} : splitStar? cs = none ↔ '*' ∉ cs := by
  induction cs with
  | nil => simp
  | cons c cs ih =>
    rw [splitStar?_cons]
    by_cases hc : c = '*'
    · simp [hc]
    · simp [hc, ih, Ne.symm hc]

/-- A text is split at a star that no other precedes. -/
theorem splitStar?_append {before : List Char} (h : '*' ∉ before) (after : List Char) :
    splitStar? (before ++ '*' :: after) = some (before, after) := by
  induction before with
  | nil => rfl
  | cons c before ih =>
    obtain ⟨hc, hbefore⟩ := not_or.mp (mt List.mem_cons.mpr h)
    rw [List.cons_append, splitStar?_cons, if_neg (Ne.symm hc), ih hbefore]
    rfl

/-- The first star is where a text is split. -/
theorem splitStar?_eq_some_iff {cs before after : List Char} :
    splitStar? cs = some (before, after) ↔ cs = before ++ '*' :: after ∧ '*' ∉ before := by
  constructor
  · intro h
    induction cs generalizing before with
    | nil => cases h
    | cons c cs ih =>
      rw [splitStar?_cons] at h
      split at h
      · next hc =>
        cases h
        exact ⟨by rw [hc, List.nil_append], List.not_mem_nil⟩
      · next hc =>
        obtain ⟨⟨x, y⟩, hxy, heq⟩ := Option.map_eq_some_iff.mp h
        cases heq
        obtain ⟨hcs, hx⟩ := ih hxy
        exact ⟨by rw [hcs, List.cons_append], by simp [Ne.symm hc, hx]⟩
  · rintro ⟨rfl, h⟩
    exact splitStar?_append h after

theorem splitStar?_toList_append {before : String} (h : '*' ∉ before.toList) (after : String) :
    splitStar? (before ++ "*" ++ after).toList = some (before.toList, after.toList) := by
  have hsplit := splitStar?_append h after.toList
  simpa using hsplit

/-- The texts before and after the first star are no others. -/
theorem star_inj {before after before' after' : String} (h : '*' ∉ before.toList)
    (h' : '*' ∉ before'.toList) (heq : before ++ "*" ++ after = before' ++ "*" ++ after') :
    before = before' ∧ after = after' := by
  have hsplit := splitStar?_toList_append h after
  rw [heq, splitStar?_toList_append h' after', Option.some.injEq, Prod.mk.injEq] at hsplit
  exact ⟨String.toList_injective hsplit.1.symm, String.toList_injective hsplit.2.symm⟩

/-- The texts before and after the first star of a text. -/
theorem splitStar?_toList_eq_some {s : String} {before after : List Char}
    (h : splitStar? s.toList = some (before, after)) :
    s = String.ofList before ++ "*" ++ String.ofList after ∧
      '*' ∉ (String.ofList before).toList := by
  obtain ⟨hs, hbefore⟩ := splitStar?_eq_some_iff.mp h
  refine ⟨String.toList_injective ?_, by rwa [String.toList_ofList]⟩
  simp [hs]

/-- Filling a template puts the text in the place of the first star. -/
theorem firstStarFilled_fillStar (template fill : String) :
    FirstStarFilled fill template (fillStar template fill) := by
  rw [fillStar]
  split
  · next before after h =>
    obtain ⟨htemplate, hbefore⟩ := splitStar?_toList_eq_some h
    have houtput : String.ofList (before ++ fill.toList ++ after) =
        String.ofList before ++ fill ++ String.ofList after := by
      apply String.toList_injective
      simp
    rw [houtput, htemplate]
    exact .star _ hbefore
  · next h => exact .plain (splitStar?_eq_none_iff.mp h)

/-! ## Parsed keys -/

namespace Pattern

/-- A key that can be parsed either has no star or just one, and the pattern says which. -/
theorem parse_eq_ok {key : String} {p : Pattern} (h : parse key = .ok p) :
    ('*' ∉ key.toList ∧ p = static key) ∨
      ∃ before after, '*' ∉ before.toList ∧ '*' ∉ after.toList ∧
        key = before ++ "*" ++ after ∧ p = wildcard before after := by
  rw [parse] at h
  split at h
  · next hnone =>
    cases h
    exact .inl ⟨splitStar?_eq_none_iff.mp hnone, rfl⟩
  · next before after hsome =>
    obtain ⟨hkey, hbefore⟩ := splitStar?_toList_eq_some hsome
    split at h
    · cases h
    · next hafter =>
      cases h
      exact .inr ⟨_, _, hbefore, by rwa [String.toList_ofList], hkey, rfl⟩

/-- A key cannot be parsed if it has more than one star. -/
theorem parse_eq_error_iff {key : String} {f : Fault} :
    parse key = .error f ↔ 2 ≤ key.toList.count '*' ∧ f = .twoWildcards key := by
  rw [parse]
  split
  · next hnone =>
    have hcount : key.toList.count '*' = 0 :=
      List.count_eq_zero.mpr (splitStar?_eq_none_iff.mp hnone)
    simp [hcount]
  · next before after hsome =>
    obtain ⟨hkey, hbefore⟩ := splitStar?_eq_some_iff.mp hsome
    have hcount : key.toList.count '*' = after.count '*' + 1 := by
      rw [hkey, List.count_append, List.count_cons_self, List.count_eq_zero.mpr hbefore, zero_add]
    split
    · next hafter =>
      have hpos : 0 < after.count '*' := List.count_pos_iff.mpr hafter
      rw [hcount, Except.error.injEq, eq_comm, and_iff_right (by omega)]
    · next hafter => simp [hcount, List.count_eq_zero.mpr hafter]

/-- A parsed key is spelled as it was. -/
theorem key_of_parse {key : String} {p : Pattern} (h : parse key = .ok p) : p.key = key := by
  rcases parse_eq_ok h with ⟨-, rfl⟩ | ⟨before, after, -, -, rfl, rfl⟩
  · rfl
  · rfl

/-- What a wildcard captures is what stands between its two texts. -/
theorem capture?_wildcard_iff {before after s c : String} :
    (wildcard before after).capture? s = some c ↔ s = before ++ c ++ after := by
  simp only [capture?, Option.bind_eq_bind, Option.bind_eq_some_iff, Option.pure_def,
    Option.some.injEq, textAfter?_eq_some_iff, textBefore?_eq_some_iff]
  constructor
  · rintro ⟨rest, hs, inner, rfl, rfl⟩
    apply String.toList_injective
    simp [hs]
  · rintro rfl
    exact ⟨c.toList ++ after.toList, by simp, c.toList, rfl, String.ofList_toList⟩

/-- The parsed pattern captures what the key does. -/
theorem capture?_iff {key : String} {p : Pattern} (h : parse key = .ok p) (s c : String) :
    p.capture? s = some c ↔ Captures key s c := by
  rcases parse_eq_ok h with ⟨hkey, rfl⟩ | ⟨before, after, hbefore, hafter, rfl, rfl⟩
  · simp only [capture?]
    constructor
    · intro hc
      split at hc
      · next heq =>
        subst heq
        cases hc
        exact .static hkey
      · cases hc
    · intro hc
      cases hc with
      | static _ => rw [if_pos rfl]
      | wildcard c hb ha => exact absurd (by simp) hkey
  · rw [capture?_wildcard_iff]
    constructor
    · rintro rfl
      exact .wildcard c hbefore hafter
    · intro hc
      generalize hk : before ++ "*" ++ after = key at hc
      cases hc with
      | static hkey => exact absurd (by simp [← hk]) hkey
      | wildcard c hb ha =>
        obtain ⟨rfl, rfl⟩ := star_inj hbefore hb hk
        rfl

/-- A key matches if and only if its pattern captures something. -/
theorem isSome_capture?_iff {key : String} {p : Pattern} (h : parse key = .ok p) (s : String) :
    (p.capture? s).isSome ↔ Matches key s := by
  rw [Option.isSome_iff_exists]
  exact exists_congr (capture?_iff h s)

end Pattern

/-! ## How specific keys are -/

/-- The place of a pattern in the order of keys. -/
def Specificity.rank : Specificity → ℕ∞
  | wildcard bytes => bytes
  | static => ⊤

/-- A pattern is preferred to another one if its rank is higher. -/
theorem Specificity.compare_eq_gt_iff (a b : Specificity) :
    a.compare b = .gt ↔ b.rank < a.rank := by
  cases a with
  | static =>
    cases b with
    | static => simp [compare, rank]
    | wildcard n => simp [compare, rank]
  | wildcard m =>
    cases b with
    | static => simp [compare, rank]
    | wildcard n => simp [compare, rank, Nat.compare_eq_gt]

theorem keyRank_of_star_notMem {key : String} (h : '*' ∉ key.toList) : keyRank key = ⊤ :=
  if_neg h

theorem takeWhile_wildcard {before : String} (hbefore : '*' ∉ before.toList) (after : String) :
    (before ++ "*" ++ after).toList.takeWhile (· ≠ '*') = before.toList := by
  have hnames : ∀ c ∈ before.toList, decide (c ≠ '*') = true := by
    intro c hc
    exact decide_eq_true fun h => hbefore (h ▸ hc)
  rw [String.toList_append, String.toList_append, List.append_assoc,
    List.takeWhile_append_of_pos hnames]
  simp

theorem keyRank_wildcard {before : String} (hbefore : '*' ∉ before.toList) (after : String) :
    keyRank (before ++ "*" ++ after) = before.utf8ByteSize := by
  have hstar : '*' ∈ (before ++ "*" ++ after).toList := by simp
  rw [keyRank, if_pos hstar, takeWhile_wildcard hbefore, String.ofList_toList]

/-- The parsed pattern is as specific as the key. -/
theorem Pattern.rank_specificity {key : String} {p : Pattern} (h : parse key = .ok p) :
    p.specificity.rank = keyRank key := by
  rcases parse_eq_ok h with ⟨hkey, rfl⟩ | ⟨before, after, hbefore, -, rfl, rfl⟩
  · rw [keyRank_of_star_notMem hkey]
    rfl
  · rw [keyRank_wildcard hbefore]
    rfl

end ModuleMap
