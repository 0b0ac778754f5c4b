import ModuleMap.Proofs.Mapping.Key

/-!
# Matching takes back filling

A key with one star can be filled with any text, and matching a specifier asks with which one it
has to be filled.  The search for the text before the star and for the one after it could give a
wrong answer where the two overlap in the specifier, or where the specifier has stars of its own.
It does not, since the second text is looked for in what the first one leaves.

* `starsFilled`: a text with another one in the place of each of its stars; in a key with one star
  it does what `fillStar` does (`starsFilled_wildcard`, `fillStar_wildcard`).
* `Pattern.capture?_iff_starsFilled`: parsing a key, spelling it again, and matching.
-/

namespace ModuleMap

/-! ## Filled keys -/

/-- A text with another one in the place of each of its stars. -/
def starsFilled (text fill : String) : String :=
  String.ofList (text.toList.flatMap fun c => if c = '*' then fill.toList else [c])

/-- Where there is no star, there is nothing to be filled. -/
theorem flatMap_of_star_notMem {cs : List Char} (h : '*' ∉ cs) (fill : List Char) :
    (cs.flatMap fun c => if c = '*' then fill else [c]) = cs := by
  induction cs with
  | nil => rfl
  | cons c cs ih =>
    obtain ⟨hc, hcs⟩ := not_or.mp (mt List.mem_cons.mpr h)
    rw [List.flatMap_cons, if_neg (Ne.symm hc), ih hcs, List.singleton_append]

/-- A key with one star is filled between its two texts. -/
theorem starsFilled_wildcard {before after : String} (hbefore : '*' ∉ before.toList)
    (hafter : '*' ∉ after.toList) (fill : String) :
    starsFilled (before ++ "*" ++ after) fill = before ++ fill ++ after := by
  apply String.toList_injective
  simp [starsFilled, flatMap_of_star_notMem hbefore, flatMap_of_star_notMem hafter]

/-- A template is filled between the text before its first star and the rest. -/
theorem fillStar_wildcard {before : String} (hbefore : '*' ∉ before.toList) (after fill : String) :
    fillStar (before ++ "*" ++ after) fill = before ++ fill ++ after := by
  rw [fillStar, splitStar?_toList_append hbefore]
  apply String.toList_injective
  simp

namespace Pattern

/-- A pattern without a star captures all of the one specifier that it matches. -/
theorem capture?_static_iff {text s c : String} :
    (static text).capture? s = some c ↔ s = text ∧ c = s := by
  rw [capture?]
  split
  · next h => simp [h, eq_comm]
  · next h => simp [Ne.symm h]

/-- **Matching takes back filling.**  A key with more than one star is no pattern, and any other is
the key of the pattern that it is parsed to.  Without a star it matches itself alone, and captures
all of it.  With one star it captures a text from a specifier if and only if the specifier is the
key filled with this text; so it captures one text at most, which stands between two texts that do
not overlap, and an output that is spelled like the key is turned into the specifier again. -/
theorem capture?_iff_starsFilled (key : String) :
    (∀ f, parse key = .error f ↔ 2 ≤ key.toList.count '*' ∧ f = .twoWildcards key) ∧
      ∀ p, parse key = .ok p →
        p.key = key ∧ parse p.key = .ok p ∧
          ((p = static key ∧ '*' ∉ key.toList ∧
              ∀ s c, p.capture? s = some c ↔ s = key ∧ c = s) ∨
            ∃ before after, p = wildcard before after ∧ key = before ++ "*" ++ after ∧
              ∀ s c, (p.capture? s = some c ↔ starsFilled key c = s) ∧
                (p.capture? s = some c →
                  s = before ++ c ++ after ∧ (∀ c', starsFilled key c' = s → c' = c) ∧
                    (Rule.mk p [key]).outputsFor c = [s])) := by
  refine ⟨fun f => parse_eq_error_iff, fun p hp => ?_⟩
  have hkey := key_of_parse hp
  refine ⟨hkey, hkey.symm ▸ hp, ?_⟩
  rcases parse_eq_ok hp with ⟨hstar, rfl⟩ | ⟨before, after, hbefore, hafter, rfl, rfl⟩
  · exact Or.inl ⟨rfl, hstar, fun s c => capture?_static_iff⟩
  · refine Or.inr ⟨before, after, rfl, rfl, fun s c => ?_⟩
    have hiff : ∀ c, (wildcard before after).capture? s = some c ↔
        starsFilled (before ++ "*" ++ after) c = s := by
      intro c
      rw [capture?_wildcard_iff, starsFilled_wildcard hbefore hafter, eq_comm]
    refine ⟨hiff c, fun hc => ⟨capture?_wildcard_iff.mp hc, fun c' hc' => ?_, ?_⟩⟩
    · exact Option.some_inj.mp (((hiff c').mpr hc').symm.trans hc)
    · rw [Rule.outputsFor, List.map_singleton, fillStar_wildcard hbefore,
        ← capture?_wildcard_iff.mp hc]

/-- The two texts of the key are longer than one byte and could overlap, and the specifier has stars
of its own. -/
theorem capture?_iff_starsFilled_overlap :
    parse "éa*aé" = .ok (wildcard "éa" "aé") ∧ (wildcard "éa" "aé").capture? "éaé" = none ∧
      starsFilled "éa*aé" "**" = "éa**aé" ∧
      (wildcard "éa" "aé").capture? "éa**aé" = some "**" ∧
      (Rule.mk (wildcard "éa" "aé") ["éa*aé"]).outputsFor "**" = ["éa**aé"] := by
  have hparse : parse "éa*aé" = .ok (wildcard "éa" "aé") := by decide
  have hfilled : starsFilled "éa*aé" "**" = "éa**aé" := by decide
  obtain ⟨-, -, ⟨habsurd, -⟩ | ⟨before, after, heq, -, hcapture⟩⟩ :=
    (capture?_iff_starsFilled "éa*aé").2 _ hparse
  · cases habsurd
  · have hmatch := (hcapture "éa**aé" "**").1.mpr hfilled
    exact ⟨hparse, by decide, hfilled, hmatch, ((hcapture _ _).2 hmatch).2.2⟩

end Pattern

end ModuleMap
