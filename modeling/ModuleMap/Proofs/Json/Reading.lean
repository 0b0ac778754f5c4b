import ModuleMap.Json.Document
import ModuleMap.Proofs.Json.Skipping

/-!
# What is read is JSON

A reader that gives a value has taken the tokens of a JSON value, whatever else it asks of them.  So
a text that is read is one of the grammar, and only its lexemes decide what is read from it.

* `Json.Sound`: readers that take values only, with `Json.sound_readRecord` and
  `Json.sound_readValue`.
* `Json.Sound.exists_isText`, `Json.Relaxes.readDocument_eq_ok_iff`: whole texts.
-/

namespace ModuleMap.Json

/-! ## Readers -/

/-- A reader that gives a value has taken the tokens of one. -/
def Sound {α : Type} (read : Reader α) : Prop :=
  ∀ ⦃ts : List Token⦄ ⦃a : α⦄ ⦃rest : List Token⦄, read ts = .ok (a, rest) →
    ∃ us, ts = us ++ rest ∧ Forms .value us

section

variable {α σ : Type} {ts rest : List Token}

/-- A token that is a value by itself is one. -/
theorem exists_forms_of_isScalar {t : Token} (ht : t.isScalar = true) (ts : List Token) :
    ∃ us, t :: ts = us ++ ts ∧ Forms .value us :=
  ⟨[t], rfl, .scalar ht⟩

theorem eq_of_readString {s : String} (h : readString ts = .ok (s, rest)) :
    ∃ pieces, ts = .string pieces :: rest := by
  unfold readString at h
  split at h
  · split at h
    · cases h
      exact ⟨_, rfl⟩
    · exact absurd h stop_ne_ok
  · exact absurd h stopMistyped_ne_ok

theorem sound_readString : Sound readString := by
  intro ts s rest h
  obtain ⟨pieces, rfl⟩ := eq_of_readString h
  exact exists_forms_of_isScalar rfl rest

/-- What is made of a value does not matter. -/
theorem Sound.bind_ok {β : Type} {read : Reader α} (hread : Sound read) (f : α → β) :
    Sound (fun ts => do
      let (a, rest) ← read ts
      .ok (f a, rest)) := by
  intro ts b rest h
  obtain ⟨⟨a, rest'⟩, ha, heq⟩ := bind_eq_ok_iff.mp h
  cases heq
  exact hread ha

theorem sound_readNullable {read : Reader α} (hread : Sound read) : Sound (readNullable read) := by
  intro ts a rest h
  unfold readNullable at h
  split at h
  · cases h
    exact exists_forms_of_isScalar rfl rest
  · obtain ⟨⟨b, rest'⟩, hb, heq⟩ := map_eq_ok_iff.mp h
    cases heq
    exact hread hb

/-! ## Items and members -/

/-- Either the array is closed, or an item follows. -/
theorem eq_of_moreItems {first more : Bool} (h : moreItems first ts = .ok (more, rest)) :
    (more = false ∧ ts = .closeBracket :: rest.tail) ∨
      (more = true ∧ ts = following first rest) := by
  unfold moreItems at h
  split at h
  · cases h
    exact Or.inl ⟨rfl, rfl⟩
  · exact absurd h stop_ne_ok
  · split at h
    · next hfirst =>
      cases h
      exact Or.inr ⟨rfl, by rw [following, if_pos hfirst]⟩
    · next hfirst =>
      split at h
      · exact absurd h stop_ne_ok
      · exact absurd h stop_ne_ok
      · cases h
        exact Or.inr ⟨rfl, by rw [following, if_neg hfirst]⟩
  · split at h
    · next hfirst =>
      cases h
      exact Or.inr ⟨rfl, by rw [following, if_pos hfirst]⟩
    · exact absurd h stop_ne_ok

/-- The items of an array, from the first on or after one of them. -/
theorem exists_of_foldItems {item : σ → Reader σ} (hitem : ∀ s, Sound (item s)) {fuel : ℕ}
    {first : Bool} {s s' : σ} (h : foldItems item fuel first s ts = .ok (s', rest)) :
    ∃ us, ts = us ++ .closeBracket :: rest ∧ Remainder .items first us := by
  induction fuel generalizing first s ts with
  | zero => exact absurd h unexpected_ne_ok
  | succ fuel ih =>
    rw [foldItems] at h
    obtain ⟨⟨more, rest₁⟩, hmore, h⟩ := bind_eq_ok_iff.mp h
    rcases eq_of_moreItems hmore with ⟨rfl, hts⟩ | ⟨rfl, hts⟩
    · cases h
      exact ⟨[], hts, .none⟩
    · obtain ⟨⟨s₁, rest₂⟩, hs, hrest⟩ := bind_eq_ok_iff.mp h
      obtain ⟨vs, rfl, hvs⟩ := hitem s hs
      obtain ⟨us, rfl, hus⟩ := ih hrest
      refine ⟨following first (vs ++ us), ?_, .following (hus.items hvs)⟩
      rw [hts]
      cases first <;> simp [following]

/-- Either the object is closed, or a key follows. -/
theorem eq_of_nextKey {first : Bool} {key : Option String}
    (h : nextKey first ts = .ok (key, rest)) :
    (key = none ∧ ts = .closeBrace :: rest.tail) ∨
      ∃ k pieces, key = some k ∧ ts = following first (.string pieces :: rest) := by
  unfold nextKey at h
  split at h
  · cases h
    exact Or.inl ⟨rfl, rfl⟩
  · exact absurd h stop_ne_ok
  · extract_lets readKey at h
    -- The key is read from where the comma has been taken.
    have hkey : ∀ {us : List Token}, readKey us = .ok (key, rest) →
        ∃ k pieces, key = some k ∧ us = .string pieces :: rest := by
      intro us h
      dsimp only [readKey] at h
      split at h
      · obtain ⟨⟨k, r⟩, hk, heq⟩ := map_eq_ok_iff.mp h
        cases heq
        obtain ⟨pieces, hpieces⟩ := eq_of_readString hk
        exact ⟨k, pieces, rfl, hpieces⟩
      · exact absurd h stopBrokenString_ne_ok
      · exact absurd h unexpected_ne_ok
    split at h
    · next hfirst =>
      obtain ⟨k, pieces, rfl, rfl⟩ := hkey h
      exact Or.inr ⟨k, pieces, rfl, by rw [following, if_pos hfirst]⟩
    · next hfirst =>
      split at h
      · obtain ⟨k, pieces, rfl, rfl⟩ := hkey h
        exact Or.inr ⟨k, pieces, rfl, by rw [following, if_neg hfirst]⟩
      · exact absurd h stop_ne_ok

/-- A reader of what comes after a key that has taken a colon and the tokens of a value. -/
def SoundMember (member : String → σ → Reader σ) : Prop :=
  ∀ ⦃key : String⦄ ⦃s : σ⦄ ⦃ts : List Token⦄ ⦃s' : σ⦄ ⦃rest : List Token⦄,
    member key s ts = .ok (s', rest) → ∃ us, ts = .colon :: (us ++ rest) ∧ Forms .value us

theorem exists_of_readColon {us : List Token} (h : readColon ts = .ok us)
    (hus : ∃ vs, us = vs ++ rest ∧ Forms .value vs) :
    ∃ vs, ts = .colon :: (vs ++ rest) ∧ Forms .value vs := by
  unfold readColon at h
  split at h
  · cases h
    obtain ⟨vs, rfl, hvs⟩ := hus
    exact ⟨vs, rfl, hvs⟩
  · exact absurd h unexpected_ne_ok

/-- The members of an object, from the first on or after one of them. -/
theorem exists_of_foldMembers {member : String → σ → Reader σ} (hmember : SoundMember member)
    {fuel : ℕ} {first : Bool} {s s' : σ} (h : foldMembers member fuel first s ts = .ok (s', rest)) :
    ∃ us, ts = us ++ .closeBrace :: rest ∧ Remainder .members first us := by
  induction fuel generalizing first s ts with
  | zero => exact absurd h unexpected_ne_ok
  | succ fuel ih =>
    rw [foldMembers] at h
    obtain ⟨⟨key, rest₁⟩, hkey, h⟩ := bind_eq_ok_iff.mp h
    rcases eq_of_nextKey hkey with ⟨rfl, hts⟩ | ⟨k, pieces, rfl, hts⟩
    · cases h
      exact ⟨[], hts, .none⟩
    · obtain ⟨⟨s₁, rest₂⟩, hs, hrest⟩ := bind_eq_ok_iff.mp h
      obtain ⟨vs, rfl, hvs⟩ := hmember hs
      obtain ⟨us, rfl, hus⟩ := ih hrest
      refine ⟨following first (.string pieces :: .colon :: (vs ++ us)), ?_,
        .following (hus.members hvs)⟩
      rw [hts]
      cases first <;> simp [following]

theorem sound_readItems {read : Reader α} (hread : Sound read) : Sound (readItems read) := by
  intro ts a rest h
  unfold readItems at h
  split at h
  · obtain ⟨⟨found, rest'⟩, hfound, heq⟩ := bind_eq_ok_iff.mp h
    cases heq
    obtain ⟨us, rfl, hus⟩ := exists_of_foldItems (fun found => by
      intro ts s rest h
      obtain ⟨⟨a, rest'⟩, ha, heq⟩ := bind_eq_ok_iff.mp h
      cases heq
      exact hread ha) hfound
    exact ⟨_, by simp, hus.array⟩
  · exact absurd h stopMistyped_ne_ok

theorem sound_readEntries {read : Reader α} (hread : Sound read) : Sound (readEntries read) := by
  intro ts a rest h
  unfold readEntries at h
  split at h
  · obtain ⟨⟨found, rest'⟩, hfound, heq⟩ := bind_eq_ok_iff.mp h
    cases heq
    obtain ⟨us, rfl, hus⟩ := exists_of_foldMembers (by
      intro key found ts s rest h
      obtain ⟨rest₁, hcolon, h⟩ := bind_eq_ok_iff.mp h
      obtain ⟨⟨a, rest₂⟩, ha, heq⟩ := bind_eq_ok_iff.mp h
      cases heq
      exact exists_of_readColon hcolon (hread ha)) hfound
    exact ⟨_, by simp, hus.object⟩
  · exact absurd h stopMistyped_ne_ok

/-! ## Records and words -/

theorem Sound.settled {read : Reader α} (hread : Sound read) (inArray : Bool) :
    Sound (settled inArray read) :=
  fun _ _ _ h => hread (mapError_eq_ok_iff.mp h)

/-- The members of a record that is written as an object, with the closing brace. -/
theorem exists_of_readRecordMembers {fields : List (Field σ)} {presence : Presence} {s s' : σ}
    (hfields : ∀ field ∈ fields, ∀ s, Sound (field.read s))
    (h : readRecordMembers fields presence s ts = .ok (s', rest)) :
    ∃ us, ts = us ++ .closeBrace :: rest ∧ Remainder .members true us := by
  unfold readRecordMembers at h
  obtain ⟨⟨⟨given, s₁⟩, rest₁⟩, hfold, h⟩ := bind_eq_ok_iff.mp h
  have hrest : rest₁ = rest := by
    dsimp only at h
    split at h
    · cases h
      rfl
    · cases h
  subst hrest
  refine exists_of_foldMembers ?_ hfold
  intro key state ts state' rest h
  dsimp only at h
  split at h
  · obtain ⟨rest₁, hcolon, h⟩ := bind_eq_ok_iff.mp h
    obtain ⟨rest₂, hskip, h⟩ := bind_eq_ok_iff.mp h
    cases h
    exact exists_of_readColon hcolon (exists_of_skipValue hskip)
  · next field hfield =>
    split at h
    · exact absurd h stop_ne_ok
    · obtain ⟨rest₁, hcolon, h⟩ := bind_eq_ok_iff.mp h
      obtain ⟨⟨s, rest₂⟩, hs, h⟩ := bind_eq_ok_iff.mp h
      cases h
      have hread := hfields field (List.mem_of_find?_eq_some hfield) state.2
      exact exists_of_readColon hcolon (hread.settled false hs)

/-- The items of a record that is written as an array, from the first on or after one of them, with
the closing bracket. -/
theorem exists_of_readRecordItems {fields : List (Field σ)} {presence : Presence} {first : Bool}
    {s s' : σ} (hfields : ∀ field ∈ fields, ∀ s, Sound (field.read s))
    (h : readRecordItems presence first fields s ts = .ok (s', rest)) :
    ∃ us, ts = us ++ .closeBracket :: rest ∧ Remainder .items first us := by
  induction fields generalizing first s ts with
  | nil =>
    rw [readRecordItems] at h
    obtain ⟨rest₁, hclose, h⟩ := bind_eq_ok_iff.mp h
    cases h
    unfold closeRecord at hclose
    split at hclose
    · cases hclose
      exact ⟨[], rfl, .none⟩
    · exact absurd hclose stop_ne_ok
    · exact absurd hclose unexpected_ne_ok
  | cons field fields ih =>
    rw [List.forall_mem_cons] at hfields
    rw [readRecordItems] at h
    obtain ⟨⟨more, rest₁⟩, hmore, h⟩ := bind_eq_ok_iff.mp h
    rcases eq_of_moreItems hmore with ⟨rfl, hts⟩ | ⟨rfl, hts⟩
    · dsimp only at h
      split at h
      · cases h
        exact ⟨[], hts, .none⟩
      · exact absurd h stop_ne_ok
    · obtain ⟨⟨s₁, rest₂⟩, hs, hrest⟩ := bind_eq_ok_iff.mp h
      obtain ⟨vs, rfl, hvs⟩ := (hfields.1 s).settled true hs
      obtain ⟨us, rfl, hus⟩ := ih hfields.2 hrest
      refine ⟨following first (vs ++ us), ?_, .following (hus.items hvs)⟩
      rw [hts]
      cases first <;> simp [following]

theorem sound_readRecord {fields : List (Field σ)} {presence : Presence} {s : σ}
    (hfields : ∀ field ∈ fields, ∀ s, Sound (field.read s)) :
    Sound (readRecord fields presence s) := by
  intro ts s' rest h
  unfold readRecord at h
  split at h
  · obtain ⟨us, rfl, hus⟩ := exists_of_readRecordMembers hfields h
    exact ⟨_, by simp, hus.object⟩
  · obtain ⟨us, rfl, hus⟩ := exists_of_readRecordItems hfields h
    exact ⟨_, by simp, hus.array⟩
  · exact absurd h stopMistyped_ne_ok

/-- An object with one key and the value `null`. -/
theorem exists_forms_of_null {pieces : List Piece} {us : List Token}
    (h : readColon ts = .ok us) (hus : us = .null :: .closeBrace :: rest) :
    ∃ vs, .openBrace :: .string pieces :: ts = vs ++ rest ∧ Forms .value vs := by
  obtain ⟨vs, rfl, hvs⟩ := exists_of_readColon h
    (hus ▸ exists_forms_of_isScalar rfl (.closeBrace :: rest))
  exact ⟨.openBrace :: (.string pieces :: .colon :: vs ++ [.closeBrace]), by simp,
    .object (.member hvs)⟩

theorem sound_readChoice {choices : List (String × α)} : Sound (readChoice choices) := by
  intro ts a rest h
  unfold readChoice at h
  dsimp only at h
  split at h
  case h_1 | h_2 =>
    obtain ⟨⟨s, us⟩, hs, h⟩ := bind_eq_ok_iff.mp h
    obtain ⟨pieces, hts⟩ := eq_of_readString hs
    dsimp only at h
    split at h
    · cases h
      exact hts ▸ exists_forms_of_isScalar rfl rest
    · exact absurd h stop_ne_ok
  case h_3 =>
    split at h
    case h_1 | h_2 =>
      obtain ⟨⟨b, us⟩, hb, h⟩ := bind_eq_ok_iff.mp h
      obtain ⟨⟨s, us'⟩, hs, hb⟩ := bind_eq_ok_iff.mp hb
      obtain ⟨pieces, hts⟩ := eq_of_readString hs
      dsimp only at hb
      split at hb
      · cases hb
        obtain ⟨vs, hcolon, h⟩ := bind_eq_ok_iff.mp h
        rw [hts]
        -- After the word comes `null`, and nothing else.
        refine exists_forms_of_null hcolon ?_
        split at h
        · cases h
          rfl
        · exact absurd h unexpected_ne_ok
        · exact absurd h stopMistyped_ne_ok
      · exact absurd hb stop_ne_ok
    case h_3 =>
      obtain ⟨_, hb, -⟩ := bind_eq_ok_iff.mp h
      exact absurd hb unexpected_ne_ok
  case h_4 => exact absurd h unexpected_ne_ok

/-! ## Any value -/

theorem sound_readLevel {inner : Option (Reader Value)} (hinner : ∀ read ∈ inner, Sound read) :
    Sound (readLevel inner) := by
  intro ts v rest h
  unfold readLevel at h
  split at h
  case h_1 | h_2 =>
    cases h
    exact exists_forms_of_isScalar rfl rest
  case h_3 =>
    split at h
    · cases h
      exact exists_forms_of_isScalar rfl rest
    · exact absurd h stop_ne_ok
  case h_4 =>
    obtain ⟨⟨s, rest'⟩, hs, heq⟩ := map_eq_ok_iff.mp h
    cases heq
    exact sound_readString hs
  case h_5 =>
    split at h
    · exact absurd h stop_ne_ok
    · obtain ⟨⟨vs, rest'⟩, hvs, heq⟩ := map_eq_ok_iff.mp h
      cases heq
      exact sound_readItems (hinner _ rfl) hvs
  case h_6 =>
    split at h
    · exact absurd h stop_ne_ok
    · obtain ⟨⟨ms, rest'⟩, hms, heq⟩ := map_eq_ok_iff.mp h
      cases heq
      exact sound_readEntries (hinner _ rfl) hms
  case h_7 => exact absurd h stopMistyped_ne_ok

theorem sound_readValue (depth : ℕ) : Sound (readValue depth) := by
  induction depth with
  | zero => exact sound_readLevel (by simp)
  | succ depth ih => exact sound_readLevel (by simpa using ih)

end

/-! ## Whole texts -/

variable {α : Type} {read : Reader α} {text : List Char} {a : α}

/-- Whether a text is read depends on its tokens alone, and so does what is read. -/
theorem readDocument_eq_ok_iff :
    readDocument read text = .ok a ↔ read ((tokens text).map (·.token)) = .ok (a, []) := by
  unfold readDocument readAll
  dsimp only
  generalize read ((tokens text).map (·.token)) = r
  rcases r with _ | ⟨b, _ | ⟨t, ts⟩⟩ <;> simp [bind, Except.bind, stop]

/-- A text that is read is JSON. -/
theorem Sound.exists_isText (hread : Sound read) (h : readDocument read text = .ok a) :
    ∃ ls, IsText ls text ∧ Relaxes .value ls ls := by
  obtain ⟨us, hus, hforms⟩ := hread (readDocument_eq_ok_iff.mp h)
  rw [List.append_nil] at hus
  obtain ⟨ls, htext, hls⟩ := exists_isText_of_tokens (hus ▸ hforms.isWhole)
  exact ⟨ls, htext, hforms.relaxes (hus ▸ hls)⟩

/-- From texts of the same lexemes the same is read. -/
theorem Relaxes.readDocument_eq_ok_iff {ls : List Lexeme} (h : Relaxes .value ls ls)
    {text' : List Char} (htext : IsText ls text) (htext' : IsText ls text') :
    readDocument read text = .ok a ↔ readDocument read text' = .ok a := by
  obtain ⟨ts, hts⟩ := exists_tokens h.isLexeme h.isChain_apart
  rw [Json.readDocument_eq_ok_iff, Json.readDocument_eq_ok_iff, (hts text htext).tokens,
    (hts text' htext').tokens]

end ModuleMap.Json
