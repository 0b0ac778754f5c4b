import ModuleMap.Proofs.Json.Reading
import ModuleMap.Proofs.Jsonc.Literals

/-!
# Commas that are forgiven

If a text without its trailing commas is one of lexemes, then so is the text itself, and the commas
are lexemes of it that stand before closing brackets.  The pass cannot make one lexeme of two: what
comes after a comma that it drops is blank or closes something, and inside strings it drops nothing.

* `Jsonc.exists_isText_of_stripTrailingCommas`: the lexemes of a text, from those that are left.
* `Jsonc.readDocument_stripTrailingCommas`: the texts that are read when trailing commas are
  stripped.
-/

namespace ModuleMap.Jsonc

open Json (Lexeme IsStringRest IsLexeme IsBlanks IsText Forgives bareChars)

variable {cs w rest : List Char}

/-- After a comma that is dropped no number or word goes on. -/
theorem notMem_bareChars_of_closesNext (h : closesNext cs = true) :
    ∀ c ∈ (dropCommasFrom .outside cs).head?, c ∉ bareChars := by
  have hbare : ∀ c ∈ bareChars, Text.isBlank c = false ∧ c ≠ '\x7d' ∧ c ≠ ']' :=
    List.all_iff_forall_prop.mp (by decide)
  intro c hc hmem
  obtain ⟨hblank, hbrace, hbracket⟩ := hbare c hmem
  rcases isBlank_or_closes_of_closesNext h hc with hc | hc | hc
  · cases hblank.symm.trans hc
  · exact hbrace hc
  · exact hbracket hc

/-- The rest of a number or word has lost no comma. -/
theorem exists_of_dropCommasFrom_outside (hw : ∀ c ∈ w, c ∈ bareChars)
    (h : dropCommasFrom .outside cs = w ++ rest) :
    ∃ cs', cs = w ++ cs' ∧ dropCommasFrom .outside cs' = rest := by
  induction w generalizing cs with
  | nil => exact ⟨cs, rfl, h⟩
  | cons d w ih =>
    rw [List.forall_mem_cons] at hw
    rcases cs with _ | ⟨c, cs⟩
    · cases h
    rw [dropCommasFrom_cons] at h
    split at h
    · next hdrop =>
      have hhead := notMem_bareChars_of_closesNext hdrop.2.2 d (by rw [h]; rfl)
      exact absurd hw.1 hhead
    · obtain ⟨rfl, htail⟩ := List.cons.inj h
      have hquote : c ≠ '"' := by
        rintro rfl
        exact absurd hw.1 (by decide)
      rw [Quoting.after, if_neg hquote] at htail
      obtain ⟨cs', rfl, hrest⟩ := ih hw.2 htail
      exact ⟨cs', rfl, hrest⟩

/-- The rest of a string has lost no comma. -/
theorem exists_of_dropCommasFrom_inside (hw : IsStringRest w)
    (h : dropCommasFrom .inside cs = w ++ rest) :
    ∃ cs', cs = w ++ cs' ∧ dropCommasFrom .outside cs' = rest := by
  have hkept := pass_dropCommasFrom.scan_splitLiteral (by simp) cs
  have hsplit : splitLiteral ((splitLiteral cs).1 ++ dropCommasFrom .outside (splitLiteral cs).2) =
      ((splitLiteral cs).1, dropCommasFrom .outside (splitLiteral cs).2) :=
    splitLiteral_fst_append fun hlast => by rw [hlast]; rfl
  rw [← hkept, h, splitLiteral_stringRest hw] at hsplit
  obtain ⟨hw, hrest⟩ := Prod.mk.inj hsplit
  exact ⟨(splitLiteral cs).2, by rw [hw, splitLiteral_append], hrest.symm⟩

/-- The rest of a lexeme has lost no comma. -/
theorem exists_of_dropCommasFrom_lexeme {c : Char} (hl : IsLexeme (c :: w))
    (h : dropCommasFrom (Quoting.outside.after c) cs = w ++ rest) :
    ∃ cs', cs = w ++ cs' ∧ dropCommasFrom .outside cs' = rest := by
  by_cases hquote : c = '"'
  · subst hquote
    exact exists_of_dropCommasFrom_inside hl.isStringRest h
  rw [Quoting.after, if_neg hquote] at h
  rcases hl.string_or with ⟨r, hstring, -⟩ | ⟨d, -, hmark⟩ | hbare
  · exact absurd (List.cons.inj hstring).1 hquote
  · obtain ⟨-, rfl⟩ := List.cons.inj hmark
    exact ⟨cs, rfl, h⟩
  · exact exists_of_dropCommasFrom_outside (List.forall_mem_cons.mp hbare).2 h

/-- The lexemes of a text are those that are left without its trailing commas, and these commas. -/
theorem exists_isText_of_stripTrailingCommas {xs : List Lexeme} {s : List Char}
    (hxs : ∀ l ∈ xs, IsLexeme l) (h : IsText xs (stripTrailingCommas s)) :
    ∃ ys, IsText ys s ∧ Json.dropTrailing ys = xs := by
  unfold stripTrailingCommas at h
  have hnone : IsBlanks [] := by simp [IsBlanks]
  -- A lexeme takes many characters, so the induction is on their number.
  induction hn : s.length using Nat.strong_induction_on generalizing xs s with
  | _ n ih =>
  rcases s with _ | ⟨c, cs⟩
  · obtain rfl := h.eq_nil hxs
    exact ⟨[], h, rfl⟩
  rw [List.length_cons] at hn
  rw [dropCommasFrom_cons] at h
  split at h
  · next hdrop =>
    obtain ⟨-, rfl, hcloses⟩ := hdrop
    obtain ⟨ys, hys, rfl⟩ := ih cs.length (by omega) hxs h rfl
    refine ⟨[','] :: ys, .cons hnone hys, ?_⟩
    rw [closesNext_eq (Json.isLexeme_of_dropTrailing hxs) hys] at hcloses
    rw [Json.dropTrailing_comma, if_pos hcloses]
  next hkept =>
  cases hblank : Json.isBlank c with
  | true =>
    have hquote : c ≠ '"' := by
      rintro rfl
      cases hblank
    have hone : IsBlanks [c] := List.forall_mem_singleton.mpr hblank
    rw [Quoting.after, if_neg hquote] at h
    obtain ⟨ys, hys, hdropped⟩ := ih cs.length (by omega) hxs
      (Json.isText_of_isBlanks_append hxs hone h) rfl
    exact ⟨ys, Json.isText_blanks_append hone hys, hdropped⟩
  | false =>
    obtain ⟨w, xs', rest, rfl, htext, hrest⟩ := h.exists_of_cons hxs hblank
    rw [List.forall_mem_cons] at hxs
    obtain ⟨cs', rfl, rfl⟩ := exists_of_dropCommasFrom_lexeme hxs.1 htext
    rw [List.length_append] at hn
    obtain ⟨ys, hys, rfl⟩ := ih cs'.length (by omega) hxs.2 hrest rfl
    refine ⟨(c :: w) :: ys, .cons hnone hys, ?_⟩
    by_cases hcomma : c :: w = [',']
    · obtain ⟨rfl, rfl⟩ := List.cons.inj hcomma
      have hopen : ¬Json.closesFirst ys = true := fun hcloses => hkept
        ⟨rfl, rfl, (closesNext_eq (Json.isLexeme_of_dropTrailing hxs.2) hys).trans hcloses⟩
      rw [Json.dropTrailing_comma, if_neg hopen]
    · rw [Json.dropTrailing_cons_of_ne hcomma]

/-- In a text that begins with an opening bracket and a comma that comma is lone. -/
theorem hasLoneComma_of_isText {ys : List Lexeme} {o : Char} {text : List Char}
    (ho : [o] ∈ Json.openers) (hys : ∀ l ∈ ys, IsLexeme l) (h : IsText ys (o :: ',' :: text)) :
    Json.HasLoneComma ys := by
  have hmark : o ∈ Json.marks ∧ Json.isBlank o = false := by
    rcases (by simpa [Json.openers] using ho : o = '\x7b' ∨ o = '[') with rfl | rfl <;> decide
  obtain ⟨w, ys, rest, rfl, htext, h⟩ := h.exists_of_cons hys hmark.2
  rw [List.forall_mem_cons] at hys
  obtain rfl := hys.1.eq_nil_of_mark hmark.1
  subst htext
  obtain ⟨w, ys, rest, rfl, -, -⟩ := h.exists_of_cons hys.2 rfl
  obtain rfl := (hys.2 _ List.mem_cons_self).eq_nil_of_mark (by decide)
  exact ⟨[o], ho, (List.prefix_append [[o], [',']] ys).isInfix⟩

/-- A text is read without its trailing commas if it is one of lexemes that are forgiven, and then
the value is read that is left of them. -/
theorem readDocument_stripTrailingCommas {α : Type} {read : Json.Reader α}
    (hread : Json.Sound read) (s : List Char) (a : α) :
    Json.readDocument read (stripTrailingCommas s) = .ok a ↔
      ∃ xs ys, Forgives .value xs ys ∧ IsText ys s ∧
        ∀ j, IsText xs j → Json.readDocument read j = .ok a := by
  constructor
  · intro h
    obtain ⟨xs, htext, hvalue⟩ := hread.exists_isText h
    obtain ⟨ys, hys, hdropped⟩ := exists_isText_of_stripTrailingCommas hvalue.isLexeme htext
    exact ⟨xs, ys, Json.forgives_iff.mpr ⟨hvalue, hdropped⟩, hys,
      fun j hj => (hvalue.readDocument_eq_ok_iff htext hj).mp h⟩
  · rintro ⟨xs, ys, hforgives, hys, hvalue⟩
    have hdropped : Json.dropTrailing ys = xs := hforgives.dropTrailing_eq
    have hlexemes : ∀ l ∈ ys, IsLexeme l :=
      Json.isLexeme_of_dropTrailing (hdropped ▸ hforgives.strict.isLexeme)
    exact hvalue _ (hdropped ▸ isText_stripTrailingCommas hlexemes hys)

end ModuleMap.Jsonc
