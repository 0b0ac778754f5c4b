import ModuleMap.Proofs.FirstFailure
import ModuleMap.Proofs.Json.Lexing

/-!
# Tokens are lexemes

A text that is cut into whole tokens, none of them broken or stray, is a text of lexemes: of each
token the characters that were taken for it are a lexeme of its kind, and between them there are
only blanks.

* `Json.Token.isWhole`, `Json.Spells`: tokens that are no faults, and their lexemes.
* `Json.exists_of_scanNumber`, `Json.exists_of_scanString`, `Json.exists_of_scan`: the lexeme of one
  token.
* `Json.exists_isText_of_tokens`: the lexemes of a text.
-/

namespace ModuleMap.Json

/-! ## Tokens and their lexemes -/

/-- Whether a token is more than the place of a fault. -/
def Token.isWhole : Token → Bool
  | .stray | .brokenWord _ | .brokenNumber _ | .brokenString _ _ _ => false
  | _ => true

/-- A lexeme is of the kind of a token. -/
def Spells (l : Lexeme) : Token → Prop
  | .openBrace => l = ['\x7b']
  | .closeBrace => l = ['\x7d']
  | .openBracket => l = ['[']
  | .closeBracket => l = [']']
  | .colon => l = [':']
  | .comma => l = [',']
  | .null => l = "null".toList
  | .bool b => l = (if b then "true" else "false").toList
  | .number _ => IsNumber l
  | .string _ => IsString l
  | .stray | .brokenWord _ | .brokenNumber _ | .brokenString _ _ _ => False

theorem Spells.isLexeme {l : Lexeme} {t : Token} (h : Spells l t) : IsLexeme l := by
  cases t with
  | openBrace | closeBrace | openBracket | closeBracket | colon | comma =>
    obtain rfl := h
    exact .mark (by decide)
  | null =>
    obtain rfl := h
    exact .scalar (.word (by decide))
  | bool b =>
    obtain rfl := h
    cases b <;> exact .scalar (.word (by decide))
  | number n => exact .scalar (.number h)
  | string pieces => exact .scalar (.string h)
  | stray | brokenWord | brokenNumber | brokenString => exact h.elim

/-! ## Numbers -/

variable {cs rest : List Char}

theorem exists_of_scanDigits (cs : List Char) :
    ∃ digits, cs = digits ++ (scanDigits cs).2 ∧ (∀ d ∈ digits, d ∈ decimalDigits) ∧
      (scanDigits cs).1 = digits.map digitValue := by
  induction cs with
  | nil => exact ⟨[], rfl, by simp, rfl⟩
  | cons c cs ih =>
    rw [scanDigits]
    split
    · next hc =>
      obtain ⟨digits, hcs, hdigits, hvalues⟩ := ih
      refine ⟨c :: digits, congrArg (c :: ·) hcs, ?_, congrArg (digitValue c :: ·) hvalues⟩
      exact List.forall_mem_cons.mpr ⟨mem_decimalDigits_of_isDigit hc, hdigits⟩
    · exact ⟨[], rfl, by simp, rfl⟩

/-- Digits that are found are digits of the text. -/
theorem exists_isDigits_of_scanDigits {d : Nat} {ds : List Nat}
    (h : scanDigits cs = (d :: ds, rest)) :
    ∃ digits, IsDigits digits ∧ cs = digits ++ rest ∧ d :: ds = digits.map digitValue := by
  obtain ⟨digits, hcs, hdigits, hvalues⟩ := exists_of_scanDigits cs
  rw [h] at hcs hvalues
  refine ⟨digits, ⟨?_, hdigits⟩, hcs, hvalues⟩
  rintro rfl
  cases hvalues

theorem exists_of_scanWhole {ds : List Nat} (h : scanWhole cs = .ok (ds, rest)) :
    ∃ w, IsWhole w ∧ cs = w ++ rest := by
  unfold scanWhole at h
  rcases hscan : scanDigits cs with ⟨_ | ⟨n, ns⟩, rest'⟩
  · rw [hscan] at h
    cases h
  obtain ⟨digits, hdigits, rfl, hvalues⟩ := exists_isDigits_of_scanDigits hscan
  rcases digits with _ | ⟨d, digits⟩
  · cases hvalues
  obtain ⟨rfl, rfl⟩ := List.cons.inj hvalues
  rw [hscan] at h
  by_cases hd : d = '0'
  · subst hd
    have hzero : digitValue '0' = 0 := rfl
    rw [hzero] at h
    rcases digits with _ | ⟨d, digits⟩
    · cases h
      exact ⟨['0'], .zero, rfl⟩
    · cases h
  · have hrest : rest' = rest := by
      split at h
      · cases h
      · cases h
      · next hfound =>
        cases h
        exact (Prod.mk.inj hfound).2
    exact ⟨d :: digits, .digits hdigits hd, by rw [hrest]⟩

theorem exists_of_scanFraction {ds : List Nat} (h : scanFraction cs = .ok (ds, rest)) :
    ∃ f, IsFraction f ∧ cs = f ++ rest := by
  unfold scanFraction at h
  split at h
  · next cs =>
    rcases hscan : scanDigits cs with ⟨_ | ⟨n, ns⟩, rest'⟩
    · rw [hscan] at h
      cases h
    · rw [hscan] at h
      cases h
      obtain ⟨digits, hdigits, rfl, -⟩ := exists_isDigits_of_scanDigits hscan
      exact ⟨'.' :: digits, .digits hdigits, rfl⟩
  · cases h
    exact ⟨[], .none, rfl⟩

theorem exists_of_scanExponent {x : Option Exponent} (h : scanExponent cs = .ok (x, rest)) :
    ∃ e, IsExponent e ∧ cs = e ++ rest := by
  unfold scanExponent at h
  split at h
  · next c cs =>
    split at h
    · next hc =>
      split at h
      next negative after hsign =>
      rcases hscan : scanDigits after with ⟨_ | ⟨n, ns⟩, rest'⟩
      · simp only [hscan] at h
        cases h
      simp only [hscan] at h
      cases h
      obtain ⟨digits, hdigits, rfl, -⟩ := exists_isDigits_of_scanDigits hscan
      have hletter : c ∈ ['e', 'E'] := by simpa using hc
      -- The digits come after a sign, or there is none.
      split at hsign
      · cases hsign
        exact ⟨c :: '+' :: digits, .signed hletter (by decide) hdigits, rfl⟩
      · cases hsign
        exact ⟨c :: '-' :: digits, .signed hletter (by decide) hdigits, rfl⟩
      · cases hsign
        exact ⟨c :: digits, .unsigned hletter hdigits, rfl⟩
    · cases h
      exact ⟨[], .none, rfl⟩
  · cases h
    exact ⟨[], .none, rfl⟩

/-- What is cut off as a number is one, but for its sign. -/
theorem exists_of_scanNumber {negative : Bool} {t : Token} (h : scanNumber negative cs = (t, rest))
    (ht : t.isWhole = true) :
    ∃ w f e, IsWhole w ∧ IsFraction f ∧ IsExponent e ∧ cs = w ++ f ++ e ++ rest ∧
      ∃ n, t = .number n := by
  simp only [scanNumber] at h
  split at h
  · next n rest' hliteral =>
    obtain ⟨rfl, rfl⟩ := Prod.mk.inj h
    obtain ⟨⟨whole, cs₁⟩, hwhole, hliteral⟩ := bind_eq_ok_iff.mp hliteral
    obtain ⟨⟨fraction, cs₂⟩, hfraction, hliteral⟩ := bind_eq_ok_iff.mp hliteral
    obtain ⟨⟨exponent, cs₃⟩, hexponent, hliteral⟩ := bind_eq_ok_iff.mp hliteral
    cases hliteral
    obtain ⟨w, hw, rfl⟩ := exists_of_scanWhole hwhole
    obtain ⟨f, hf, rfl⟩ := exists_of_scanFraction hfraction
    obtain ⟨e, he, rfl⟩ := exists_of_scanExponent hexponent
    exact ⟨w, f, e, hw, hf, he, by simp, _, rfl⟩
  · obtain ⟨rfl, rfl⟩ := Prod.mk.inj h
    cases ht

/-! ## Words and strings -/

theorem eq_of_scanWord {whole t : Token} {ws : List Char} (h : scanWord whole ws cs = (t, rest))
    (ht : t.isWhole = true) : cs = ws ++ rest ∧ t = whole := by
  induction ws generalizing cs with
  | nil =>
    obtain ⟨rfl, rfl⟩ := Prod.mk.inj h
    exact ⟨rfl, rfl⟩
  | cons w ws ih =>
    rcases cs with _ | ⟨c, cs⟩
    · cases h
      cases ht
    rw [scanWord] at h
    split at h
    · next hc =>
      obtain ⟨rfl, rfl⟩ := ih h
      exact ⟨by rw [hc, List.cons_append], rfl⟩
    · cases h
      cases ht

theorem mem_escapable_of_shortEscape? {e c : Char} (h : shortEscape? e = some c) :
    e ∈ escapable := by
  unfold shortEscape? at h
  split at h <;> first | decide | cases h

/-- Characters are in a list that has all from one to another. -/
theorem mem_of_le_of_le {low high c : Char} {cs : List Char}
    (hall : ∀ n, low.toNat ≤ n → n ≤ high.toNat → Char.ofNat n ∈ cs) (hlow : low ≤ c)
    (hhigh : c ≤ high) : c ∈ cs := by
  rw [← Char.ofNat_toNat c]
  exact hall c.toNat (UInt32.le_iff_toNat_le.mp hlow) (UInt32.le_iff_toNat_le.mp hhigh)

theorem mem_hexDigits_of_hexValue? {c : Char} {n : ℕ} (h : hexValue? c = some n) :
    c ∈ hexDigits := by
  unfold hexValue? at h
  split at h
  · next hc =>
    have hdigits : ∀ d ∈ decimalDigits, d ∈ hexDigits := List.all_iff_forall_prop.mp (by decide)
    exact hdigits c (mem_decimalDigits_of_isDigit hc)
  split at h
  · next hc =>
    refine mem_of_le_of_le (fun n hlow hhigh => ?_) hc.1 hc.2
    change 97 ≤ n at hlow
    change n ≤ 102 at hhigh
    interval_cases n <;> decide
  split at h
  · next hc =>
    refine mem_of_le_of_le (fun n hlow hhigh => ?_) hc.1 hc.2
    change 65 ≤ n at hlow
    change n ≤ 70 at hhigh
    interval_cases n <;> decide
  · cases h

theorem mem_hexDigits_of_hexUnit? {a b c d : Char} {n : ℕ} (h : hexUnit? a b c d = some n) :
    ∀ x ∈ [a, b, c, d], x ∈ hexDigits := by
  unfold hexUnit? at h
  obtain ⟨na, ha, h⟩ := Option.bind_eq_some_iff.mp h
  obtain ⟨nb, hb, h⟩ := Option.bind_eq_some_iff.mp h
  obtain ⟨nc, hc, h⟩ := Option.bind_eq_some_iff.mp h
  obtain ⟨nd, hd, -⟩ := Option.bind_eq_some_iff.mp h
  simp only [List.forall_mem_cons, List.not_mem_nil, false_imp_iff, implies_true, and_true]
  exact ⟨mem_hexDigits_of_hexValue? ha, mem_hexDigits_of_hexValue? hb,
    mem_hexDigits_of_hexValue? hc, mem_hexDigits_of_hexValue? hd⟩

/-- What is cut off as a string is one. -/
theorem exists_of_scanString {pieces : List Piece} {t : Token}
    (h : scanString pieces cs = (t, rest)) (ht : t.isWhole = true) :
    ∃ l, IsStringRest l ∧ cs = l ++ rest ∧ ∃ ps, t = .string ps := by
  fun_induction scanString pieces cs with
  | case2 pieces rest' =>
    obtain ⟨rfl, rfl⟩ := Prod.mk.inj h
    exact ⟨['"'], .close, rfl, _, rfl⟩
  | case4 pieces a b c d rest' n hunit ih =>
    obtain ⟨l, hl, rfl, hstring⟩ := ih h
    exact ⟨_, .unit (mem_hexDigits_of_hexUnit? hunit) hl, rfl, hstring⟩
  | case7 pieces e rest' _ _ c hescape ih =>
    obtain ⟨l, hl, rfl, hstring⟩ := ih h
    exact ⟨_, .escape (mem_escapable_of_shortEscape? hescape) hl, rfl, hstring⟩
  | case10 pieces c rest' hquote hlast _ _ hslash hcontrol ih =>
    obtain ⟨l, hl, rfl, hstring⟩ := ih h
    have hc : c ≠ '\\' := by
      rintro rfl
      rcases h : l ++ rest with _ | ⟨e, more⟩
      · exact hlast rfl h
      · exact hslash e more rfl h
    exact ⟨c :: l, .char (Char.not_lt.mp hcontrol) hquote hc hl, rfl, hstring⟩
  | case1 | case3 | case5 | case6 | case8 | case9 =>
    obtain ⟨rfl, rfl⟩ := Prod.mk.inj h
    cases ht

/-! ## Any token -/

/-- What is cut off as a whole token is a lexeme of its kind. -/
theorem exists_of_scan {c : Char} {t : Token} (h : scan c cs = (t, rest)) (ht : t.isWhole = true) :
    ∃ l, Spells l t ∧ c :: cs = l ++ rest := by
  unfold scan at h
  split at h
  case h_1 | h_2 | h_3 | h_4 | h_5 | h_6 =>
    obtain ⟨rfl, rfl⟩ := Prod.mk.inj h
    exact ⟨_, rfl, rfl⟩
  case h_7 | h_8 | h_9 =>
    obtain ⟨rfl, rfl⟩ := eq_of_scanWord h ht
    exact ⟨_, rfl, rfl⟩
  case h_10 =>
    obtain ⟨l, hl, rfl, pieces, rfl⟩ := exists_of_scanString h ht
    exact ⟨'"' :: l, ⟨l, rfl, hl⟩, rfl⟩
  case h_11 =>
    obtain ⟨w, f, e, hw, hf, he, rfl, n, rfl⟩ := exists_of_scanNumber h ht
    exact ⟨_, .negative hw hf he, rfl⟩
  case h_12 =>
    split at h
    · obtain ⟨w, f, e, hw, hf, he, hcs, n, rfl⟩ := exists_of_scanNumber h ht
      exact ⟨_, .plain hw hf he, hcs⟩
    · obtain ⟨rfl, rfl⟩ := Prod.mk.inj h
      cases ht

/-! ## Whole texts -/

/-- A text whose tokens are whole is a text of their lexemes. -/
theorem exists_isText_of_tokensFrom {fuel line : ℕ} {text : List Char} (hfuel : text.length ≤ fuel)
    (hwhole : ∀ placed ∈ tokensFrom fuel line text, placed.token.isWhole = true) :
    ∃ ls, IsText ls text ∧
      List.Forall₂ Spells ls ((tokensFrom fuel line text).map (·.token)) := by
  induction fuel generalizing line text with
  | zero =>
    obtain rfl : text = [] := List.length_eq_zero_iff.mp (Nat.le_zero.mp hfuel)
    exact ⟨[], .nil (by simp [IsBlanks]), .nil⟩
  | succ fuel ih =>
    rcases text with _ | ⟨c, cs⟩
    · exact ⟨[], .nil (by simp [IsBlanks]), .nil⟩
    rw [List.length_cons] at hfuel
    rw [tokensFrom] at hwhole ⊢
    split
    · next hc =>
      rw [if_pos hc] at hwhole
      obtain ⟨ls, htext, hls⟩ := ih (Nat.le_of_succ_le_succ hfuel) hwhole
      exact ⟨ls, isText_blanks_append (List.forall_mem_singleton.mpr hc) htext, hls⟩
    · next hc =>
      rw [if_neg hc] at hwhole
      rcases hscan : scan c cs with ⟨t, rest⟩
      simp only [hscan, List.forall_mem_cons] at hwhole ⊢
      obtain ⟨l, hl, hcs⟩ := exists_of_scan hscan hwhole.1
      have hrest : rest.length ≤ fuel := by
        obtain ⟨d, ds, rfl, -⟩ := hl.isLexeme.exists_cons
        have hlength := congrArg List.length hcs
        simp only [List.length_cons, List.length_append] at hlength
        omega
      obtain ⟨ls, htext, hls⟩ := ih hrest hwhole.2
      refine ⟨l :: ls, ?_, .cons hl hls⟩
      rw [hcs, ← List.nil_append l]
      exact .cons (by simp [IsBlanks]) htext

/-- The lexemes of a text whose tokens are whole. -/
theorem exists_isText_of_tokens {text : List Char}
    (hwhole : ∀ t ∈ (tokens text).map (·.token), t.isWhole = true) :
    ∃ ls, IsText ls text ∧ List.Forall₂ Spells ls ((tokens text).map (·.token)) :=
  exists_isText_of_tokensFrom le_rfl (List.forall_mem_map.mp hwhole)

end ModuleMap.Json
