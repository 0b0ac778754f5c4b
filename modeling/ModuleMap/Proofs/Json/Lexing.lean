import Mathlib.Tactic.IntervalCases
import ModuleMap.Json.Reader
import ModuleMap.Proofs.Json.Grammar

/-!
# Lexemes are tokens

Each lexeme of the grammar is cut off as one token, whatever comes after it; only after a number
there must be nothing that could belong to the number.  So the tokens of a text depend on its
lexemes alone, and what is read from the text does too, but for the lines of its errors.

* `Json.IsLexeme.exists_token`: the token of a lexeme.
* `Json.exists_tokens`: the tokens of a text.
* `Json.readDocument_congr`: texts of the same tokens are read alike.
-/

namespace ModuleMap.Json

/-- Nothing in a text belongs to a number or word that comes directly before it. -/
def Ends (rest : List Char) : Prop :=
  ∀ c ∈ rest.head?, c ∉ bareChars

/-! ## Numbers -/

theorem isDigit_of_mem {c : Char} (h : c ∈ decimalDigits) : c.isDigit = true := by
  have hall : ∀ c ∈ decimalDigits, c.isDigit = true := List.all_iff_forall_prop.mp (by decide)
  exact hall c h

/-- Digits are taken up to what is no digit. -/
theorem scanDigits_append {ds rest : List Char} (h : ∀ d ∈ ds, d ∈ decimalDigits)
    (hrest : ∀ c ∈ rest.head?, c.isDigit = false) :
    scanDigits (ds ++ rest) = (ds.map digitValue, rest) := by
  induction ds with
  | nil =>
    rcases rest with _ | ⟨c, cs⟩
    · rfl
    · have hc : c.isDigit = false := hrest c (by simp)
      simp [scanDigits, hc]
  | cons d ds ih =>
    rw [List.forall_mem_cons] at h
    rw [List.cons_append, scanDigits, if_pos (isDigit_of_mem h.1), ih h.2, List.map_cons]

theorem IsDigits.exists_cons {ds : List Char} (h : IsDigits ds) :
    ∃ d rest, ds.map digitValue = d :: rest := by
  rcases ds with _ | ⟨d, ds⟩
  · exact absurd rfl h.1
  · exact ⟨_, _, rfl⟩

theorem IsWhole.exists_scan {w : List Char} (h : IsWhole w) :
    ∃ ds, ∀ rest : List Char, (∀ c ∈ rest.head?, c.isDigit = false) →
      scanWhole (w ++ rest) = .ok (ds, rest) := by
  refine ⟨w.map digitValue, fun rest hrest => ?_⟩
  have hscan := scanDigits_append h.isDigits.2 hrest
  cases h with
  | zero =>
    rw [scanWhole, hscan]
    rfl
  | @digits d ds h hd =>
    have hvalue : ∀ d ∈ decimalDigits, d ≠ '0' → digitValue d ≠ 0 :=
      List.all_iff_forall_prop.mp (by decide)
    have hne := hvalue d (h.2 d List.mem_cons_self) hd
    rw [scanWhole, hscan, List.map_cons]
    rcases hdigit : digitValue d with _ | n
    · exact absurd hdigit hne
    · rfl

theorem IsFraction.exists_scan {f : List Char} (h : IsFraction f) :
    ∃ ds, ∀ rest : List Char, (∀ c ∈ rest.head?, c.isDigit = false ∧ c ≠ '.') →
      scanFraction (f ++ rest) = .ok (ds, rest) := by
  cases h with
  | none =>
    refine ⟨[], fun rest hrest => ?_⟩
    rcases rest with _ | ⟨c, cs⟩
    · rfl
    · have hc : c ≠ '.' := (hrest c (by simp)).2
      rw [List.nil_append, scanFraction]
      intro tail heq
      exact hc (congrArg (·.headD ' ') heq)
  | @digits ds h =>
    refine ⟨ds.map digitValue, fun rest hrest => ?_⟩
    obtain ⟨d, values, hvalues⟩ := h.exists_cons
    rw [List.cons_append, scanFraction, scanDigits_append h.2 fun c hc => (hrest c hc).1, hvalues]

theorem mem_decimalDigits_of_isDigit {c : Char} (h : c.isDigit = true) : c ∈ decimalDigits := by
  have hbounds : 48 ≤ c.toNat ∧ c.toNat ≤ 57 := by
    simpa [Char.isDigit, UInt32.le_iff_toNat_le] using h
  rw [← Char.ofNat_toNat c]
  generalize c.toNat = n at hbounds
  obtain ⟨hlow, hhigh⟩ := hbounds
  interval_cases n <;> decide

theorem Ends.isDigit {rest : List Char} (h : Ends rest) : ∀ c ∈ rest.head?, c.isDigit = false := by
  intro c hc
  by_contra hdigit
  refine h c hc (List.mem_append_left _ (mem_decimalDigits_of_isDigit ?_))
  simpa using hdigit

theorem IsExponent.exists_scan {e : List Char} (h : IsExponent e) :
    ∃ x, ∀ rest, Ends rest → scanExponent (e ++ rest) = .ok (x, rest) := by
  have hletter : ∀ {c : Char}, c ∈ ['e', 'E'] → c = 'e' ∨ c = 'E' := by
    intro c hc
    simpa using hc
  cases h with
  | none =>
    refine ⟨Option.none, fun rest hrest => ?_⟩
    rcases rest with _ | ⟨c, cs⟩
    · rfl
    · have hc : ¬(c = 'e' ∨ c = 'E') := by
        rintro (rfl | rfl)
        · exact hrest 'e' (by simp) (by decide)
        · exact hrest 'E' (by simp) (by decide)
      simp only [List.nil_append, scanExponent, if_neg hc]
  | @unsigned e ds he h =>
    refine ⟨some ⟨false, ds.map digitValue⟩, fun rest hrest => ?_⟩
    obtain ⟨d, values, hvalues⟩ := h.exists_cons
    have hscan := scanDigits_append h.2 hrest.isDigit
    have hsigns : ∀ sign ∈ ['+', '-'], ∀ tail, ds ++ rest ≠ sign :: tail := by
      intro sign hsign tail heq
      rcases ds with _ | ⟨d', ds⟩
      · exact h.1 rfl
      · obtain rfl : d' = sign := congrArg (·.headD ' ') heq
        have hapart : ∀ d ∈ decimalDigits, d ∉ ['+', '-'] := List.all_iff_forall_prop.mp (by decide)
        exact hapart d' (h.2 d' List.mem_cons_self) hsign
    rw [List.cons_append, scanExponent, if_pos (hletter he)]
    · simp only [hscan, hvalues]
    · exact fun tail heq => hsigns '+' (by simp) tail heq
    · exact fun tail heq => hsigns '-' (by simp) tail heq
  | @signed e sign ds he hsign h =>
    refine ⟨some ⟨sign = '-', ds.map digitValue⟩, fun rest hrest => ?_⟩
    obtain ⟨d, values, hvalues⟩ := h.exists_cons
    have hscan := scanDigits_append h.2 hrest.isDigit
    rcases (by simpa using hsign : sign = '+' ∨ sign = '-') with rfl | rfl
    · simp only [List.cons_append, scanExponent, if_pos (hletter he), hscan, hvalues]
      rfl
    · simp only [List.cons_append, scanExponent, if_pos (hletter he), hscan, hvalues]
      rfl

/-- The digits, the fraction and the exponent of a number are cut off one after the other. -/
theorem exists_scanNumber {w f e : List Char} (hw : IsWhole w) (hf : IsFraction f)
    (he : IsExponent e) (negative : Bool) :
    ∃ n, ∀ rest, Ends rest → scanNumber negative (w ++ f ++ e ++ rest) = (.number n, rest) := by
  obtain ⟨whole, hwhole⟩ := hw.exists_scan
  obtain ⟨fraction, hfraction⟩ := hf.exists_scan
  obtain ⟨exponent, hexponent⟩ := he.exists_scan
  refine ⟨⟨negative, whole, fraction, exponent⟩, fun rest hrest => ?_⟩
  have hafterFraction : ∀ c ∈ (e ++ rest).head?, c.isDigit = false ∧ c ≠ '.' := by
    intro c hc
    cases he with
    | none =>
      refine ⟨hrest.isDigit c hc, ?_⟩
      rintro rfl
      exact hrest '.' hc (by decide)
    | unsigned he h | signed he hsign h =>
      have hletters : ∀ e ∈ ['e', 'E'], e.isDigit = false ∧ e ≠ '.' :=
        List.all_iff_forall_prop.mp (by decide)
      rw [List.cons_append, List.head?_cons, Option.mem_some] at hc
      exact hc ▸ hletters _ he
  have hafterWhole : ∀ c ∈ (f ++ (e ++ rest)).head?, c.isDigit = false := by
    intro c hc
    cases hf with
    | none => exact (hafterFraction c hc).1
    | digits h =>
      rw [List.cons_append, List.head?_cons, Option.mem_some] at hc
      rw [← hc]
      rfl
  rw [List.append_assoc, List.append_assoc]
  simp only [scanNumber, hwhole _ hafterWhole, hfraction _ hafterFraction, hexponent _ hrest, bind,
    Except.bind, pure, Except.pure]

/-! ## Strings -/

theorem hexUnit?_isSome {a b c d : Char} (h : ∀ x ∈ [a, b, c, d], x ∈ hexDigits) :
    ∃ n, hexUnit? a b c d = some n := by
  have hvalue : ∀ x ∈ hexDigits, ∃ n, hexValue? x = some n := by
    have hall : ∀ x ∈ hexDigits, (hexValue? x).isSome = true :=
      List.all_iff_forall_prop.mp (by decide)
    exact fun x hx => Option.isSome_iff_exists.mp (hall x hx)
  obtain ⟨na, ha⟩ := hvalue a (h a (by simp))
  obtain ⟨nb, hb⟩ := hvalue b (h b (by simp))
  obtain ⟨nc, hc⟩ := hvalue c (h c (by simp))
  obtain ⟨nd, hd⟩ := hvalue d (h d (by simp))
  exact ⟨_, by rw [hexUnit?, ha, hb, hc, hd]; rfl⟩

/-- A character that is neither a quote nor a backslash stands for itself. -/
theorem scanString_char {c : Char} (hc : ' ' ≤ c) (hquote : c ≠ '"') (hslash : c ≠ '\\')
    (pieces : List Piece) (rest : List Char) :
    scanString pieces (c :: rest) = scanString (.char c :: pieces) rest := by
  have hcontrol : ¬c < ' ' := Char.not_lt.mpr hc
  rw [scanString.eq_def]
  split <;> simp_all

/-- A backslash and a letter stand for one character. -/
theorem scanString_escape {e x : Char} (he : e ≠ 'u') (hx : shortEscape? e = some x)
    (pieces : List Piece) (rest : List Char) :
    scanString pieces ('\\' :: e :: rest) = scanString (.char x :: pieces) rest := by
  rw [scanString]
  · simp only [hx]
  · intro a b c d tail hu
    exact absurd hu he
  · exact he

/-- A string ends at its closing quote. -/
theorem IsStringRest.exists_token {cs : List Char} (h : IsStringRest cs) (pieces : List Piece) :
    ∃ token, ∀ rest, scanString pieces (cs ++ rest) = (token, rest) := by
  induction h generalizing pieces with
  | close => exact ⟨.string pieces.reverse, fun rest => rfl⟩
  | @char c cs hc hquote hslash _ ih =>
    obtain ⟨token, htoken⟩ := ih (.char c :: pieces)
    refine ⟨token, fun rest => ?_⟩
    rw [List.cons_append, scanString_char hc hquote hslash, htoken]
  | @escape e cs he _ ih =>
    have hall : ∀ e ∈ escapable, e ≠ 'u' ∧ (shortEscape? e).isSome = true :=
      List.all_iff_forall_prop.mp (by decide)
    obtain ⟨hu, hsome⟩ := hall e he
    obtain ⟨x, hx⟩ := Option.isSome_iff_exists.mp hsome
    obtain ⟨token, htoken⟩ := ih (.char x :: pieces)
    refine ⟨token, fun rest => ?_⟩
    rw [List.cons_append, List.cons_append, scanString_escape hu hx, htoken]
  | @unit a b c d cs hunit _ ih =>
    obtain ⟨n, hn⟩ := hexUnit?_isSome hunit
    obtain ⟨token, htoken⟩ := ih (.unit n :: pieces)
    refine ⟨token, fun rest => ?_⟩
    simp only [List.cons_append, scanString, hn, htoken rest]

/-! ## Any lexeme -/

theorem scan_mark {c : Char} (hc : c ∈ marks) : ∃ token, ∀ rest, scan c rest = (token, rest) := by
  simp only [marks, List.mem_cons, List.not_mem_nil, or_false] at hc
  rcases hc with rfl | rfl | rfl | rfl | rfl | rfl <;> exact ⟨_, fun rest => rfl⟩

theorem scan_digit {c : Char} (hc : c ∈ decimalDigits) (cs : List Char) :
    scan c cs = scanNumber false (c :: cs) := by
  have hdigits : decimalDigits = ['0', '1', '2', '3', '4', '5', '6', '7', '8', '9'] := by decide
  simp only [hdigits, List.mem_cons, List.not_mem_nil, or_false] at hc
  rcases hc with rfl | rfl | rfl | rfl | rfl | rfl | rfl | rfl | rfl | rfl <;> rfl

theorem scan_word {c : Char} {cs : List Char} (h : c :: cs ∈ words) :
    ∃ token, ∀ rest, scan c (cs ++ rest) = (token, rest) := by
  have hwords : words =
      [['n', 'u', 'l', 'l'], ['t', 'r', 'u', 'e'], ['f', 'a', 'l', 's', 'e']] := by decide
  simp only [hwords, List.mem_cons, List.cons.injEq, List.not_mem_nil, or_false] at h
  rcases h with ⟨rfl, rfl⟩ | ⟨rfl, rfl⟩ | ⟨rfl, rfl⟩ <;>
    exact ⟨_, fun rest => rfl⟩

/-- A number is cut off where it ends. -/
theorem IsNumber.exists_token {c : Char} {cs : List Char} (h : IsNumber (c :: cs)) :
    ∃ token, ∀ rest, Ends rest → scan c (cs ++ rest) = (token, rest) := by
  generalize hl : c :: cs = l at h
  cases h with
  | @plain w f e hw hf he =>
    obtain ⟨n, hn⟩ := exists_scanNumber hw hf he false
    refine ⟨.number n, fun rest hrest => ?_⟩
    have hc : c ∈ decimalDigits := by
      rcases w with _ | ⟨d, ds⟩
      · exact absurd rfl hw.isDigits.1
      · obtain rfl : c = d := congrArg (·.headD ' ') hl
        exact hw.isDigits.2 c List.mem_cons_self
    rw [scan_digit hc, ← List.cons_append, hl, hn rest hrest]
  | @negative w f e hw hf he =>
    obtain ⟨n, hn⟩ := exists_scanNumber hw hf he true
    refine ⟨.number n, fun rest hrest => ?_⟩
    obtain ⟨rfl, rfl⟩ := List.cons.inj hl
    exact hn rest hrest

/-- A lexeme is cut off as one token, provided that a number ends where it ends. -/
theorem IsLexeme.exists_token {c : Char} {cs : List Char} (h : IsLexeme (c :: cs)) :
    ∃ token, ∀ rest, (IsNumber (c :: cs) → Ends rest) → scan c (cs ++ rest) = (token, rest) := by
  generalize hl : c :: cs = l at h
  cases h with
  | @mark d hd =>
    obtain ⟨rfl, rfl⟩ := List.cons.inj hl
    obtain ⟨token, htoken⟩ := scan_mark hd
    exact ⟨token, fun rest _ => htoken rest⟩
  | scalar h =>
    subst hl
    cases h with
    | string h =>
      obtain ⟨rest, heq, h⟩ := h
      obtain ⟨rfl, rfl⟩ := List.cons.inj heq
      obtain ⟨token, htoken⟩ := h.exists_token []
      exact ⟨token, fun rest _ => htoken rest⟩
    | number h =>
      obtain ⟨token, htoken⟩ := h.exists_token
      exact ⟨token, fun rest hrest => htoken rest (hrest h)⟩
    | word h =>
      obtain ⟨token, htoken⟩ := scan_word h
      exact ⟨token, fun rest _ => htoken rest⟩

/-! ## Whole texts -/

theorem mem_of_isBlank {c : Char} (h : isBlank c = true) : c ∈ [' ', '\t', '\n', '\r'] := by
  simpa [isBlank, or_assoc] using h

theorem isBlank_of_mem_initials {c : Char} (h : c ∈ initials) : isBlank c = false := by
  have hall : ∀ c ∈ initials, isBlank c = false := List.all_iff_forall_prop.mp (by decide)
  exact hall c h

section

variable {ls : List Lexeme} {text : List Char}

/-- A text without characters has no lexemes. -/
theorem IsText.eq_nil (hls : ∀ l ∈ ls, IsLexeme l) (h : IsText ls []) : ls = [] := by
  generalize htext : [] = text at h
  cases h with
  | nil _ => rfl
  | cons hg _ =>
    obtain ⟨c, cs, rfl, -⟩ := (List.forall_mem_cons.mp hls).1.exists_cons
    simp at htext

/-- Blanks before a text are no part of a lexeme. -/
theorem isText_of_isBlanks_append {g : List Char} (hls : ∀ l ∈ ls, IsLexeme l) (hg : IsBlanks g)
    (h : IsText ls (g ++ text)) : IsText ls text := by
  induction g with
  | nil => exact h
  | cons b g ih =>
    rw [IsBlanks, List.forall_mem_cons] at hg
    refine ih hg.2 ?_
    generalize htext : b :: g ++ text = whole at h
    cases h with
    | nil hblanks =>
      subst htext
      exact .nil (List.forall_mem_cons.mp hblanks).2
    | @cons g' l ls rest hblanks h =>
      obtain ⟨c, cs, rfl, hc⟩ := (List.forall_mem_cons.mp hls).1.exists_cons
      rcases g' with _ | ⟨b', g'⟩
      · obtain rfl : b = c := congrArg (·.headD ' ') htext
        rw [isBlank_of_mem_initials hc] at hg
        cases hg.1
      · have htail : g ++ text = g' ++ (c :: cs) ++ rest := (List.cons.inj htext).2
        rw [htail]
        exact .cons (List.forall_mem_cons.mp hblanks).2 h

/-- With a character that is not blank a lexeme begins. -/
theorem IsText.exists_of_cons {c : Char} (hls : ∀ l ∈ ls, IsLexeme l) (hc : isBlank c = false)
    (h : IsText ls (c :: text)) :
    ∃ cs ls' rest, ls = (c :: cs) :: ls' ∧ text = cs ++ rest ∧ IsText ls' rest := by
  have hnot : ∀ {g : List Char}, ¬IsBlanks (c :: g) := fun hg =>
    Bool.false_ne_true (hc.symm.trans (hg c List.mem_cons_self))
  generalize htext : c :: text = whole at h
  cases h with
  | nil hblanks => exact absurd (htext ▸ hblanks) hnot
  | @cons g l ls rest hblanks h =>
    obtain ⟨d, cs, rfl, -⟩ := (List.forall_mem_cons.mp hls).1.exists_cons
    rcases g with _ | ⟨b, g⟩
    · obtain ⟨rfl, rfl⟩ := List.cons.inj htext
      exact ⟨cs, ls, rest, rfl, rfl, h⟩
    · obtain rfl : c = b := congrArg (·.headD ' ') htext
      exact absurd hblanks hnot

end

/-- The tokens of a text, wherever it starts. -/
def Yields (text : List Char) (ts : List Token) : Prop :=
  ∀ fuel line, text.length ≤ fuel → (tokensFrom fuel line text).map (·.token) = ts

theorem Yields.tokens {text : List Char} {ts : List Token} (h : Yields text ts) :
    (Json.tokens text).map (·.token) = ts :=
  h text.length 1 le_rfl

theorem yields_nil : Yields [] [] := by
  intro fuel line _
  cases fuel <;> rfl

theorem Yields.blank {c : Char} {text : List Char} {ts : List Token} (hc : isBlank c = true)
    (h : Yields text ts) : Yields (c :: text) ts := by
  intro fuel line hfuel
  rcases fuel with _ | fuel
  · cases hfuel
  · rw [tokensFrom, if_pos hc]
    exact h fuel _ (Nat.le_of_succ_le_succ hfuel)

theorem Yields.blanks {g text : List Char} {ts : List Token} (hg : IsBlanks g)
    (h : Yields text ts) : Yields (g ++ text) ts := by
  induction g with
  | nil => exact h
  | cons c g ih =>
    rw [IsBlanks, List.forall_mem_cons] at hg
    exact (ih hg.2).blank hg.1

theorem Yields.token {c : Char} {cs text : List Char} {token : Token} {ts : List Token}
    (hc : isBlank c = false) (hscan : scan c (cs ++ text) = (token, text)) (h : Yields text ts) :
    Yields (c :: cs ++ text) (token :: ts) := by
  intro fuel line hfuel
  rw [List.cons_append] at hfuel ⊢
  rcases fuel with _ | fuel
  · cases hfuel
  · have hle : text.length ≤ fuel := by
      rw [List.length_cons, List.length_append] at hfuel
      omega
    rw [tokensFrom, hc, if_neg Bool.false_ne_true, hscan]
    exact congrArg (token :: ·) (h fuel line hle)

/-- A text ends a number before it if it begins with a blank or a mark. -/
theorem ends_of_isText {ls : List Lexeme} {text : List Char} (h : IsText ls text)
    (hmark : ∀ l ∈ ls.head?, ∃ c ∈ marks, l = [c]) : Ends text := by
  have hblanks : ∀ c ∈ [' ', '\t', '\n', '\r'], c ∉ bareChars :=
    List.all_iff_forall_prop.mp (by decide)
  have hmarks : ∀ c ∈ marks, c ∉ bareChars := List.all_iff_forall_prop.mp (by decide)
  cases h with
  | nil hg =>
    intro c hc
    exact hblanks c (mem_of_isBlank (hg c (List.mem_of_mem_head? hc)))
  | @cons g l ls text hg h =>
    intro c hc
    obtain ⟨d, hd, rfl⟩ := hmark l (by simp)
    rcases g with _ | ⟨b, g⟩
    · rw [List.nil_append, List.singleton_append, List.head?_cons, Option.mem_some] at hc
      exact hc ▸ hmarks d hd
    · rw [List.cons_append, List.cons_append, List.head?_cons, Option.mem_some] at hc
      exact hc ▸ hblanks b (mem_of_isBlank (hg b List.mem_cons_self))

/-- Texts of the same lexemes have the same tokens. -/
theorem exists_tokens {ls : List Lexeme} (hls : ∀ l ∈ ls, IsLexeme l) (hapart : ls.IsChain Apart) :
    ∃ ts, ∀ text, IsText ls text → Yields text ts := by
  induction ls with
  | nil =>
    refine ⟨[], fun text h => ?_⟩
    cases h with
    | nil hg => simpa using yields_nil.blanks hg
  | cons l ls ih =>
    rw [List.forall_mem_cons] at hls
    obtain ⟨hhead, htail⟩ := List.isChain_cons.mp hapart
    obtain ⟨ts, hts⟩ := ih hls.2 htail
    obtain ⟨c, cs, rfl, hc⟩ := hls.1.exists_cons
    obtain ⟨token, htoken⟩ := hls.1.exists_token
    refine ⟨token :: ts, fun text h => ?_⟩
    cases h with
    | @cons g _ _ rest hg h =>
      have hscan := htoken rest fun hnumber =>
        ends_of_isText h fun m hm => hhead m hm hnumber
      rw [List.append_assoc]
      exact ((hts rest h).token (isBlank_of_mem_initials hc) hscan).blanks hg

/-- Texts of the same tokens are read alike; only the line of an error can differ. -/
theorem readDocument_congr {α : Type} (read : Reader α) {text text' : List Char}
    (h : (tokens text).map (·.token) = (tokens text').map (·.token)) :
    (readDocument read text).mapError Error.category =
      (readDocument read text').mapError Error.category := by
  unfold readDocument
  simp only [h]
  cases readAll read ((tokens text').map (·.token)) with
  | ok a => rfl
  | error s => rfl

end ModuleMap.Json
