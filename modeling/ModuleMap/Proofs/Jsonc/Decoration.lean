import ModuleMap.Jsonc.Document
import ModuleMap.Proofs.Json.Lexing
import ModuleMap.Proofs.Json.TrailingCommas

/-!
# Comments and trailing commas

A text is decorated if it has blanks and comments between its lexemes, trailing commas among them
and byte order marks before all.  The two passes go over the text by characters, each with its own
idea of where a string begins and ends; what they agree on is where the lexemes are.

The first pass keeps each lexeme as it is and leaves only blanks of what stands between.  The second
keeps each lexeme but the trailing commas.  It looks further on from a comma than JSON does, because
more characters are blank to it, but no lexeme begins with one of these.

* `Jsonc.Trivia`, `Jsonc.IsDecorated`: what can stand between lexemes, and decorated texts.
* `Jsonc.Pass`, `Jsonc.Pass.scan_lexeme`: what both passes do, and that lexemes are kept.
* `Jsonc.isText_stripComments`, `Jsonc.stripComments_eq_self`: the first pass.
* `Jsonc.isText_stripTrailingCommas`, `Jsonc.stripTrailingCommas_eq_self`: the second.
* `Jsonc.isText_toJson`, `Jsonc.tokens_toJson`: what is left of a decorated text.
-/

namespace ModuleMap.Jsonc

open Json (Lexeme IsStringRest IsString IsLexeme IsBlanks IsText Spaced Relaxes)

/-! ## Decorated texts -/

/-- Blanks and closed comments. -/
inductive Trivia : List Char → Prop
  | nil : Trivia []
  | blank {c : Char} {cs : List Char} (hc : Json.isBlank c = true) (h : Trivia cs) :
      Trivia (c :: cs)
  | line {body cs : List Char} (hbody : '\n' ∉ body) (h : Trivia cs) :
      Trivia ('/' :: '/' :: (body ++ '\n' :: cs))
  | block {body cs : List Char} (hbody : ¬['*', '/'] <:+: body) (h : Trivia cs) :
      Trivia ('/' :: '*' :: (body ++ '*' :: '/' :: cs))

/-- Blanks and comments at the end of a text, which may end a comment with the line. -/
inductive LastTrivia : List Char → Prop
  | closed {cs : List Char} (h : Trivia cs) : LastTrivia cs
  | line {cs body : List Char} (h : Trivia cs) (hbody : '\n' ∉ body) :
      LastTrivia (cs ++ '/' :: '/' :: body)

/-- A text of lexemes, with blanks and comments before, between and after them, and any number of
byte order marks before all. -/
def IsDecorated (ls : List Lexeme) (s : List Char) : Prop :=
  ∃ n text, s = List.replicate n '\uFEFF' ++ text ∧ Spaced Trivia LastTrivia ls text

/-! ## Passes -/

/-- What both passes do: outside strings they keep all but one special character, which neither is
blank nor belongs to a number or word, and strings they keep up to the closing quote. -/
structure Pass {σ : Type} (scan : σ → List Char → List Char) (outside inside escaped : σ)
    (special : Char) : Prop where
  opens (cs : List Char) : scan outside ('"' :: cs) = '"' :: scan inside cs
  keeps {c : Char} (hquote : c ≠ '"') (hspecial : c ≠ special) (cs : List Char) :
    scan outside (c :: cs) = c :: scan outside cs
  closes (cs : List Char) : scan inside ('"' :: cs) = '"' :: scan outside cs
  backslash (cs : List Char) : scan inside ('\\' :: cs) = '\\' :: scan escaped cs
  escape (c : Char) (cs : List Char) : scan escaped (c :: cs) = c :: scan inside cs
  char {c : Char} (hquote : c ≠ '"') (hslash : c ≠ '\\') (cs : List Char) :
    scan inside (c :: cs) = c :: scan inside cs
  special_notMem : special ∉ Json.bareChars
  isBlank_special : Json.isBlank special = false

namespace Pass

variable {σ : Type} {scan : σ → List Char → List Char} {outside inside escaped : σ}
  {special : Char} (h : Pass scan outside inside escaped special)
include h

theorem scan_append {cs : List Char} (hcs : ∀ c ∈ cs, c ≠ '"' ∧ c ≠ special) (rest : List Char) :
    scan outside (cs ++ rest) = cs ++ scan outside rest := by
  induction cs with
  | nil => rfl
  | cons c cs ih =>
    rw [List.forall_mem_cons] at hcs
    rw [List.cons_append, h.keeps hcs.1.1 hcs.1.2, ih hcs.2, List.cons_append]

theorem scan_blanks {g : List Char} (hg : IsBlanks g) (rest : List Char) :
    scan outside (g ++ rest) = g ++ scan outside rest := by
  refine h.scan_append (fun c hc => ⟨?_, ?_⟩) rest
  · rintro rfl
    cases hg _ hc
  · rintro rfl
    cases h.isBlank_special.symm.trans (hg _ hc)

/-- A string is kept up to its closing quote. -/
theorem scan_stringRest {cs : List Char} (hcs : IsStringRest cs) (rest : List Char) :
    scan inside (cs ++ rest) = cs ++ scan outside rest := by
  induction hcs with
  | close => exact h.closes rest
  | char _ hquote hslash _ ih =>
    rw [List.cons_append, h.char hquote hslash, ih, List.cons_append]
  | escape _ _ ih =>
    simp only [List.cons_append, h.backslash, h.escape, ih]
  | @unit a b c d cs hunit _ ih =>
    have hdigits : ∀ x ∈ Json.hexDigits, x ≠ '"' ∧ x ≠ '\\' :=
      List.all_iff_forall_prop.mp (by decide)
    have hkept : ∀ x ∈ [a, b, c, d], ∀ cs, scan inside (x :: cs) = x :: scan inside cs :=
      fun x hx => h.char (hdigits x (hunit x hx)).1 (hdigits x (hunit x hx)).2
    simp only [List.cons_append, h.backslash, h.escape, hkept a (by simp), hkept b (by simp),
      hkept c (by simp), hkept d (by simp), ih]

/-- A lexeme other than the special character is kept. -/
theorem scan_lexeme {l : Lexeme} (hl : IsLexeme l) (hspecial : l ≠ [special]) (rest : List Char) :
    scan outside (l ++ rest) = l ++ scan outside rest := by
  have hmarks : '"' ∉ Json.marks := by decide
  have hquote : '"' ∉ Json.bareChars := by decide
  rcases hl.string_or with ⟨cs, rfl, hcs⟩ | ⟨c, hc, rfl⟩ | hbare
  · rw [List.cons_append, h.opens, h.scan_stringRest hcs, List.cons_append]
  · refine h.scan_append (List.forall_mem_singleton.mpr ⟨?_, ?_⟩) rest
    · exact fun heq => hmarks (heq ▸ hc)
    · exact fun heq => hspecial (heq ▸ rfl)
  · refine h.scan_append (fun c hc => ⟨?_, ?_⟩) rest
    · exact fun heq => hquote (heq ▸ hbare c hc)
    · exact fun heq => h.special_notMem (heq ▸ hbare c hc)

end Pass

/-! ## Without comments -/

theorem stripFrom_lineComment {body : List Char} (h : '\n' ∉ body) (rest : List Char) :
    stripFrom .lineComment (body ++ rest) = stripFrom .lineComment rest := by
  induction body with
  | nil => rfl
  | cons c body ih =>
    rw [List.mem_cons, not_or] at h
    rw [List.cons_append, stripFrom_lineComment_cons, if_neg (Ne.symm h.1), ih h.2]

/-- A block comment ends at the first star and slash.  The star that began it is none of its own, so
that a slash directly after it does not end the comment. -/
theorem stripFrom_blockComment {body : List Char} (star : Bool)
    (hbody : ¬['*', '/'] <:+: body) (hstar : star = true → body.head? ≠ some '/')
    (rest : List Char) :
    stripFrom (.blockComment star) (body ++ '*' :: '/' :: rest) =
      body.filter (· = '\n') ++ stripFrom .code rest := by
  induction body generalizing star with
  | nil =>
    rw [List.nil_append, stripFrom_blockComment_cons, if_neg (by simp), if_neg (by decide),
      stripFrom_blockComment_cons, if_pos (by decide)]
    rfl
  | cons c body ih =>
    have hrest : ¬['*', '/'] <:+: body := fun h => hbody (List.infix_cons h)
    have hclose : ¬(star && decide (c = '/')) = true := by
      intro h
      rw [Bool.and_eq_true, decide_eq_true_eq] at h
      exact hstar h.1 (by rw [h.2]; rfl)
    have hnext : decide (c = '*') = true → body.head? ≠ some '/' := by
      intro hc hslash
      rw [decide_eq_true_eq] at hc
      obtain ⟨tail, rfl⟩ := List.head?_eq_some_iff.mp hslash
      exact hbody ⟨[], tail, by rw [hc]; rfl⟩
    rw [List.cons_append, stripFrom_blockComment_cons, if_neg hclose]
    by_cases hline : c = '\n'
    · subst hline
      rw [if_pos rfl, ih false hrest (by simp), List.filter_cons_of_pos (by simp), List.cons_append]
    · rw [if_neg hline, ih _ hrest hnext, List.filter_cons_of_neg (by simpa using hline)]

/-- To the first pass a slash is special: it may begin a comment. -/
theorem pass_stripFrom : Pass stripFrom .code .quoted .escaped '/' where
  opens _ := rfl
  keeps hquote hslash cs := by
    rw [stripFrom_code_cons, if_neg hslash, Region.afterCode, if_neg hquote]
  closes _ := rfl
  backslash _ := rfl
  escape _ _ := rfl
  char hquote hslash cs := by
    rw [stripFrom_quoted_cons, Region.afterQuoted, if_neg hslash, if_neg hquote]
  special_notMem := by decide
  isBlank_special := rfl

/-- No lexeme is a slash, so that each of them is kept. -/
theorem stripFrom_lexeme {l : Lexeme} (h : IsLexeme l) (rest : List Char) :
    stripFrom .code (l ++ rest) = l ++ stripFrom .code rest := by
  refine pass_stripFrom.scan_lexeme h ?_ rest
  rintro rfl
  obtain ⟨c, cs, heq, hc⟩ := h.exists_cons
  cases heq
  exact absurd hc (by decide)

/-- Of blanks and comments only blanks are left. -/
theorem Trivia.exists_blanks {cs : List Char} (h : Trivia cs) :
    ∃ g, IsBlanks g ∧ ∀ rest, stripFrom .code (cs ++ rest) = g ++ stripFrom .code rest := by
  induction h with
  | nil => exact ⟨[], by simp [IsBlanks], fun rest => rfl⟩
  | @blank c cs hc _ ih =>
    obtain ⟨g, hg, hstrip⟩ := ih
    have hone : IsBlanks [c] := List.forall_mem_singleton.mpr hc
    refine ⟨c :: g, List.forall_mem_cons.mpr ⟨hc, hg⟩, fun rest => ?_⟩
    rw [List.cons_append, List.cons_append, ← hstrip rest]
    exact pass_stripFrom.scan_blanks hone _
  | @line body cs hbody _ ih =>
    obtain ⟨g, hg, hstrip⟩ := ih
    refine ⟨'\n' :: g, List.forall_mem_cons.mpr ⟨rfl, hg⟩, fun rest => ?_⟩
    show stripFrom .lineComment (body ++ '\n' :: cs ++ rest) = _
    rw [List.append_assoc, stripFrom_lineComment hbody, List.cons_append,
      stripFrom_lineComment_cons, if_pos rfl, hstrip rest, List.cons_append]
  | @block body cs hbody _ ih =>
    obtain ⟨g, hg, hstrip⟩ := ih
    refine ⟨body.filter (· = '\n') ++ g, ?_, fun rest => ?_⟩
    · refine List.forall_mem_append.mpr ⟨fun c hc => ?_, hg⟩
      have hline : c = '\n' := by simpa using (List.mem_filter.mp hc).2
      rw [hline]
      rfl
    · show stripFrom (.blockComment false) (body ++ '*' :: '/' :: cs ++ rest) = _
      rw [List.append_assoc, List.cons_append, List.cons_append,
        stripFrom_blockComment false hbody (by simp), hstrip rest, List.append_assoc]

theorem LastTrivia.exists_blanks {cs : List Char} (h : LastTrivia cs) :
    IsBlanks (stripFrom .code cs) := by
  cases h with
  | closed h =>
    obtain ⟨g, hg, hstrip⟩ := h.exists_blanks
    have hall := hstrip []
    rw [List.append_nil, stripFrom_nil, if_neg (by decide), List.append_nil] at hall
    rw [hall]
    exact hg
  | @line cs body h hbody =>
    obtain ⟨g, hg, hstrip⟩ := h.exists_blanks
    have hend : stripFrom .code ('/' :: '/' :: body) = [] := by
      show stripFrom .lineComment body = []
      rw [← List.append_nil body, stripFrom_lineComment hbody]
      rfl
    rw [hstrip, hend, List.append_nil]
    exact hg

/-- Without its comments a decorated text is a text of the same lexemes. -/
theorem isText_stripComments {ls : List Lexeme} {text : List Char} (hls : ∀ l ∈ ls, IsLexeme l)
    (h : Spaced Trivia LastTrivia ls text) : IsText ls (stripComments text) := by
  unfold stripComments
  induction h with
  | nil hg => exact .nil hg.exists_blanks
  | @cons g l ls text hg _ ih =>
    rw [List.forall_mem_cons] at hls
    obtain ⟨g', hg', hstrip⟩ := hg.exists_blanks
    rw [List.append_assoc, hstrip, stripFrom_lexeme hls.1, ← List.append_assoc]
    exact .cons hg' (ih hls.2)

/-- A text without comments is left as it is. -/
theorem stripComments_eq_self {ls : List Lexeme} {text : List Char} (hls : ∀ l ∈ ls, IsLexeme l)
    (h : IsText ls text) : stripComments text = text := by
  unfold stripComments
  induction h with
  | nil hg => simpa using pass_stripFrom.scan_blanks hg []
  | cons hg _ ih =>
    rw [List.forall_mem_cons] at hls
    rw [List.append_assoc, pass_stripFrom.scan_blanks hg, stripFrom_lexeme hls.1, ih hls.2]

/-! ## Without trailing commas -/

/-- To the second pass a comma is special: it may be trailing. -/
theorem pass_dropCommasFrom : Pass dropCommasFrom .outside .inside .escaped ',' where
  opens cs := by
    rw [dropCommasFrom_cons, if_neg (by simp)]
    rfl
  keeps hquote hcomma cs := by
    rw [dropCommasFrom_cons, if_neg fun hdrop => hcomma hdrop.2.1, Quoting.after, if_neg hquote]
  closes _ := rfl
  backslash _ := rfl
  escape _ _ := rfl
  char hquote hslash cs := by
    rw [dropCommasFrom_cons, if_neg (by simp), Quoting.after, if_neg hslash, if_neg hquote]
  special_notMem := by decide
  isBlank_special := rfl

theorem isBlank_of_isBlank {c : Char} (h : Json.isBlank c = true) : Text.isBlank c = true := by
  have hblanks : ∀ c ∈ [' ', '\t', '\n', '\r'], Text.isBlank c = true :=
    List.all_iff_forall_prop.mp (by decide)
  exact hblanks c (Json.mem_of_isBlank h)

theorem isBlank_of_mem_initials {c : Char} (h : c ∈ Json.initials) : Text.isBlank c = false := by
  have hinitials : ∀ c ∈ Json.initials, Text.isBlank c = false :=
    List.all_iff_forall_prop.mp (by decide)
  exact hinitials c h

/-- The first character of a text that is not blank is that of its first lexeme. -/
theorem find?_isBlank {ls : List Lexeme} {text : List Char} (hls : ∀ l ∈ ls, IsLexeme l)
    (h : IsText ls text) : text.find? (!Text.isBlank ·) = ls.head?.bind List.head? := by
  have hgap : ∀ {g : List Char}, IsBlanks g → g.find? (!Text.isBlank ·) = none := by
    intro g hg
    rw [List.find?_eq_none]
    intro c hc
    simp [isBlank_of_isBlank (hg c hc)]
  cases h with
  | nil hg => exact hgap hg
  | @cons g l ls text hg _ =>
    rw [List.forall_mem_cons] at hls
    obtain ⟨c, cs, rfl, hc⟩ := hls.1.exists_cons
    rw [List.append_assoc, List.find?_append, hgap hg, Option.none_or, List.cons_append,
      List.find?_cons_of_pos (by simp [isBlank_of_mem_initials hc])]
    rfl

/-- Whether the next character that is not blank closes an object or array is whether the next
lexeme does. -/
theorem closesNext_eq {ls : List Lexeme} {text : List Char} (hls : ∀ l ∈ ls, IsLexeme l)
    (h : IsText ls text) : closesNext text = Json.closesFirst ls := by
  unfold closesNext
  rw [find?_isBlank hls h]
  rcases ls with _ | ⟨l, ls⟩
  · rfl
  · rw [List.forall_mem_cons] at hls
    obtain ⟨c, cs, rfl, -⟩ := hls.1.exists_cons
    show (c == '\x7d' || c == ']') = decide (c :: cs ∈ Json.closers)
    rcases hls.1.string_or with ⟨rest, hstring, -⟩ | ⟨d, -, hmark⟩ | hl
    · obtain ⟨rfl, rfl⟩ := List.cons.inj hstring
      simp [Json.closers]
    · obtain ⟨rfl, rfl⟩ := List.cons.inj hmark
      simp only [Json.closers, List.mem_cons, List.cons.injEq, and_true, List.not_mem_nil, or_false,
        Bool.decide_or]
      rfl
    · have hbare : ∀ c ∈ Json.bareChars, c ≠ '\x7d' ∧ c ≠ ']' :=
        List.all_iff_forall_prop.mp (by decide)
      have hc := hbare c (hl c List.mem_cons_self)
      simp [Json.closers, hc.1, hc.2]

/-- A comma is dropped if a closing lexeme comes next. -/
theorem dropCommasFrom_comma {ls : List Lexeme} {text : List Char} (hls : ∀ l ∈ ls, IsLexeme l)
    (h : IsText ls text) :
    dropCommasFrom .outside (',' :: text) =
      if Json.closesFirst ls = true then dropCommasFrom .outside text
      else ',' :: dropCommasFrom .outside text := by
  rw [dropCommasFrom_cons, closesNext_eq hls h]
  simp [Quoting.after]

/-- Without its trailing commas a text has the lexemes that are left without these. -/
theorem isText_stripTrailingCommas {ls : List Lexeme} {text : List Char}
    (hls : ∀ l ∈ ls, IsLexeme l) (h : IsText ls text) :
    IsText (Json.dropTrailing ls) (stripTrailingCommas text) := by
  unfold stripTrailingCommas
  induction h with
  | @nil g hg =>
    have hkept := pass_dropCommasFrom.scan_blanks hg []
    rw [List.append_nil, dropCommasFrom_nil, List.append_nil] at hkept
    rw [hkept]
    exact .nil hg
  | @cons g l ls text hg htext ih =>
    rw [List.forall_mem_cons] at hls
    rw [List.append_assoc, pass_dropCommasFrom.scan_blanks hg]
    by_cases hcomma : l = [',']
    · subst hcomma
      rw [List.singleton_append, dropCommasFrom_comma hls.2 htext, Json.dropTrailing_comma]
      cases Json.closesFirst ls with
      | true => exact Json.isText_blanks_append hg (ih hls.2)
      | false =>
        have hparts : g ++ ',' :: dropCommasFrom .outside text =
            g ++ [','] ++ dropCommasFrom .outside text := by
          rw [List.append_assoc, List.singleton_append]
        rw [if_neg Bool.false_ne_true, if_neg Bool.false_ne_true, hparts]
        exact .cons hg (ih hls.2)
    · rw [pass_dropCommasFrom.scan_lexeme hls.1 hcomma, Json.dropTrailing_cons_of_ne hcomma,
        ← List.append_assoc]
      exact .cons hg (ih hls.2)

/-- A text without trailing commas is left as it is. -/
theorem stripTrailingCommas_eq_self {ls : List Lexeme} {text : List Char}
    (hls : ∀ l ∈ ls, IsLexeme l) (hkept : Json.dropTrailing ls = ls) (h : IsText ls text) :
    stripTrailingCommas text = text := by
  unfold stripTrailingCommas
  induction h with
  | nil hg => simpa using pass_dropCommasFrom.scan_blanks hg []
  | @cons g l ls text hg htext ih =>
    rw [List.forall_mem_cons] at hls
    rw [List.append_assoc, pass_dropCommasFrom.scan_blanks hg]
    by_cases hcomma : l = [',']
    · subst hcomma
      rw [Json.dropTrailing_comma] at hkept
      rw [List.singleton_append, dropCommasFrom_comma hls.2 htext]
      cases hcloses : Json.closesFirst ls with
      | true =>
        rw [hcloses, if_pos rfl] at hkept
        have hlength := (Json.dropTrailing_sublist ls).length_le
        rw [hkept, List.length_cons] at hlength
        omega
      | false =>
        rw [hcloses, if_neg Bool.false_ne_true] at hkept
        rw [if_neg Bool.false_ne_true, ih hls.2 (List.cons.inj hkept).2]
    · rw [Json.dropTrailing_cons_of_ne hcomma] at hkept
      rw [pass_dropCommasFrom.scan_lexeme hls.1 hcomma, ih hls.2 (List.cons.inj hkept).2]

/-! ## Both passes -/

theorem Trivia.head?_ne {cs : List Char} (h : Trivia cs) : cs.head? ≠ some '\uFEFF' := by
  cases h with
  | nil => simp
  | @blank c cs hc _ =>
    have hblanks : ∀ c ∈ [' ', '\t', '\n', '\r'], c ≠ '\uFEFF' :=
      List.all_iff_forall_prop.mp (by decide)
    simpa using hblanks c (Json.mem_of_isBlank hc)
  | line _ _ => simp
  | block _ _ => simp

/-- What comes after the byte order marks begins with none. -/
theorem head?_ne_of_spaced {ls : List Lexeme} {text : List Char} (hls : ∀ l ∈ ls, IsLexeme l)
    (h : Spaced Trivia LastTrivia ls text) : text.head? ≠ some '\uFEFF' := by
  cases h with
  | nil hg =>
    cases hg with
    | closed h => exact h.head?_ne
    | @line cs body h _ =>
      rcases cs with _ | ⟨c, cs⟩
      · simp
      · exact h.head?_ne
  | @cons g l ls text hg _ =>
    rcases g with _ | ⟨b, g⟩
    · have hinitials : ∀ c ∈ Json.initials, c ≠ '\uFEFF' := List.all_iff_forall_prop.mp (by decide)
      rw [List.forall_mem_cons] at hls
      obtain ⟨c, cs, rfl, hc⟩ := hls.1.exists_cons
      simpa using hinitials c hc
    · exact hg.head?_ne

/-- All byte order marks before a text are taken away. -/
theorem dropWhile_byteOrderMark {text : List Char} (h : text.head? ≠ some '\uFEFF') (n : ℕ) :
    (List.replicate n '\uFEFF' ++ text).dropWhile (· == '\uFEFF') = text := by
  rw [List.dropWhile_append_of_pos fun c hc => by rw [List.eq_of_mem_replicate hc]; rfl]
  rcases text with _ | ⟨c, cs⟩
  · rfl
  · have hc : ¬(c == '\uFEFF') = true := by
      intro heq
      exact h (congrArg some (eq_of_beq heq))
    rw [List.dropWhile_cons, if_neg hc]

theorem trivia_of_isBlanks {g : List Char} (h : IsBlanks g) : Trivia g := by
  induction g with
  | nil => exact .nil
  | cons c g ih =>
    rw [IsBlanks, List.forall_mem_cons] at h
    exact .blank h.1 (ih h.2)

/-- Blanks alone are a decoration too. -/
theorem spaced_of_isText {ls : List Lexeme} {text : List Char} (h : IsText ls text) :
    Spaced Trivia LastTrivia ls text := by
  induction h with
  | nil hg => exact .nil (.closed (trivia_of_isBlanks hg))
  | cons hg _ ih => exact .cons (trivia_of_isBlanks hg) ih

/-- A text of lexemes is no document of blanks. -/
theorem isBlankDocument_eq_false {ls : List Lexeme} {text : List Char}
    (hls : ∀ l ∈ ls, IsLexeme l) (hne : ls ≠ []) (h : IsText ls text) :
    isBlankDocument text = false := by
  rcases ls with _ | ⟨l, ls⟩
  · exact absurd rfl hne
  · have hfind := find?_isBlank hls h
    rw [List.forall_mem_cons] at hls
    obtain ⟨c, cs, rfl, -⟩ := hls.1.exists_cons
    have hmem : c ∈ text := List.mem_of_find?_eq_some hfind
    have hblank : Text.isBlank c = false := by simpa using List.find?_some hfind
    unfold isBlankDocument
    rw [List.all_eq_false]
    exact ⟨c, hmem, by simp [hblank]⟩

section

variable {xs ys : List Lexeme} (h : Relaxes .value xs ys)
include h

/-- The lexemes of a decorated text are left, but for the trailing commas. -/
theorem isText_toJson {s : List Char} (hs : IsDecorated ys s) : IsText xs (toJson s) := by
  obtain ⟨n, text, rfl, htext⟩ := hs
  have hdropped : Json.dropTrailing ys = xs := h.forgives.dropTrailing_eq
  unfold toJson
  rw [dropWhile_byteOrderMark (head?_ne_of_spaced h.isLexeme htext), ← hdropped]
  exact isText_stripTrailingCommas h.isLexeme (isText_stripComments h.isLexeme htext)

/-- Neither pass takes anything out of a text that is JSON. -/
theorem strip_eq_self {j : List Char} (hj : IsText xs j) :
    stripComments j = j ∧ stripTrailingCommas j = j := by
  have hdropped : Json.dropTrailing xs = xs := h.strict.forgives.dropTrailing_eq
  exact ⟨stripComments_eq_self h.strict.isLexeme hj,
    stripTrailingCommas_eq_self h.strict.isLexeme hdropped hj⟩

theorem toJson_eq_self {j : List Char} (hj : IsText xs j) : toJson j = j := by
  have hdropped : j.dropWhile (· == '\uFEFF') = j :=
    dropWhile_byteOrderMark (head?_ne_of_spaced h.strict.isLexeme (spaced_of_isText hj)) 0
  obtain ⟨hcomments, hcommas⟩ := strip_eq_self h hj
  rw [toJson, hdropped, hcomments, hcommas]

/-- What is left of a decorated text has the tokens of any text of the same lexemes. -/
theorem tokens_toJson {j s : List Char} (hj : IsText xs j) (hs : IsDecorated ys s) :
    (Json.tokens (toJson s)).map (·.token) = (Json.tokens j).map (·.token) := by
  obtain ⟨ts, hts⟩ := Json.exists_tokens h.strict.isLexeme h.isChain_apart
  rw [(hts _ (isText_toJson h hs)).tokens, (hts j hj).tokens]

end

end ModuleMap.Jsonc
