import Mathlib.Data.Bool.AllAny
import Mathlib.Data.List.Chain
import ModuleMap.Json.Token
import ModuleMap.Text.Blank

/-!
# The grammar of JSON

A JSON text is a list of lexemes with blanks before, between and after them.  The lexemes are
spelled out here as JSON defines them, not as this library reads them: strings with their escapes,
numbers, the three words and the punctuation.

The lexemes of a value come in two versions.  One is that of JSON; the other may have one more comma
after the last item of an array and after the last member of an object.  Both are built up together,
so that a trailing comma is the only difference there can be.

* `Json.IsString`, `Json.IsNumber`, `Json.IsScalar`, `Json.IsLexeme`: the lexemes.
* `Json.Relaxes`: the lexemes of a value, without and with trailing commas.
* `Json.Apart`, `Json.Beside`, `Json.Relaxes.isChain_beside`: what can come after a lexeme.
* `Json.Spaced`, `Json.IsText`: texts of lexemes.
* `Json.weave`, `Json.quoted`: such texts and strings, from their parts.
-/

namespace ModuleMap.Json

/-! ## Lexemes -/

/-- The text of one token. -/
abbrev Lexeme := List Char

def decimalDigits : List Char := "0123456789".toList

def hexDigits : List Char := "0123456789abcdefABCDEF".toList

/-- What may come after a backslash and is not the beginning of a code unit. -/
def escapable : List Char := "\"\\/bfnrt".toList

/-- The words that are values. -/
def words : List Lexeme := ["null".toList, "true".toList, "false".toList]

/-- The characters that are lexemes of their own. -/
def marks : List Char := ['\x7b', '\x7d', '[', ']', ':', ',']

/-- The rest of a string after its opening quote, with the closing quote. -/
inductive IsStringRest : List Char → Prop
  | close : IsStringRest ['"']
  | char {c : Char} {cs : List Char} (hc : ' ' ≤ c) (hquote : c ≠ '"') (hslash : c ≠ '\\')
      (h : IsStringRest cs) : IsStringRest (c :: cs)
  | escape {e : Char} {cs : List Char} (he : e ∈ escapable) (h : IsStringRest cs) :
      IsStringRest ('\\' :: e :: cs)
  | unit {a b c d : Char} {cs : List Char} (hunit : ∀ x ∈ [a, b, c, d], x ∈ hexDigits)
      (h : IsStringRest cs) : IsStringRest ('\\' :: 'u' :: a :: b :: c :: d :: cs)

/-- A string between quotes. -/
def IsString (l : Lexeme) : Prop :=
  ∃ rest, l = '"' :: rest ∧ IsStringRest rest

/-- One digit or more. -/
def IsDigits (ds : List Char) : Prop :=
  ds ≠ [] ∧ ∀ d ∈ ds, d ∈ decimalDigits

/-- The digits before the point: a zero, or digits of which the first is no zero. -/
inductive IsWhole : List Char → Prop
  | zero : IsWhole ['0']
  | digits {d : Char} {ds : List Char} (h : IsDigits (d :: ds)) (hd : d ≠ '0') : IsWhole (d :: ds)

/-- The point and the digits after it, if there are any. -/
inductive IsFraction : List Char → Prop
  | none : IsFraction []
  | digits {ds : List Char} (h : IsDigits ds) : IsFraction ('.' :: ds)

/-- The exponent, if there is one. -/
inductive IsExponent : List Char → Prop
  | none : IsExponent []
  | unsigned {e : Char} {ds : List Char} (he : e ∈ ['e', 'E']) (h : IsDigits ds) :
      IsExponent (e :: ds)
  | signed {e sign : Char} {ds : List Char} (he : e ∈ ['e', 'E']) (hsign : sign ∈ ['+', '-'])
      (h : IsDigits ds) : IsExponent (e :: sign :: ds)

/-- A number. -/
inductive IsNumber : Lexeme → Prop
  | plain {w f e : List Char} (hw : IsWhole w) (hf : IsFraction f) (he : IsExponent e) :
      IsNumber (w ++ f ++ e)
  | negative {w f e : List Char} (hw : IsWhole w) (hf : IsFraction f) (he : IsExponent e) :
      IsNumber ('-' :: (w ++ f ++ e))

/-- A value of one lexeme. -/
inductive IsScalar : Lexeme → Prop
  | string {l : Lexeme} (h : IsString l) : IsScalar l
  | number {l : Lexeme} (h : IsNumber l) : IsScalar l
  | word {l : Lexeme} (h : l ∈ words) : IsScalar l

/-- A lexeme of JSON. -/
inductive IsLexeme : Lexeme → Prop
  | scalar {l : Lexeme} (h : IsScalar l) : IsLexeme l
  | mark {c : Char} (h : c ∈ marks) : IsLexeme [c]

/-! ## Characters of lexemes -/

/-- The characters with which lexemes begin. -/
def initials : List Char := decimalDigits ++ ['"', '-', 'n', 't', 'f'] ++ marks

/-- The characters of numbers and words. -/
def bareChars : List Char := decimalDigits ++ "+-.eEnultrfas".toList

theorem IsDigits.mem_bareChars {ds : List Char} (h : IsDigits ds) : ∀ c ∈ ds, c ∈ bareChars :=
  fun c hc => List.mem_append_left _ (h.2 c hc)

theorem IsWhole.isDigits {w : List Char} (h : IsWhole w) : IsDigits w := by
  cases h with
  | zero => exact ⟨by simp, List.forall_mem_singleton.mpr (by decide)⟩
  | digits h _ => exact h

theorem IsFraction.mem_bareChars {f : List Char} (h : IsFraction f) : ∀ c ∈ f, c ∈ bareChars := by
  cases h with
  | none => simp
  | digits h => exact List.forall_mem_cons.mpr ⟨by decide, h.mem_bareChars⟩

theorem IsExponent.mem_bareChars {e : List Char} (h : IsExponent e) : ∀ c ∈ e, c ∈ bareChars := by
  -- Only the listed characters are tried, not all that there are.
  have hletter : ∀ c ∈ ['e', 'E'], c ∈ bareChars := List.all_iff_forall_prop.mp (by decide)
  have hsigns : ∀ c ∈ ['+', '-'], c ∈ bareChars := List.all_iff_forall_prop.mp (by decide)
  cases h with
  | none => simp
  | unsigned he h => exact List.forall_mem_cons.mpr ⟨hletter _ he, h.mem_bareChars⟩
  | signed he hsign h =>
    exact List.forall_mem_cons.mpr
      ⟨hletter _ he, List.forall_mem_cons.mpr ⟨hsigns _ hsign, h.mem_bareChars⟩⟩

theorem IsNumber.mem_bareChars {l : Lexeme} (h : IsNumber l) : ∀ c ∈ l, c ∈ bareChars := by
  have hparts : ∀ {w f e : List Char}, IsWhole w → IsFraction f → IsExponent e →
      ∀ c ∈ w ++ f ++ e, c ∈ bareChars := by
    intro w f e hw hf he
    exact List.forall_mem_append.mpr
      ⟨List.forall_mem_append.mpr ⟨hw.isDigits.mem_bareChars, hf.mem_bareChars⟩, he.mem_bareChars⟩
  cases h with
  | plain hw hf he => exact hparts hw hf he
  | negative hw hf he => exact List.forall_mem_cons.mpr ⟨by decide, hparts hw hf he⟩

/-- A lexeme is a string, or a mark, or made of the characters of numbers and words. -/
theorem IsLexeme.string_or {l : Lexeme} (h : IsLexeme l) :
    IsString l ∨ (∃ c ∈ marks, l = [c]) ∨ ∀ c ∈ l, c ∈ bareChars := by
  cases h with
  | mark h => exact Or.inr (Or.inl ⟨_, h, rfl⟩)
  | scalar h =>
    cases h with
    | string h => exact Or.inl h
    | number h => exact Or.inr (Or.inr h.mem_bareChars)
    | word h =>
      have hwords : ∀ c ∈ words.flatten, c ∈ bareChars := List.all_iff_forall_prop.mp (by decide)
      exact Or.inr (Or.inr fun c hc => hwords c (List.mem_flatten_of_mem h hc))

/-- A lexeme that begins with a mark is that mark. -/
theorem IsLexeme.eq_nil_of_mark {c : Char} {cs : List Char} (h : IsLexeme (c :: cs))
    (hc : c ∈ marks) : cs = [] := by
  have hmarks : ∀ c ∈ marks, c ≠ '"' ∧ c ∉ bareChars := List.all_iff_forall_prop.mp (by decide)
  obtain ⟨hquote, hnot⟩ := hmarks c hc
  rcases h.string_or with ⟨rest, hstring, -⟩ | ⟨d, -, hmark⟩ | hbare
  · exact absurd (List.cons.inj hstring).1 hquote
  · exact (List.cons.inj hmark).2
  · exact absurd (hbare c List.mem_cons_self) hnot

/-- A lexeme that begins with a quote is a string. -/
theorem IsLexeme.isStringRest {cs : List Char} (h : IsLexeme ('"' :: cs)) : IsStringRest cs := by
  rcases h.string_or with ⟨rest, hstring, hrest⟩ | ⟨d, hd, hmark⟩ | hbare
  · obtain ⟨-, rfl⟩ := List.cons.inj hstring
    exact hrest
  · exact absurd ((List.cons.inj hmark).1 ▸ hd) (by decide)
  · exact absurd (hbare '"' List.mem_cons_self) (by decide)

/-- A number begins with a digit or a minus sign. -/
theorem IsNumber.exists_cons {l : Lexeme} (h : IsNumber l) :
    ∃ c cs, l = c :: cs ∧ (c = '-' ∨ c ∈ decimalDigits) := by
  cases h with
  | negative _ _ _ => exact ⟨_, _, rfl, Or.inl rfl⟩
  | @plain w f e hw hf he =>
    have hdigits := hw.isDigits
    rcases w with _ | ⟨d, ds⟩
    · exact absurd rfl hdigits.1
    · exact ⟨d, ds ++ f ++ e, rfl, Or.inr (hdigits.2 d List.mem_cons_self)⟩

/-- A lexeme begins with one of the initials. -/
theorem IsLexeme.exists_cons {l : Lexeme} (h : IsLexeme l) :
    ∃ c cs, l = c :: cs ∧ c ∈ initials := by
  cases h with
  | mark h => exact ⟨_, [], rfl, List.mem_append_right _ h⟩
  | scalar h =>
    cases h with
    | string h =>
      obtain ⟨rest, rfl, -⟩ := h
      exact ⟨_, rest, rfl, by decide⟩
    | number h =>
      obtain ⟨c, cs, rfl, rfl | hc⟩ := h.exists_cons
      · exact ⟨_, cs, rfl, by decide⟩
      · exact ⟨c, cs, rfl, List.mem_append_left _ (List.mem_append_left _ hc)⟩
    | word h =>
      have hwords : ∀ l ∈ words, l.head?.any (· ∈ initials) = true := by decide
      have hl := hwords l h
      rcases l with _ | ⟨c, cs⟩
      · cases hl
      · exact ⟨c, cs, rfl, by simpa using hl⟩

/-! ## Values -/

/-- The parts of a value. -/
inductive Part where
  | value
  /-- The items of an array that is not empty. -/
  | items
  /-- The members of an object that is not empty. -/
  | members
  deriving DecidableEq, Repr

/-- The lexemes of a part as JSON has them, and the lexemes of the same part when commas may be
trailing. -/
inductive Relaxes : Part → List Lexeme → List Lexeme → Prop
  | scalar {l : Lexeme} (h : IsScalar l) : Relaxes .value [l] [l]
  | emptyArray : Relaxes .value [['['], [']']] [['['], [']']]
  | array {xs ys commas : List Lexeme} (h : Relaxes .items xs ys)
      (hcommas : commas = [] ∨ commas = [[',']]) :
      Relaxes .value (['['] :: (xs ++ [[']']])) (['['] :: (ys ++ (commas ++ [[']']])))
  | emptyObject : Relaxes .value [['\x7b'], ['\x7d']] [['\x7b'], ['\x7d']]
  | object {xs ys commas : List Lexeme} (h : Relaxes .members xs ys)
      (hcommas : commas = [] ∨ commas = [[',']]) :
      Relaxes .value (['\x7b'] :: (xs ++ [['\x7d']])) (['\x7b'] :: (ys ++ (commas ++ [['\x7d']])))
  | item {xs ys : List Lexeme} (h : Relaxes .value xs ys) : Relaxes .items xs ys
  | moreItems {xs ys xs' ys' : List Lexeme} (h : Relaxes .value xs ys)
      (h' : Relaxes .items xs' ys') : Relaxes .items (xs ++ [','] :: xs') (ys ++ [','] :: ys')
  | member {key : Lexeme} {xs ys : List Lexeme} (hkey : IsString key) (h : Relaxes .value xs ys) :
      Relaxes .members (key :: [':'] :: xs) (key :: [':'] :: ys)
  | moreMembers {key : Lexeme} {xs ys xs' ys' : List Lexeme} (hkey : IsString key)
      (h : Relaxes .value xs ys) (h' : Relaxes .members xs' ys') :
      Relaxes .members (key :: [':'] :: (xs ++ [','] :: xs')) (key :: [':'] :: (ys ++ [','] :: ys'))

/-- A value without trailing commas is one with them that has none. -/
theorem Relaxes.strict {p : Part} {xs ys : List Lexeme} (h : Relaxes p xs ys) :
    Relaxes p xs xs := by
  induction h with
  | scalar h => exact .scalar h
  | emptyArray => exact .emptyArray
  | array _ _ ih => exact .array ih (Or.inl rfl)
  | emptyObject => exact .emptyObject
  | object _ _ ih => exact .object ih (Or.inl rfl)
  | item _ ih => exact .item ih
  | moreItems _ _ ih ih' => exact .moreItems ih ih'
  | member hkey _ ih => exact .member hkey ih
  | moreMembers hkey _ _ ih ih' => exact .moreMembers hkey ih ih'

theorem Relaxes.ne_nil {p : Part} {xs ys : List Lexeme} (h : Relaxes p xs ys) : xs ≠ [] := by
  induction h with
  | item _ ih => exact ih
  | _ => simp

/-- What is between two marks, with or without a comma after it. -/
theorem isLexeme_bracketed {c d : Char} (hc : c ∈ marks) (hd : d ∈ marks) {ls commas : List Lexeme}
    (hls : ∀ l ∈ ls, IsLexeme l) (hcommas : commas = [] ∨ commas = [[',']]) :
    ∀ l ∈ [c] :: (ls ++ (commas ++ [[d]])), IsLexeme l := by
  rw [List.forall_mem_cons, List.forall_mem_append, List.forall_mem_append,
    List.forall_mem_singleton]
  refine ⟨.mark hc, hls, ?_, .mark hd⟩
  rcases hcommas with rfl | rfl
  · simp
  · exact List.forall_mem_singleton.mpr (.mark (by decide))

theorem Relaxes.isLexeme {p : Part} {xs ys : List Lexeme} (h : Relaxes p xs ys) :
    ∀ l ∈ ys, IsLexeme l := by
  have hmark : ∀ c ∈ marks, IsLexeme [c] := fun c hc => .mark hc
  have hempty : ∀ l ∈ ([] : List Lexeme), IsLexeme l := by simp
  induction h with
  | scalar h => exact List.forall_mem_singleton.mpr (.scalar h)
  | emptyArray => exact isLexeme_bracketed (by decide) (by decide) hempty (Or.inl rfl)
  | array _ hcommas ih => exact isLexeme_bracketed (by decide) (by decide) ih hcommas
  | emptyObject => exact isLexeme_bracketed (by decide) (by decide) hempty (Or.inl rfl)
  | object _ hcommas ih => exact isLexeme_bracketed (by decide) (by decide) ih hcommas
  | item _ ih => exact ih
  | moreItems _ _ ih ih' =>
    rw [List.forall_mem_append, List.forall_mem_cons]
    exact ⟨ih, hmark _ (by decide), ih'⟩
  | member hkey _ ih =>
    rw [List.forall_mem_cons, List.forall_mem_cons]
    exact ⟨.scalar (.string hkey), hmark _ (by decide), ih⟩
  | moreMembers hkey _ _ ih ih' =>
    rw [List.forall_mem_cons, List.forall_mem_cons, List.forall_mem_append, List.forall_mem_cons]
    exact ⟨.scalar (.string hkey), hmark _ (by decide), ih, hmark _ (by decide), ih'⟩

/-! ## Neighbours -/

/-- Scalars begin with none of the marks. -/
theorem IsScalar.ne_mark {l : Lexeme} (h : IsScalar l) {c : Char} (hc : c ∈ marks) : l ≠ [c] := by
  rintro rfl
  cases h with
  | string h =>
    obtain ⟨rest, heq, -⟩ := h
    have hquote : c = '"' := congrArg (·.headD ' ') heq
    exact absurd (hquote ▸ hc) (by decide)
  | number h =>
    obtain ⟨d, ds, heq, hd⟩ := h.exists_cons
    obtain rfl : c = d := congrArg (·.headD ' ') heq
    rcases hd with rfl | hd
    · exact absurd hc (by decide)
    · have hapart : ∀ d ∈ decimalDigits, d ∉ marks := List.all_iff_forall_prop.mp (by decide)
      exact hapart c hd hc
  | word h =>
    have hwords : ∀ c ∈ marks, [c] ∉ words := List.all_iff_forall_prop.mp (by decide)
    exact hwords c hc h

/-- Whether the second of two lexemes can be told from the first without a blank between them: a
number does not end by itself. -/
def Apart (l m : Lexeme) : Prop :=
  IsNumber l → ∃ c ∈ marks, m = [c]

/-- One of two lexemes is a mark. -/
def Beside (l m : Lexeme) : Prop :=
  (∃ c ∈ marks, l = [c]) ∨ ∃ c ∈ marks, m = [c]

theorem Beside.apart {l m : Lexeme} (h : Beside l m) : Apart l m := by
  intro hnumber
  rcases h with ⟨c, hc, rfl⟩ | hmark
  · exact absurd rfl ((IsScalar.number hnumber).ne_mark hc)
  · exact hmark

theorem isChain_beside_cons_mark {c : Char} (hc : c ∈ marks) {ms : List Lexeme}
    (h : ms.IsChain Beside) : ([c] :: ms).IsChain Beside :=
  List.isChain_cons.mpr ⟨fun _ _ => Or.inl ⟨c, hc, rfl⟩, h⟩

/-- Of two neighbours in lists with a mark between them one is a mark if it is so in both. -/
theorem isChain_beside_append {ls ms : List Lexeme} {c : Char} (hc : c ∈ marks)
    (h : ls.IsChain Beside) (h' : ms.IsChain Beside) : (ls ++ [c] :: ms).IsChain Beside := by
  refine List.isChain_append.mpr ⟨h, isChain_beside_cons_mark hc h', ?_⟩
  intro l _ m hm
  rw [List.head?_cons, Option.mem_some] at hm
  exact Or.inr ⟨c, hc, hm.symm⟩

/-- Of two neighbours in a value one is a mark. -/
theorem Relaxes.isChain_beside {p : Part} {xs ys : List Lexeme} (h : Relaxes p xs ys) :
    xs.IsChain Beside := by
  have hbracket : ∀ {c d : Char} {xs : List Lexeme}, c ∈ marks → d ∈ marks → xs.IsChain Beside →
      ([c] :: (xs ++ [[d]])).IsChain Beside := fun hc hd hxs =>
    isChain_beside_cons_mark hc (isChain_beside_append hd hxs .nil)
  have hmember : ∀ {key : Lexeme} {xs : List Lexeme}, xs.IsChain Beside →
      (key :: [':'] :: xs).IsChain Beside := fun {key} _ hxs =>
    isChain_beside_append (by decide) (List.isChain_singleton key) hxs
  induction h with
  | scalar _ => exact List.isChain_singleton _
  | emptyArray => exact hbracket (by decide) (by decide) .nil
  | array _ _ ih => exact hbracket (by decide) (by decide) ih
  | emptyObject => exact hbracket (by decide) (by decide) .nil
  | object _ _ ih => exact hbracket (by decide) (by decide) ih
  | item _ ih => exact ih
  | moreItems _ _ ih ih' => exact isChain_beside_append (by decide) ih ih'
  | member _ _ ih => exact hmember ih
  | moreMembers _ _ _ ih ih' => exact hmember (isChain_beside_append (by decide) ih ih')

theorem Relaxes.isChain_apart {p : Part} {xs ys : List Lexeme} (h : Relaxes p xs ys) :
    xs.IsChain Apart :=
  h.isChain_beside.imp fun _ _ => Beside.apart

/-! ## Texts -/

/-- A text of lexemes, with a gap before each of them and something after the last. -/
inductive Spaced (gap last : List Char → Prop) : List Lexeme → List Char → Prop
  | nil {g : List Char} (hg : last g) : Spaced gap last [] g
  | cons {g : List Char} {l : Lexeme} {ls : List Lexeme} {text : List Char} (hg : gap g)
      (h : Spaced gap last ls text) : Spaced gap last (l :: ls) (g ++ l ++ text)

/-- Any number of JSON blanks. -/
def IsBlanks (g : List Char) : Prop :=
  ∀ c ∈ g, isBlank c = true

/-- A text of lexemes, with blanks before, between and after them. -/
def IsText (ls : List Lexeme) (text : List Char) : Prop :=
  Spaced IsBlanks IsBlanks ls text

/-- Blanks can be put before a text. -/
theorem isText_blanks_append {ls : List Lexeme} {g text : List Char} (hg : IsBlanks g)
    (h : IsText ls text) : IsText ls (g ++ text) := by
  cases h with
  | nil hg' => exact .nil (List.forall_mem_append.mpr ⟨hg, hg'⟩)
  | cons hg' h =>
    rw [← List.append_assoc, ← List.append_assoc]
    exact .cons (List.forall_mem_append.mpr ⟨hg, hg'⟩) h

/-- The text of lexemes with the given gaps before them and the given end. -/
def weave (parts : List (List Char × Lexeme)) (g : List Char) : List Char :=
  parts.foldr (fun part text => part.1 ++ part.2 ++ text) g

theorem spaced_weave {gap last : List Char → Prop} {parts : List (List Char × Lexeme)}
    {g : List Char} (hparts : ∀ part ∈ parts, gap part.1) (hg : last g) :
    Spaced gap last (parts.map Prod.snd) (weave parts g) := by
  induction parts with
  | nil => exact .nil hg
  | cons part parts ih =>
    rw [List.forall_mem_cons] at hparts
    exact .cons hparts.1 (ih hparts.2)

/-- A string between quotes, without escapes. -/
def quoted (s : String) : Lexeme :=
  '"' :: (s.toList ++ ['"'])

theorem isString_quoted {s : String}
    (h : s.toList.all fun c => decide (' ' ≤ c ∧ c ≠ '"' ∧ c ≠ '\\')) : IsString (quoted s) := by
  refine ⟨_, rfl, ?_⟩
  replace h := List.all_iff_forall_prop.mp h
  generalize s.toList = cs at h
  induction cs with
  | nil => exact .close
  | cons c cs ih =>
    rw [List.forall_mem_cons] at h
    exact .char h.1.1 h.1.2.1 h.1.2.2 (ih h.2)

end ModuleMap.Json
