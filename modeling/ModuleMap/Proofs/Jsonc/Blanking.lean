import ModuleMap.Proofs.Json.Reading
import ModuleMap.Proofs.Jsonc.Chunks

/-!
# Comments as blanks

A comment is taken out of a text and nothing is put in its place but its line ends.  If a blank were
put there too, the same would be read, except where a comment without line ends stands between two
characters of numbers and words: these become neighbours, and may be one lexeme together.

The lexemes of a text that is read are found in its parts, and comments stand only between them;
that does not depend on what the comments are replaced by.

* `Jsonc.blankComments`: texts with blanks for comments.
* `Jsonc.Joins`, `Jsonc.Meets`: neighbours that a comment kept apart.
* `Jsonc.Reads`, `Jsonc.IsCut.reads`: the lexemes of parts.
* `Jsonc.readDocument_blankComments`: what is read from the two texts.
-/

namespace ModuleMap.Jsonc

open Json (Lexeme IsLexeme IsBlanks IsText bareChars)

variable {f : List Char → List Char} {cs : List Chunk}

/-- A text with a blank in the place of each comment, and the line ends of the comment after it. -/
def blankComments (s : List Char) : List Char :=
  render (fun l => ' ' :: lineEnds l) (chunks s)

example : blankComments "[1/*\n*/,2]// \"\n\"//\"".toList = "[1 \n,2] \n\"//\"".toList := by
  decide +kernel

/-! ## Neighbours that a comment keeps apart -/

/-- Between two characters of numbers and words there are comments, and nothing is put in their
place. -/
def Meets (f : List Char → List Char) (cs : List Chunk) : Prop :=
  ∃ x ∈ bareChars, ∃ y ∈ bareChars, ∃ comments ≠ [], (∀ l ∈ comments, f l = []) ∧
    .code x :: (comments.map .comment ++ [.code y]) <:+: cs

/-- In a text there are two characters of numbers and words with comments between them, and nothing
else; none of the comments has a line end. -/
def Joins (s : List Char) : Prop :=
  ∃ x ∈ bareChars, ∃ y ∈ bareChars, ∃ comments ≠ [], (∀ l ∈ comments, '\n' ∉ l) ∧
    .code x :: (comments.map .comment ++ [.code y]) <:+: chunks s

theorem not_meets_of_suffix {cs' : List Chunk} (h : ¬Meets f cs) (hcs : cs' <:+ cs) :
    ¬Meets f cs' := by
  rintro ⟨x, hx, y, hy, comments, hne, hnone, hinfix⟩
  exact h ⟨x, hx, y, hy, comments, hne, hnone, hinfix.trans hcs.isInfix⟩

theorem meets_lineEnds_iff (s : List Char) : Meets lineEnds (chunks s) ↔ Joins s := by
  have hnone : ∀ l : List Char, lineEnds l = [] ↔ '\n' ∉ l := by
    intro l
    simp [lineEnds, List.forall_mem_ne']
  unfold Meets Joins
  simp only [hnone]

theorem not_meets_of_ne_nil (hf : ∀ l, f l ≠ []) : ¬Meets f cs := by
  rintro ⟨x, -, y, -, comments, hne, hnone, -⟩
  obtain ⟨l, hl⟩ := List.exists_mem_of_ne_nil comments hne
  exact hf l (hnone l hl)

/-! ## Lexemes in chunks -/

/-- The chunks of a lexeme. -/
def spelled : Lexeme → List Chunk
  | '"' :: cs => [.literal ('"' :: cs)]
  | l => l.map .code

theorem spelled_eq_map {l : Lexeme} (h : l.head? ≠ some '"') : spelled l = l.map .code := by
  unfold spelled
  split
  · exact absurd rfl h
  · rfl

theorem render_map_code (l : List Char) (cs : List Chunk) :
    render f (l.map .code ++ cs) = l ++ render f cs := by
  induction l with
  | nil => rfl
  | cons c l ih => rw [List.map_cons, List.cons_append, render_code, ih, List.cons_append]

theorem render_spelled (l : Lexeme) (cs : List Chunk) :
    render f (spelled l ++ cs) = l ++ render f cs := by
  by_cases h : l.head? = some '"'
  · obtain ⟨r, rfl⟩ := List.head?_eq_some_iff.mp h
    rfl
  · rw [spelled_eq_map h, render_map_code]

/-- The chunks of a text with the given lexemes, and comments and blanks between them only. -/
inductive Reads : List Lexeme → List Chunk → Prop
  | nil : Reads [] []
  | comment {ls : List Lexeme} {cs : List Chunk} (l : List Char) (h : Reads ls cs) :
      Reads ls (.comment l :: cs)
  | blank {ls : List Lexeme} {cs : List Chunk} {c : Char} (hc : Json.isBlank c = true)
      (h : Reads ls cs) : Reads ls (.code c :: cs)
  | lexeme {l : Lexeme} {ls : List Lexeme} {cs : List Chunk} (hl : IsLexeme l)
      (h : Reads ls cs) : Reads (l :: ls) (spelled l ++ cs)

variable {ls : List Lexeme}

/-- With blanks for the comments the lexemes are a text. -/
theorem Reads.isText (hf : ∀ l, IsBlanks (f l)) (h : Reads ls cs) : IsText ls (render f cs) := by
  have hnone : IsBlanks [] := by simp [IsBlanks]
  induction h with
  | nil => exact .nil hnone
  | comment l _ ih => exact Json.isText_blanks_append (hf l) ih
  | blank hc _ ih => exact Json.isText_blanks_append (List.forall_mem_singleton.mpr hc) ih
  | lexeme _ _ ih =>
    rw [render_spelled]
    exact .cons hnone ih

/-! ## Characters that meet -/

theorem isBlank_of_mem_bareChars {c : Char} (h : c ∈ bareChars) : Json.isBlank c = false := by
  have hall : ∀ c ∈ bareChars, Json.isBlank c = false := List.all_iff_forall_prop.mp (by decide)
  exact hall c h

/-- A lexeme with a character of numbers and words is no mark. -/
theorem ne_mark_of_mem {l : Lexeme} {x : Char} (hx : x ∈ bareChars) (hl : x ∈ l) :
    ¬∃ c ∈ Json.marks, l = [c] := by
  have hmarks : ∀ c ∈ Json.marks, c ∉ bareChars := List.all_iff_forall_prop.mp (by decide)
  rintro ⟨c, hc, rfl⟩
  rw [List.mem_singleton] at hl
  exact hmarks c hc (hl ▸ hx)

variable {comments : List (List Char)} {x y : Char}

/-- After comments the next character of code is one of the next lexeme. -/
theorem Reads.exists_mem_head? (hy : y ∈ bareChars) (h : Reads ls cs)
    (hcs : comments.map .comment ++ [.code y] <+: cs) : ∃ m ∈ ls.head?, y ∈ m := by
  induction h generalizing comments with
  | nil => simp at hcs
  | comment l _ ih =>
    rcases comments with _ | ⟨_, comments⟩
    · simp at hcs
    · exact ih (List.cons_prefix_cons.mp hcs).2
  | blank hc _ _ =>
    rcases comments with _ | ⟨_, comments⟩
    · obtain rfl : y = _ := by simpa using hcs
      rw [isBlank_of_mem_bareChars hy] at hc
      cases hc
    · simp at hcs
  | @lexeme l ls cs hl _ _ =>
    refine ⟨l, rfl, ?_⟩
    by_cases hquote : l.head? = some '"'
    · obtain ⟨r, rfl⟩ := List.head?_eq_some_iff.mp hquote
      rcases comments <;> simp [spelled] at hcs
    · obtain ⟨c, r, rfl, -⟩ := hl.exists_cons
      rw [spelled_eq_map hquote] at hcs
      rcases comments with _ | ⟨_, comments⟩
      · obtain rfl : y = c := by simpa using hcs
        exact List.mem_cons_self
      · simp at hcs

/-- A comment that comes right after a character of a lexeme comes after the lexeme. -/
theorem infix_or_of_map_code {l : List Char} (hne : comments ≠ [])
    (h : .code x :: (comments.map .comment ++ [.code y]) <:+: l.map .code ++ cs) :
    .code x :: (comments.map .comment ++ [.code y]) <:+: cs ∨
      x ∈ l ∧ comments.map .comment ++ [.code y] <+: cs := by
  induction l with
  | nil => exact Or.inl h
  | cons c l ih =>
    rw [List.map_cons, List.cons_append, List.infix_cons_iff] at h
    rcases h with hprefix | hinfix
    · obtain ⟨hx, hafter⟩ := List.cons_prefix_cons.mp hprefix
      obtain rfl : x = c := Chunk.code.inj hx
      rcases l with _ | ⟨d, l⟩
      · exact Or.inr ⟨List.mem_cons_self, hafter⟩
      · obtain ⟨body, comments, rfl⟩ := List.exists_cons_of_ne_nil hne
        simp at hafter
    · exact (ih hinfix).imp_right fun h => ⟨List.mem_cons_of_mem c h.1, h.2⟩

/-- In a text whose lexemes have marks between them no comment stands in a lexeme. -/
theorem Reads.not_meets (h : Reads ls cs) (hbeside : ls.IsChain Json.Beside) : ¬Meets f cs := by
  rintro ⟨x, hx, y, hy, comments, hne, -, hinfix⟩
  induction h with
  | nil => simp at hinfix
  | comment l _ ih =>
    rcases List.infix_cons_iff.mp hinfix with hprefix | hinfix
    · simp at hprefix
    · exact ih hbeside hinfix
  | blank hc _ ih =>
    rcases List.infix_cons_iff.mp hinfix with hprefix | hinfix
    · obtain rfl : x = _ := Chunk.code.inj (List.cons_prefix_cons.mp hprefix).1
      rw [isBlank_of_mem_bareChars hx] at hc
      cases hc
    · exact ih hbeside hinfix
  | @lexeme l ls cs _ h ih =>
    obtain ⟨hhead, htail⟩ := List.isChain_cons.mp hbeside
    by_cases hquote : l.head? = some '"'
    · obtain ⟨r, rfl⟩ := List.head?_eq_some_iff.mp hquote
      rcases List.infix_cons_iff.mp hinfix with hprefix | hinfix
      · simp at hprefix
      · exact ih htail hinfix
    rw [spelled_eq_map hquote] at hinfix
    rcases infix_or_of_map_code hne hinfix with hinfix | ⟨hxl, hprefix⟩
    · exact ih htail hinfix
    · obtain ⟨m, hm, hym⟩ := h.exists_mem_head? hy hprefix
      exact (hhead m hm).elim (ne_mark_of_mem hx hxl) (ne_mark_of_mem hy hym)

/-! ## Lexemes of a text of chunks -/

variable {text : List Char}

/-- Before a character of a number or word there can be comments only, of which nothing is left. -/
theorem IsCut.exists_of_render_eq_cons (hcut : IsCut cs) (hf : ∀ l, IsBlanks (f l))
    (hx : x ∈ bareChars) (h : render f cs = x :: text) :
    ∃ (comments : List (List Char)) (cs' : List Chunk),
      cs = comments.map .comment ++ .code x :: cs' ∧ (∀ l ∈ comments, f l = []) ∧
        render f cs' = text ∧ IsCut cs' := by
  induction hcut with
  | nil => cases h
  | @code c cs _ hcut _ =>
    obtain ⟨rfl, rfl⟩ := List.cons.inj h
    exact ⟨[], cs, rfl, by simp, rfl, hcut⟩
  | literal _ _ _ =>
    obtain ⟨rfl, -⟩ := List.cons.inj h
    exact absurd hx (by decide)
  | @comment l cs hcut ih =>
    rw [render_comment] at h
    rcases hl : f l with _ | ⟨b, g⟩
    · rw [hl] at h
      obtain ⟨comments, cs', rfl, hnone, hcs'⟩ := ih h
      exact ⟨l :: comments, cs', rfl, List.forall_mem_cons.mpr ⟨hl, hnone⟩, hcs'⟩
    · rw [hl] at h
      obtain ⟨rfl, -⟩ := List.cons.inj h
      have hblank := hf l b (by simp [hl])
      rw [isBlank_of_mem_bareChars hx] at hblank
      cases hblank

/-- The rest of a number or word is code if no character of it meets another. -/
theorem IsCut.exists_of_render_eq_append {w : List Char} (hcut : IsCut cs)
    (hf : ∀ l, IsBlanks (f l)) (hx : x ∈ bareChars) (hw : ∀ c ∈ w, c ∈ bareChars)
    (hmeets : ¬Meets f (.code x :: cs)) (h : render f cs = w ++ text) :
    ∃ cs', cs = w.map .code ++ cs' ∧ render f cs' = text ∧ IsCut cs' := by
  induction w generalizing x cs with
  | nil => exact ⟨cs, rfl, h, hcut⟩
  | cons y w ih =>
    rw [List.forall_mem_cons] at hw
    obtain ⟨comments, cs', rfl, hnone, hcs', hcut'⟩ := hcut.exists_of_render_eq_cons hf hw.1 h
    have hcomments : comments = [] := by
      by_contra hne
      refine hmeets ⟨x, hx, y, hw.1, comments, hne, hnone, [], cs', ?_⟩
      simp
    subst hcomments
    obtain ⟨cs'', rfl, htext, hcut''⟩ :=
      ih hcut' hw.1 hw.2 (not_meets_of_suffix hmeets (List.suffix_cons _ _)) hcs'
    exact ⟨cs'', rfl, htext, hcut''⟩

/-- The rest of a lexeme that is no string is code. -/
theorem IsCut.exists_of_code {w : List Char} (hcut : IsCut cs) (hf : ∀ l, IsBlanks (f l))
    (hx : x ≠ '"') (hl : IsLexeme (x :: w)) (hmeets : ¬Meets f (.code x :: cs))
    (h : render f cs = w ++ text) :
    ∃ cs', cs = w.map .code ++ cs' ∧ render f cs' = text ∧ IsCut cs' := by
  rcases hl.string_or with ⟨r, hstring, -⟩ | ⟨d, -, hmark⟩ | hbare
  · exact absurd (List.cons.inj hstring).1 hx
  · obtain ⟨-, rfl⟩ := List.cons.inj hmark
    exact ⟨cs, rfl, h, hcut⟩
  · rw [List.forall_mem_cons] at hbare
    exact hcut.exists_of_render_eq_append hf hbare.1 hbare.2 hmeets h

/-- The lexemes of a text of chunks are found in the chunks, if no comment stands in one. -/
theorem IsCut.reads (hcut : IsCut cs) (hf : ∀ l, IsBlanks (f l)) (hmeets : ¬Meets f cs)
    (hls : ∀ l ∈ ls, IsLexeme l) (h : IsText ls (render f cs)) : Reads ls cs := by
  -- A lexeme may take many chunks, so the induction is on their number.
  induction hn : cs.length using Nat.strong_induction_on generalizing ls cs with
  | _ n ih =>
  cases hcut with
  | nil =>
    obtain rfl := h.eq_nil hls
    exact .nil
  | @comment l cs hcut =>
    have hrest := Json.isText_of_isBlanks_append hls (hf l) h
    have hmeets' := not_meets_of_suffix hmeets (List.suffix_cons _ _)
    exact .comment l (ih _ (by simp [← hn]) hcut hmeets' hls hrest rfl)
  | @code c cs hc hcut =>
    rw [render_code] at h
    have hmeets' := not_meets_of_suffix hmeets (List.suffix_cons _ _)
    cases hblank : Json.isBlank c with
    | true =>
      have hrest := Json.isText_of_isBlanks_append hls (List.forall_mem_singleton.mpr hblank) h
      exact .blank hblank (ih _ (by simp [← hn]) hcut hmeets' hls hrest rfl)
    | false =>
      obtain ⟨w, ls', rest, rfl, htext, hrest⟩ := h.exists_of_cons hls hblank
      rw [List.forall_mem_cons] at hls
      obtain ⟨cs', rfl, rfl, hcut'⟩ := hcut.exists_of_code hf hc hls.1 hmeets htext
      have hshorter : cs'.length < n := by
        rw [← hn, List.length_cons, List.length_append]
        omega
      have hmeets'' := not_meets_of_suffix hmeets' (List.suffix_append _ _)
      have hlexeme := Reads.lexeme hls.1 (ih _ hshorter hcut' hmeets'' hls.2 hrest rfl)
      have hspelled : spelled (c :: w) = (c :: w).map .code :=
        spelled_eq_map fun heq => hc (Option.some.inj heq)
      rw [hspelled] at hlexeme
      exact hlexeme
  | @literal l cs hl hcut =>
    rw [render_literal, List.cons_append] at h
    obtain ⟨w, ls', rest, rfl, htext, hrest⟩ := h.exists_of_cons hls rfl
    rw [List.forall_mem_cons] at hls
    -- The literal and the string end at the same quote.
    have hsplit := hl f
    rw [htext, splitLiteral_stringRest hls.1.isStringRest] at hsplit
    obtain ⟨rfl, rfl⟩ := Prod.mk.inj hsplit
    have hmeets' := not_meets_of_suffix hmeets (List.suffix_cons _ _)
    exact .lexeme hls.1 (ih _ (by simp [← hn]) hcut hmeets' hls.2 hrest rfl)

/-! ## What is read -/

theorem isBlanks_lineEnds (l : List Char) : IsBlanks (lineEnds l) := by
  intro c hc
  have hline : c = '\n' := by simpa using (List.mem_filter.mp hc).2
  rw [hline]
  rfl

/-- With blanks for the comments the same is read as without the comments, unless there is a comment
whose neighbours are joined; then nothing is read. -/
theorem readDocument_blankComments {α : Type} {read : Json.Reader α} (hread : Json.Sound read)
    (s : List Char) (a : α) :
    Json.readDocument read (blankComments s) = .ok a ↔
      Json.readDocument read (stripComments s) = .ok a ∧ ¬Joins s := by
  have hblanks : ∀ l, IsBlanks (' ' :: lineEnds l) := fun l =>
    List.forall_mem_cons.mpr ⟨rfl, isBlanks_lineEnds l⟩
  rw [stripComments_eq_render, ← meets_lineEnds_iff]
  constructor
  · intro h
    obtain ⟨ls, htext, hvalue⟩ := hread.exists_isText h
    have hreads : Reads ls (chunks s) := (isCut_chunks s).reads hblanks
      (not_meets_of_ne_nil fun l => List.cons_ne_nil _ _) hvalue.isLexeme htext
    have hstripped := hreads.isText isBlanks_lineEnds
    exact ⟨(hvalue.readDocument_eq_ok_iff htext hstripped).mp h,
      hreads.not_meets hvalue.isChain_beside⟩
  · rintro ⟨h, hmeets⟩
    obtain ⟨ls, htext, hvalue⟩ := hread.exists_isText h
    have hreads := (isCut_chunks s).reads isBlanks_lineEnds hmeets hvalue.isLexeme htext
    exact (hvalue.readDocument_eq_ok_iff htext (hreads.isText hblanks)).mp h

end ModuleMap.Jsonc
