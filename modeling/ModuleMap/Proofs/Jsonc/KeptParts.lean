import ModuleMap.Proofs.Jsonc.Chunks

/-!
# The parts that are kept

A text is cut into its parts from the left, so what is taken out of it could make new parts of what
is left: a slash that is kept could come before another one, and a quote in a comment could begin a
literal.  That does not happen.  A slash that is kept is followed by what is no slash and no star,
and this is kept too, unless it is a comma before a blank or a closing bracket.  So the parts of
what is left are parts of the text, and of the comments only their line ends are among them.

* `Jsonc.BeginsComment`, `Jsonc.splitChunk_cases`: how the first part of a text begins.
* `Jsonc.chunks_stripComments`: the parts after the first pass.
* `Jsonc.chunks_stripTrailingCommas`: the parts after the second one.
* `Jsonc.stripComments_eq_self_iff`: the texts that the first pass leaves as they are.
* `Jsonc.stripComments_stripped`: the first pass after both passes.
-/

namespace ModuleMap.Jsonc

variable {c : Char} {cs rest : List Char}

/-! ## The first part of a text -/

/-- A comment begins with this character. -/
def BeginsComment (c : Char) (cs : List Char) : Prop :=
  c = '/' ∧ (cs.head? = some '/' ∨ cs.head? = some '*')

/-- The first part is a literal, a comment or a character by itself. -/
theorem splitChunk_cases (c : Char) (cs : List Char) :
    (c = '"' ∧
      splitChunk c cs = (.literal ('"' :: (splitLiteral cs).1), (splitLiteral cs).2)) ∨
    (BeginsComment c cs ∧ ∃ l rest, splitChunk c cs = (.comment l, rest)) ∨
    (c ≠ '"' ∧ ¬BeginsComment c cs ∧ splitChunk c cs = (.code c, cs)) := by
  fun_cases splitChunk c cs with
  | case1 => exact Or.inl ⟨rfl, rfl⟩
  | case2 => exact Or.inr (Or.inl ⟨⟨rfl, Or.inl rfl⟩, _, _, rfl⟩)
  | case3 => exact Or.inr (Or.inl ⟨⟨rfl, Or.inr rfl⟩, _, _, rfl⟩)
  | case4 c cs hquote hline hblock =>
    refine Or.inr (Or.inr ⟨hquote, ?_, rfl⟩)
    rintro ⟨hslash, hhead | hhead⟩
    · obtain ⟨tail, rfl⟩ := List.head?_eq_some_iff.mp hhead
      exact hline tail hslash rfl
    · obtain ⟨tail, rfl⟩ := List.head?_eq_some_iff.mp hhead
      exact hblock tail hslash rfl

theorem chunks_code (hquote : c ≠ '"') (hcomment : ¬BeginsComment c cs) :
    chunks (c :: cs) = .code c :: chunks cs := by
  rw [chunks]
  rcases splitChunk_cases c cs with ⟨rfl, -⟩ | ⟨hbegins, -⟩ | ⟨-, -, heq⟩
  · exact absurd rfl hquote
  · exact absurd hbegins hcomment
  · rw [heq]

/-- A literal is cut off alike before any other text. -/
theorem chunks_literal_append (h : (splitLiteral cs).2 = [] → rest = []) :
    chunks ('"' :: (splitLiteral cs).1 ++ rest) =
      .literal ('"' :: (splitLiteral cs).1) :: chunks rest := by
  rw [List.cons_append, chunks, splitChunk, splitLiteral_fst_append h]

theorem chunks_lineEnds_append (l rest : List Char) :
    chunks (lineEnds l ++ rest) = (lineEnds l).map .code ++ chunks rest := by
  have hlines : ∀ c ∈ lineEnds l, c = '\n' := fun c hc => by simpa using (List.mem_filter.mp hc).2
  generalize lineEnds l = ends at hlines ⊢
  induction ends with
  | nil => rfl
  | cons c ends ih =>
    rw [List.forall_mem_cons] at hlines
    obtain ⟨rfl, hlines⟩ := hlines
    rw [List.cons_append, chunks_code (by decide) fun h => absurd h.1 (by decide), ih hlines]
    rfl

/-! ## After the first pass -/

/-- What is left of a part: of a comment its line ends. -/
def Chunk.uncommented : Chunk → List Chunk
  | .comment l => (lineEnds l).map .code
  | part => [part]

/-- No comment begins where none has begun, since the character after a slash is kept. -/
theorem not_beginsComment_stripComments (h : ¬BeginsComment c cs) :
    ¬BeginsComment c (stripComments cs) := by
  rintro ⟨rfl, hhead⟩
  cases cs with
  | nil => simp [stripComments] at hhead
  | cons d cs =>
    have hd : d ≠ '/' := fun heq => h ⟨rfl, Or.inl (congrArg some heq)⟩
    rw [stripComments, stripFrom_code_cons, if_neg hd] at hhead
    exact h ⟨rfl, hhead⟩

/-- The parts of a text without its comments are those of the text, with line ends for the
comments. -/
theorem chunks_stripComments (s : List Char) :
    chunks (stripComments s) = (chunks s).flatMap Chunk.uncommented := by
  fun_induction chunks s with
  | case1 => exact chunks_nil
  | case2 c cs ih =>
    have hsplit : stripComments (c :: cs) =
        (splitChunk c cs).1.render lineEnds ++ stripComments (splitChunk c cs).2 :=
      stripFrom_splitChunk c cs
    rw [hsplit, List.flatMap_cons, ← ih]
    rcases splitChunk_cases c cs with ⟨rfl, heq⟩ | ⟨-, l, rest, heq⟩ | ⟨hquote, hcomment, heq⟩
    · rw [heq]
      exact chunks_literal_append fun hlast => by rw [hlast]; rfl
    · rw [heq]
      exact chunks_lineEnds_append l _
    · rw [heq]
      exact chunks_code hquote (not_beginsComment_stripComments hcomment)

/-- The first pass leaves no comment. -/
theorem comment_notMem_chunks_stripComments (s l : List Char) :
    .comment l ∉ chunks (stripComments s) := by
  rw [chunks_stripComments, List.mem_flatMap]
  rintro ⟨part, -, hpart⟩
  cases part <;> simp [Chunk.uncommented] at hpart

/-- The first pass leaves a text as it is if and only if the text has no comment. -/
theorem stripComments_eq_self_iff {s : List Char} :
    stripComments s = s ↔ ∀ l, .comment l ∉ chunks s := by
  constructor
  · intro h l
    rw [← h]
    exact comment_notMem_chunks_stripComments s l
  · intro h
    have hkept : ∀ part ∈ chunks s, part.render lineEnds = part.render id := by
      intro part hpart
      cases part with
      | comment l => exact absurd hpart (h l)
      | code | literal => rfl
    rw [stripComments_eq_render, render, List.flatMap_congr hkept]
    exact render_id_chunks s

/-! ## After the second pass -/

/-- No comment begins where a comma is dropped, since it is followed by a blank or by what closes
something. -/
theorem not_beginsComment_dropCommasFrom (h : ¬BeginsComment c cs) :
    ¬BeginsComment c (dropCommasFrom .outside cs) := by
  rintro ⟨rfl, hhead⟩
  cases cs with
  | nil => simp at hhead
  | cons d cs =>
    rw [dropCommasFrom_cons] at hhead
    split at hhead
    · next hdrop =>
      have hnext := fun c hc => isBlank_or_closes_of_closesNext hdrop.2.2 (c := c) hc
      rcases hhead with hhead | hhead
      · exact absurd (hnext '/' hhead) (by decide)
      · exact absurd (hnext '*' hhead) (by decide)
    · exact h ⟨rfl, hhead⟩

/-- In a text without comments the second pass takes out parts, and makes none. -/
theorem chunks_stripTrailingCommas {s : List Char} (h : ∀ l, .comment l ∉ chunks s) :
    (chunks (stripTrailingCommas s)).Sublist (chunks s) := by
  unfold stripTrailingCommas
  fun_induction chunks s with
  | case1 => rw [dropCommasFrom_nil, chunks_nil]
  | case2 c cs ih =>
    have ih := ih fun l hl => h l (List.mem_cons_of_mem _ hl)
    rcases splitChunk_cases c cs with ⟨rfl, heq⟩ | ⟨-, l, rest, heq⟩ | ⟨hquote, hcomment, heq⟩
    · have hkept : dropCommasFrom .outside ('"' :: cs) =
          '"' :: (splitLiteral cs).1 ++ dropCommasFrom .outside (splitLiteral cs).2 :=
        congrArg ('"' :: ·) (pass_dropCommasFrom.scan_splitLiteral (by simp) cs)
      rw [heq] at ih ⊢
      rw [hkept, chunks_literal_append fun hlast => by rw [hlast]; rfl]
      exact ih.cons_cons _
    · rw [heq] at h
      exact absurd List.mem_cons_self (h l)
    · rw [heq] at ih ⊢
      rw [dropCommasFrom_cons]
      split
      · exact ih.cons _
      · rw [Quoting.after, if_neg hquote,
          chunks_code hquote (not_beginsComment_dropCommasFrom hcomment)]
        exact ih.cons_cons _

/-! ## After both passes -/

/-- **No comment comes back.**  The parts of a text without its comments are those of the text, with
line ends for the comments, and when its trailing commas are taken out, too, only parts are lost.
So there is no comment among them, and the first pass changes nothing after itself and nothing after
the second one. -/
theorem stripComments_stripped (s : List Char) :
    stripComments (stripComments s) = stripComments s ∧
      stripComments (stripTrailingCommas (stripComments s)) =
        stripTrailingCommas (stripComments s) ∧
      (∀ l, .comment l ∉ chunks (stripComments s) ∧
        .comment l ∉ chunks (stripTrailingCommas (stripComments s))) ∧
      chunks (stripComments s) = (chunks s).flatMap Chunk.uncommented ∧
      (chunks (stripTrailingCommas (stripComments s))).Sublist (chunks (stripComments s)) := by
  have hfirst : ∀ l, .comment l ∉ chunks (stripComments s) := comment_notMem_chunks_stripComments s
  have hparts := chunks_stripTrailingCommas hfirst
  have hboth : ∀ l, .comment l ∉ chunks (stripTrailingCommas (stripComments s)) := fun l hl =>
    hfirst l (hparts.subset hl)
  exact ⟨stripComments_eq_self_iff.mpr hfirst, stripComments_eq_self_iff.mpr hboth,
    fun l => ⟨hfirst l, hboth l⟩, chunks_stripComments s, hparts⟩

end ModuleMap.Jsonc
