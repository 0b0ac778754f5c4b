import Mathlib.Data.List.TakeWhile
import ModuleMap.Proofs.Jsonc.Literals

/-!
# Code, string literals and comments

A text is cut into the characters of its code, its string literals and its comments.  The first pass
keeps all but the comments, and of these it keeps the line ends.

* `Jsonc.Chunk`, `Jsonc.chunks`, `Jsonc.render`: the parts of a text, and texts of them.
* `Jsonc.stripComments_eq_render`: the first pass in terms of the parts.
* `Jsonc.IsCut`, `Jsonc.isCut_chunks`: literals are cut off alike when comments are replaced.
-/

namespace ModuleMap.Jsonc

/-! ## The parts of a text -/

/-- A part of a text. -/
inductive Chunk where
  /-- A character outside string literals and comments. -/
  | code (c : Char)
  /-- A string literal with its quotes; at the end of a text the closing one may be missing. -/
  | literal (cs : List Char)
  /-- A comment with the characters that begin and end it, but for the line end after it. -/
  | comment (cs : List Char)
  deriving DecidableEq, Repr

/-- The rest of a block comment, up to the first star and slash, and what comes after it. -/
def splitBlock : List Char → List Char × List Char
  | '*' :: '/' :: cs => (['*', '/'], cs)
  | c :: cs => (c :: (splitBlock cs).1, (splitBlock cs).2)
  | [] => ([], [])

/-- The first part of a text and what comes after it. -/
def splitChunk : Char → List Char → Chunk × List Char
  | '"', cs => (.literal ('"' :: (splitLiteral cs).1), (splitLiteral cs).2)
  | '/', '/' :: cs => (.comment ('/' :: '/' :: cs.takeWhile (· ≠ '\n')), cs.dropWhile (· ≠ '\n'))
  | '/', '*' :: cs => (.comment ('/' :: '*' :: (splitBlock cs).1), (splitBlock cs).2)
  | c, cs => (.code c, cs)

/-- A part with its comment, if it is one, replaced. -/
def Chunk.render (f : List Char → List Char) : Chunk → List Char
  | .code c => [c]
  | .literal cs => cs
  | .comment cs => f cs

theorem splitBlock_append (cs : List Char) : (splitBlock cs).1 ++ (splitBlock cs).2 = cs := by
  fun_induction splitBlock cs with
  | case1 cs => rfl
  | case2 c cs _ ih => rw [List.cons_append, ih]
  | case3 => rfl

theorem splitChunk_append (c : Char) (cs : List Char) :
    (splitChunk c cs).1.render id ++ (splitChunk c cs).2 = c :: cs := by
  fun_cases splitChunk c cs with
  | case1 => exact congrArg ('"' :: ·) (splitLiteral_append cs)
  | case2 cs => exact congrArg ('/' :: '/' :: ·) List.takeWhile_append_dropWhile
  | case3 cs => exact congrArg ('/' :: '*' :: ·) (splitBlock_append cs)
  | case4 => rfl

theorem length_splitChunk_le (c : Char) (cs : List Char) :
    (splitChunk c cs).2.length ≤ cs.length := by
  have hlength := congrArg List.length (splitChunk_append c cs)
  have hne : (splitChunk c cs).1.render id ≠ [] := by
    fun_cases splitChunk c cs <;> simp [Chunk.render]
  have hpos := List.length_pos_of_ne_nil hne
  rw [List.length_append, List.length_cons] at hlength
  omega

/-- The parts of a text. -/
def chunks : List Char → List Chunk
  | [] => []
  | c :: cs => (splitChunk c cs).1 :: chunks (splitChunk c cs).2
termination_by s => s.length
decreasing_by exact Nat.lt_succ_of_le (length_splitChunk_le c cs)

@[simp] theorem chunks_nil : chunks [] = [] := by
  rw [chunks]

/-- The text of parts, with the comments replaced. -/
def render (f : List Char → List Char) (cs : List Chunk) : List Char :=
  cs.flatMap (Chunk.render f)

variable {f : List Char → List Char} {cs : List Chunk}

@[simp] theorem render_nil (f : List Char → List Char) : render f [] = [] := rfl

@[simp] theorem render_code (c : Char) (cs : List Chunk) :
    render f (.code c :: cs) = c :: render f cs := rfl

@[simp] theorem render_literal (l : List Char) (cs : List Chunk) :
    render f (.literal l :: cs) = l ++ render f cs := rfl

@[simp] theorem render_comment (l : List Char) (cs : List Chunk) :
    render f (.comment l :: cs) = f l ++ render f cs := rfl

/-- The parts of a text make up the text. -/
theorem render_id_chunks (s : List Char) : render id (chunks s) = s := by
  fun_induction chunks s with
  | case1 => rfl
  | case2 c cs ih =>
    show (splitChunk c cs).1.render id ++ render id _ = _
    rw [ih, splitChunk_append]

/-! ## Texts without comments -/

/-- The line ends in a text. -/
def lineEnds (cs : List Char) : List Char :=
  cs.filter (· = '\n')

/-- Of a comment that ends with the line nothing is left. -/
theorem stripFrom_lineComment_eq (cs : List Char) :
    stripFrom .lineComment cs = stripFrom .code (cs.dropWhile (· ≠ '\n')) := by
  induction cs with
  | nil => rfl
  | cons c cs ih =>
    rw [stripFrom_lineComment_cons]
    by_cases hc : c = '\n'
    · subst hc
      rfl
    · rw [if_neg hc, ih, List.dropWhile_cons_of_pos (by simpa using hc)]

/-- After a star only a slash matters. -/
theorem stripFrom_blockComment_star {cs : List Char} (h : cs.head? ≠ some '/') :
    stripFrom (.blockComment true) cs = stripFrom (.blockComment false) cs := by
  rcases cs with _ | ⟨c, cs⟩
  · rfl
  · have hc : c ≠ '/' := fun heq => h (congrArg some heq)
    simp [stripFrom_blockComment_cons, hc]

/-- Of a block comment its line ends are left. -/
theorem stripFrom_blockComment_eq (cs : List Char) :
    stripFrom (.blockComment false) cs =
      lineEnds (splitBlock cs).1 ++ stripFrom .code (splitBlock cs).2 := by
  fun_induction splitBlock cs with
  | case1 cs => rfl
  | case2 c cs hopen ih =>
    rw [stripFrom_blockComment_cons, if_neg (by simp)]
    by_cases hline : c = '\n'
    · subst hline
      rw [if_pos rfl, ih]
      rfl
    have hkept : lineEnds (c :: (splitBlock cs).1) = lineEnds (splitBlock cs).1 :=
      List.filter_cons_of_neg (by simpa using hline)
    rw [if_neg hline, hkept, ← ih]
    by_cases hstar : c = '*'
    · rw [decide_eq_true hstar]
      refine stripFrom_blockComment_star fun hslash => ?_
      obtain ⟨tail, rfl⟩ := List.head?_eq_some_iff.mp hslash
      exact hopen tail hstar rfl
    · rw [decide_eq_false hstar]
  | case3 => rfl

theorem stripFrom_splitChunk (c : Char) (cs : List Char) :
    stripFrom .code (c :: cs) =
      (splitChunk c cs).1.render lineEnds ++ stripFrom .code (splitChunk c cs).2 := by
  fun_cases splitChunk c cs with
  | case1 => exact congrArg ('"' :: ·) (pass_stripFrom.scan_splitLiteral (by simp) cs)
  | case2 cs =>
    have hnone : lineEnds ('/' :: '/' :: cs.takeWhile (· ≠ '\n')) = [] := by
      refine List.filter_eq_nil_iff.mpr (List.forall_mem_cons.mpr
        ⟨by simp, List.forall_mem_cons.mpr ⟨by simp, fun c hc => ?_⟩⟩)
      simpa using List.mem_takeWhile_imp hc
    show stripFrom .lineComment cs = lineEnds _ ++ _
    rw [hnone, stripFrom_lineComment_eq, List.nil_append]
  | case3 cs => exact stripFrom_blockComment_eq cs
  | case4 c cs hquote hline hblock =>
    show _ = c :: stripFrom .code cs
    rw [stripFrom_code_cons]
    by_cases hslash : c = '/'
    · subst hslash
      rcases cs with _ | ⟨d, cs⟩
      · rfl
      · have hline : d ≠ '/' := fun heq => hline cs rfl (by rw [heq])
        have hblock : d ≠ '*' := fun heq => hblock cs rfl (by rw [heq])
        rw [if_pos rfl, stripFrom_slash_cons, if_neg hline, if_neg hblock, stripFrom_code_cons,
          if_neg hline]
    · rw [if_neg hslash, Region.afterCode, if_neg hquote]

/-- A text without its comments has their line ends in their places. -/
theorem stripComments_eq_render (s : List Char) :
    stripComments s = render lineEnds (chunks s) := by
  unfold stripComments
  fun_induction chunks s with
  | case1 => rfl
  | case2 c cs ih =>
    rw [stripFrom_splitChunk, ih]
    rfl

/-! ## Literals among the parts -/

/-- Parts as a text is cut into them: what looks like a string literal is one, with what comes after
it as well. -/
inductive IsCut : List Chunk → Prop
  | nil : IsCut []
  | code {c : Char} {cs : List Chunk} (hc : c ≠ '"') (h : IsCut cs) : IsCut (.code c :: cs)
  | literal {l : List Char} {cs : List Chunk}
      (hl : ∀ f, splitLiteral (l ++ render f cs) = (l, render f cs)) (h : IsCut cs) :
      IsCut (.literal ('"' :: l) :: cs)
  | comment {l : List Char} {cs : List Chunk} (h : IsCut cs) : IsCut (.comment l :: cs)

theorem isCut_chunks (s : List Char) : IsCut (chunks s) := by
  fun_induction chunks s with
  | case1 => exact .nil
  | case2 c cs ih =>
    revert ih
    fun_cases splitChunk c cs with
    | case1 cs =>
      refine .literal fun f => splitLiteral_fst_append fun hlast => ?_
      rw [hlast, chunks_nil, render_nil]
    | case2 cs => exact .comment
    | case3 cs => exact .comment
    | case4 c cs hquote _ _ => exact .code hquote

end ModuleMap.Jsonc
