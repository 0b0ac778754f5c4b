import Mathlib.Data.List.Forall2
import ModuleMap.Jsonc.Document
import ModuleMap.Json.Token
import ModuleMap.Proofs.Jsonc.Chunks

/-!
# Lines stay where they are

What is left of a text is read in place of the text, so the lines of the two are to correspond.  For
that it is enough that characters are left out and none of them ends a line: then each line that is
left has characters of the line with the same number, in their order, and no others.

* `Jsonc.lines`, `Jsonc.length_lines`: the lines of a text.
* `Jsonc.IsThinned`, `Jsonc.IsThinned.forall₂_lines`: texts of which characters within lines are
  left out.
* `Jsonc.KeepsLine`, `Jsonc.IsThinned.keepsLine`: what is left of one line.
* `Jsonc.isThinned_stripComments`, `Jsonc.isThinned_stripTrailingCommas`, `Jsonc.isThinned_toJson`:
  what the passes leave.
-/

namespace ModuleMap.Jsonc

variable {r s t : List Char} {c : Char}

/-! ## Lines -/

/-- The lines of a text, without their ends. -/
def lines (s : List Char) : List (List Char) :=
  s.splitOn '\n'

theorem lines_lineEnd (s : List Char) : lines ('\n' :: s) = [] :: lines s := by
  rw [lines, List.splitOn_cons_eq_if_modifyHead]
  rfl

theorem lines_cons (hc : c ≠ '\n') (s : List Char) :
    lines (c :: s) = (lines s).modifyHead (c :: ·) := by
  rw [lines, List.splitOn_cons_eq_if_modifyHead, if_neg (by simpa using hc)]
  rfl

theorem length_lines (s : List Char) : (lines s).length = Json.lineCount s := by
  induction s with
  | nil => rfl
  | cons c s ih =>
    unfold Json.lineCount at ih ⊢
    by_cases hc : c = '\n'
    · rw [hc, lines_lineEnd, List.length_cons, ih, List.count_cons_self, Nat.add_assoc]
    · rw [lines_cons hc, List.length_modifyHead, ih, List.count_cons_of_ne hc]

/-! ## Texts with characters left out -/

/-- Characters are left out of a text, and none of them ends a line. -/
def IsThinned (t s : List Char) : Prop :=
  t.Sublist s ∧ t.count '\n' = s.count '\n'

theorem isThinned_refl (s : List Char) : IsThinned s s :=
  ⟨.refl s, rfl⟩

theorem IsThinned.trans (hr : IsThinned r t) (ht : IsThinned t s) : IsThinned r s :=
  ⟨hr.1.trans ht.1, hr.2.trans ht.2⟩

/-- One more character is left out. -/
theorem IsThinned.skip (h : IsThinned t s) (hc : c ≠ '\n') : IsThinned t (c :: s) :=
  ⟨h.1.cons c, by rw [List.count_cons_of_ne hc, h.2]⟩

theorem IsThinned.append {t' s' : List Char} (h : IsThinned t s) (h' : IsThinned t' s') :
    IsThinned (t ++ t') (s ++ s') :=
  ⟨h.1.append h'.1, by rw [List.count_append, List.count_append, h.2, h'.2]⟩

theorem forall₂_modifyHead {α β : Type} {R : α → β → Prop} {f : α → α} {g : β → β} {xs : List α}
    {ys : List β} (h : List.Forall₂ R xs ys) (hhead : ∀ {x y}, R x y → R (f x) (g y)) :
    List.Forall₂ R (xs.modifyHead f) (ys.modifyHead g) := by
  cases h with
  | nil => exact .nil
  | cons hxy hmore => exact .cons (hhead hxy) hmore

/-- Lines correspond: there are as many as before, and each has characters of the line with its
number, in their order. -/
theorem IsThinned.forall₂_lines (h : IsThinned t s) :
    List.Forall₂ List.Sublist (lines t) (lines s) := by
  obtain ⟨hsublist, hcount⟩ := h
  induction hsublist with
  | slnil => exact .cons (.refl []) .nil
  | @cons t s c hsublist ih =>
    -- A line end that was left out would be missing from the count.
    have hc : c ≠ '\n' := by
      rintro rfl
      have hle := hsublist.count_le '\n'
      rw [List.count_cons_self] at hcount
      omega
    rw [List.count_cons_of_ne hc] at hcount
    rw [lines_cons hc]
    have hlines := forall₂_modifyHead (ih hcount) (f := id) fun hline => hline.cons c
    rwa [List.modifyHead_id] at hlines
  | @cons_cons t s c hsublist ih =>
    by_cases hc : c = '\n'
    · subst hc
      rw [List.count_cons_self, List.count_cons_self, Nat.add_right_cancel_iff] at hcount
      rw [lines_lineEnd, lines_lineEnd]
      exact .cons (.refl []) (ih hcount)
    · rw [List.count_cons_of_ne hc, List.count_cons_of_ne hc] at hcount
      rw [lines_cons hc, lines_cons hc]
      exact forall₂_modifyHead (ih hcount) fun hline => hline.cons_cons c

/-- What stands on a line of one text is left of the same line of another.  Lines are counted from
one. -/
def KeepsLine (n : ℕ) (t s : List Char) : Prop :=
  1 ≤ n ∧ ∃ left line, (lines t)[n - 1]? = some left ∧ (lines s)[n - 1]? = some line ∧
    left.Sublist line

theorem IsThinned.keepsLine (h : IsThinned t s) {n : ℕ} (hfirst : 1 ≤ n)
    (hlast : n ≤ Json.lineCount t) : KeepsLine n t s := by
  have hlines := h.forall₂_lines
  rw [← length_lines] at hlast
  have ht : n - 1 < (lines t).length := by omega
  have hs : n - 1 < (lines s).length := hlines.length_eq ▸ ht
  exact ⟨hfirst, _, _, List.getElem?_eq_getElem ht, List.getElem?_eq_getElem hs,
    hlines.get ht hs⟩

/-! ## The passes -/

/-- Of a comment no line end is left out. -/
theorem isThinned_lineEnds (l : List Char) : IsThinned (lineEnds l) l :=
  ⟨List.filter_sublist, List.count_filter (by simp)⟩

theorem isThinned_render (cs : List Chunk) : IsThinned (render lineEnds cs) (render id cs) := by
  induction cs with
  | nil => exact isThinned_refl []
  | cons part cs ih =>
    cases part with
    | code c => exact (isThinned_refl [c]).append ih
    | literal l => exact (isThinned_refl l).append ih
    | comment l => exact (isThinned_lineEnds l).append ih

theorem isThinned_stripComments (s : List Char) : IsThinned (stripComments s) s := by
  have h := isThinned_render (chunks s)
  rwa [← stripComments_eq_render, render_id_chunks] at h

theorem isThinned_dropCommasFrom (q : Quoting) (s : List Char) :
    IsThinned (dropCommasFrom q s) s := by
  induction s generalizing q with
  | nil => exact isThinned_refl []
  | cons c s ih =>
    rw [dropCommasFrom_cons]
    split
    · next hdrop => exact (ih q).skip (by rw [hdrop.2.1]; decide)
    · exact (isThinned_refl [c]).append (ih _)

theorem isThinned_stripTrailingCommas (s : List Char) : IsThinned (stripTrailingCommas s) s :=
  isThinned_dropCommasFrom .outside s

theorem isThinned_dropWhile {p : Char → Bool} (hp : p '\n' = false) (s : List Char) :
    IsThinned (s.dropWhile p) s := by
  induction s with
  | nil => exact isThinned_refl []
  | cons c s ih =>
    rw [List.dropWhile_cons]
    split
    · next hc =>
      refine ih.skip ?_
      rintro rfl
      cases hp.symm.trans hc
    · exact isThinned_refl (c :: s)

/-- What is read of a document has the lines of the document. -/
theorem isThinned_toJson (s : List Char) : IsThinned (toJson s) s :=
  (isThinned_stripTrailingCommas _).trans <| (isThinned_stripComments _).trans <|
    isThinned_dropWhile (by decide) s

end ModuleMap.Jsonc
