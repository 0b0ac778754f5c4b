import ModuleMap.Proofs.Jsonc.Decoration

/-!
# String literals of a text

Where a string literal ends depends on its quotes and backslashes alone, whether it is a string of
JSON or not.  Both passes keep what is in it, and go on outside it.

* `Jsonc.splitLiteral`: the rest of a literal and what comes after it.
* `Jsonc.splitLiteral_fst_append`, `Jsonc.splitLiteral_stringRest`: where a literal is cut off.
* `Jsonc.Pass.scan_splitLiteral`: what a pass does with a literal.
-/

namespace ModuleMap.Jsonc

open Json (IsStringRest)

/-- The rest of a string literal, up to its closing quote, and what comes after it. -/
def splitLiteral : List Char → List Char × List Char
  | '\\' :: c :: cs => ('\\' :: c :: (splitLiteral cs).1, (splitLiteral cs).2)
  | '"' :: cs => (['"'], cs)
  | c :: cs => (c :: (splitLiteral cs).1, (splitLiteral cs).2)
  | [] => ([], [])

theorem splitLiteral_cons {c : Char} (hquote : c ≠ '"') (hslash : c ≠ '\\') (cs : List Char) :
    splitLiteral (c :: cs) = (c :: (splitLiteral cs).1, (splitLiteral cs).2) := by
  rw [splitLiteral]
  · exact fun d ds heq => absurd heq hslash
  · exact hquote

/-- The two parts of a text make up the text. -/
theorem splitLiteral_append (cs : List Char) : (splitLiteral cs).1 ++ (splitLiteral cs).2 = cs := by
  fun_induction splitLiteral cs with
  | case1 c cs ih => rw [List.cons_append, List.cons_append, ih]
  | case2 cs => rfl
  | case3 c cs _ _ ih => rw [List.cons_append, ih]
  | case4 => rfl

/-- A literal is cut off alike before any other text; at the end of a text it may lack its closing
quote, and then nothing can come after it. -/
theorem splitLiteral_fst_append {cs rest : List Char} (h : (splitLiteral cs).2 = [] → rest = []) :
    splitLiteral ((splitLiteral cs).1 ++ rest) = ((splitLiteral cs).1, rest) := by
  fun_induction splitLiteral cs with
  | case1 c cs ih => simp only [List.cons_append, splitLiteral, ih h]
  | case2 cs => rfl
  | case3 c cs hescape hquote ih =>
    by_cases hslash : c = '\\'
    · subst hslash
      rcases cs with _ | ⟨d, cs⟩
      · rw [h rfl]
        rfl
      · exact absurd rfl (hescape d cs rfl)
    · rw [List.cons_append, splitLiteral_cons hquote hslash, ih h]
  | case4 =>
    rw [h rfl]
    rfl

/-- A string of JSON ends where the literal does. -/
theorem splitLiteral_stringRest {r : List Char} (h : IsStringRest r) (rest : List Char) :
    splitLiteral (r ++ rest) = (r, rest) := by
  induction h with
  | close => rfl
  | char _ hquote hslash _ ih => rw [List.cons_append, splitLiteral_cons hquote hslash, ih]
  | escape _ _ ih => simp only [List.cons_append, splitLiteral, ih]
  | @unit a b c d cs hunit _ ih =>
    have hdigits : ∀ x ∈ Json.hexDigits, x ≠ '"' ∧ x ≠ '\\' :=
      List.all_iff_forall_prop.mp (by decide)
    have hkept : ∀ x ∈ [a, b, c, d], ∀ cs,
        splitLiteral (x :: cs) = (x :: (splitLiteral cs).1, (splitLiteral cs).2) :=
      fun x hx => splitLiteral_cons (hdigits x (hunit x hx)).1 (hdigits x (hunit x hx)).2
    simp only [List.cons_append, splitLiteral, hkept a (by simp), hkept b (by simp),
      hkept c (by simp), hkept d (by simp), ih]

/-- A pass keeps a literal and goes on after it. -/
theorem Pass.scan_splitLiteral {σ : Type} {scan : σ → List Char → List Char}
    {outside inside escaped : σ} {special : Char} (h : Pass scan outside inside escaped special)
    (hnil : ∀ s ∈ [outside, inside, escaped], scan s [] = []) (cs : List Char) :
    scan inside cs = (splitLiteral cs).1 ++ scan outside (splitLiteral cs).2 := by
  simp only [List.forall_mem_cons] at hnil
  obtain ⟨houtside, hinside, hescaped, -⟩ := hnil
  fun_induction splitLiteral cs with
  | case1 c cs ih => rw [h.backslash, h.escape, ih, List.cons_append, List.cons_append]
  | case2 cs => exact h.closes cs
  | case3 c cs hescape hquote ih =>
    by_cases hslash : c = '\\'
    · subst hslash
      rcases cs with _ | ⟨d, cs⟩
      · rw [h.backslash, hescaped]
        simp [splitLiteral, houtside]
      · exact absurd rfl (hescape d cs rfl)
    · rw [h.char hquote hslash, ih, List.cons_append]
  | case4 => rw [hinside, houtside, List.append_nil]

end ModuleMap.Jsonc
