import ModuleMap.Proofs.Path.Joining
import ModuleMap.Proofs.Path.Text

/-!
# Names that are settled

Settling takes back names until no `..` has a name before it.  What is left is a run of `..`, none
at all below the root, and then names that lead down; and what has this shape is left as it is.  So
names can be settled in part: those before others once more from the same start, and those after
others as if they started nowhere, since a `..` that they keep is still there to be used.

* `Path.IsSettled`: the shape of what is left, with `Path.IsSettled.push` for one step and
  `Path.isSettled_settle` for all of them.
* `Path.settle_eq_self_iff`: what is left as it is.
* `Path.settle_settle_append`, `Path.settle_append_settle`: names settled in part.
* `Path.isAbsolute_written`, `Path.names_written`, `Path.endsWithSlash_written`: what is read off
  the bytes that are written for names.
-/

namespace ModuleMap.Path

variable {absolute closed : Bool} {ns ss : List Segment}

/-! ## The shape of what is left -/

/-- A run of `..`, which there is only where the start is relative, and then names that are none. -/
def IsSettled (absolute : Bool) (ns : List Segment) : Prop :=
  ∃ ups down, ns = List.replicate ups dotDot ++ down ∧ dotDot ∉ down ∧ (absolute = true → ups = 0)

/-- The last segment is put on what the others leave. -/
theorem settle_concat (absolute : Bool) (ss : List Segment) (s : Segment) :
    settle absolute (ss ++ [s]) = (push absolute (settle absolute ss).reverse s).reverse := by
  unfold settle
  rw [List.foldl_append, List.reverse_reverse]
  rfl

/-- One more segment keeps the shape. -/
theorem IsSettled.push (h : IsSettled absolute ns) (s : Segment) :
    IsSettled absolute (push absolute ns.reverse s).reverse := by
  obtain ⟨ups, down, rfl, hdown, hups⟩ := h
  unfold Path.push
  by_cases hs : s = dotDot
  · rw [if_pos hs]
    rcases List.eq_nil_or_concat down with rfl | ⟨init, last, rfl⟩
    · -- Nothing leads down yet, so the `..` is one more in the run, or is lost at the root.
      rw [List.append_nil, List.reverse_replicate]
      rcases ups with _ | ups
      · cases absolute with
        | true => exact ⟨0, [], rfl, List.not_mem_nil, fun _ => rfl⟩
        | false => exact ⟨1, [], rfl, List.not_mem_nil, fun h => absurd h Bool.false_ne_true⟩
      · refine ⟨ups + 2, [], ?_, List.not_mem_nil, fun h => absurd (hups h) (Nat.succ_ne_zero _)⟩
        rw [List.replicate_succ]
        simp only [if_true]
        rw [← List.replicate_succ, ← List.replicate_succ, List.reverse_replicate, List.append_nil]
    · rw [List.concat_eq_append, List.mem_append, not_or, List.mem_singleton] at hdown
      refine ⟨ups, init, ?_, hdown.1, hups⟩
      simp [Ne.symm hdown.2]
  · rw [if_neg hs]
    refine ⟨ups, down ++ [s], by simp, ?_, hups⟩
    rw [List.mem_append, not_or, List.mem_singleton]
    exact ⟨hdown, Ne.symm hs⟩

/-- Settling leaves names of this shape. -/
theorem isSettled_settle (absolute : Bool) (ss : List Segment) :
    IsSettled absolute (settle absolute ss) := by
  induction ss using List.reverseRecOn with
  | nil => exact ⟨0, [], rfl, List.not_mem_nil, fun _ => rfl⟩
  | append_singleton ss s ih =>
    rw [settle_concat]
    exact ih.push s

/-- Above a relative start all `..` stay. -/
theorem settle_replicate (n : ℕ) :
    settle false (List.replicate n dotDot) = List.replicate n dotDot := by
  induction n with
  | zero => rfl
  | succ n ih =>
    have hpush : push false (List.replicate n dotDot) dotDot = List.replicate (n + 1) dotDot := by
      cases n <;> rfl
    rw [List.replicate_succ', settle_concat, ih, List.reverse_replicate, hpush,
      List.reverse_replicate, List.replicate_succ']

/-- Names of this shape are left as they are, and no others are. -/
theorem settle_eq_self_iff : settle absolute ns = ns ↔ IsSettled absolute ns := by
  constructor
  · intro h
    rw [← h]
    exact isSettled_settle absolute ns
  · rintro ⟨ups, down, rfl, hdown, hups⟩
    rw [settle_append _ hdown]
    cases absolute with
    | true => rw [hups rfl, List.replicate_zero, settle_nil]
    | false => rw [settle_replicate]

/-! ## Settling in part -/

/-- Names that are settled from nowhere lead from any stack where the names themselves lead. -/
theorem foldl_push_settle (absolute : Bool) (stack ss : List Segment) :
    (settle false ss).foldl (push absolute) stack = ss.foldl (push absolute) stack := by
  induction ss using List.reverseRecOn with
  | nil => rfl
  | append_singleton ss s ih =>
    rw [settle_concat, List.foldl_append, List.foldl_cons, List.foldl_nil, ← ih]
    by_cases hs : s = dotDot
    · subst hs
      rcases List.eq_nil_or_concat (settle false ss) with hnil | ⟨init, last, hlast⟩
      · rw [hnil]
        rfl
      · rw [hlast, List.concat_eq_append, List.reverse_append]
        by_cases hdotDot : last = dotDot
        · simp [push, hdotDot]
        · -- A name and the `..` after it leave any stack as it was.
          simp [push, hdotDot]
    · simp [push, hs]

/-- Names can be settled before others follow them. -/
theorem settle_settle_append (absolute : Bool) (ss rest : List Segment) :
    settle absolute (settle absolute ss ++ rest) = settle absolute (ss ++ rest) := by
  have hself : settle absolute (settle absolute ss) = settle absolute ss :=
    settle_eq_self_iff.mpr (isSettled_settle absolute ss)
  have hstack : (settle absolute ss).foldl (push absolute) [] = ss.foldl (push absolute) [] :=
    List.reverse_inj.mp hself
  unfold settle at hstack ⊢
  rw [List.foldl_append, List.foldl_append, hstack]

/-- Names can be settled by themselves before they follow others. -/
theorem settle_append_settle (absolute : Bool) (ss rest : List Segment) :
    settle absolute (ss ++ settle false rest) = settle absolute (ss ++ rest) := by
  have hrest := foldl_push_settle absolute (ss.foldl (push absolute) []) rest
  unfold settle at hrest ⊢
  rw [List.foldl_append, List.foldl_append, hrest]

/-! ## The bytes of names -/

theorem written_of_ne_nil (absolute closed : Bool) (hne : ns ≠ []) :
    written absolute closed ns =
      (ofBody (startOf absolute) ns).bytes ++ if closed then [slash] else [] := by
  obtain ⟨n, ns, rfl⟩ := List.exists_cons_of_ne_nil hne
  cases absolute <;> rfl

/-- The root has the same bytes with a slash at its end and without one. -/
theorem written_or (absolute closed : Bool) (ns : List Segment) :
    written absolute (closed || (absolute && ns.isEmpty)) ns = written absolute closed ns := by
  rcases ns with _ | ⟨n, ns⟩
  · cases absolute with
    | true => rfl
    | false => rw [Bool.false_and, Bool.or_false]
  · rw [List.isEmpty_cons, Bool.and_false, Bool.or_false]

section

variable (h : ∀ s ∈ ns, IsNaming s)
include h

theorem isAbsolute_written (absolute closed : Bool) :
    isAbsolute ⟨written absolute closed ns⟩ = absolute := by
  by_cases hne : ns = []
  · subst hne
    cases absolute <;> cases closed <;> rfl
  · have hanchor := (anchor_ofBody (startOf_ne_here absolute) h hne).1
    have hstart : (ofBody (startOf absolute) ns).isAbsolute = absolute := by
      rw [Bool.eq_iff_iff, ← anchor_eq_root_iff, hanchor]
      cases absolute <;> decide
    have hbytes : (ofBody (startOf absolute) ns).bytes ≠ [] := by
      cases absolute with
      | true => exact List.cons_ne_nil _ _
      | false => exact bytes_ofSegments_ne_nil h hne
    unfold isAbsolute at hstart ⊢
    rw [written_of_ne_nil absolute closed hne, List.head?_append_of_ne_nil _ hbytes, hstart]

theorem names_written (absolute closed : Bool) : names ⟨written absolute closed ns⟩ = ns := by
  by_cases hne : ns = []
  · subst hne
    cases absolute <;> cases closed <;> rfl
  · have hnames : (ofBody (startOf absolute) ns).names = ns := names_ofBody_of_isNaming h
    rw [written_of_ne_nil absolute closed hne]
    cases closed with
    | false =>
      rw [if_neg Bool.false_ne_true, List.append_nil]
      exact hnames
    | true =>
      rw [names_eq_filter] at hnames ⊢
      unfold segments at hnames ⊢
      rw [if_pos rfl, List.splitOn_append_cons_self, List.filter_append, hnames]
      exact List.append_nil _

/-- Only the root has a slash at its end that was not asked for. -/
theorem endsWithSlash_written (absolute closed : Bool) :
    endsWithSlash ⟨written absolute closed ns⟩ = (closed || (absolute && ns.isEmpty)) := by
  by_cases hne : ns = []
  · subst hne
    cases absolute <;> cases closed <;> rfl
  · have hends : (ofBody (startOf absolute) ns).endsWithSlash = false := by
      cases absolute with
      | true => exact endsWithSlash_ofBody_root h hne
      | false => exact endsWithSlash_ofSegments h hne
    have hempty : ns.isEmpty = false := List.isEmpty_eq_false_iff.mpr hne
    unfold endsWithSlash at hends ⊢
    rw [written_of_ne_nil absolute closed hne, hempty, Bool.and_false, Bool.or_false]
    cases closed with
    | false => rw [if_neg Bool.false_ne_true, List.append_nil, hends]
    | true =>
      rw [if_pos rfl, List.getLast?_concat]
      rfl

end

end ModuleMap.Path
