import ModuleMap.Proofs.Path.Plain

/-!
# Absolute paths in normal form

Whatever is joined to an absolute path, the result starts at the root, and there is nothing in it
but names, and perhaps one slash at its end.  A `..` that has no name before it to take back is
lost, so nothing leads out of the root; and an absolute tail gives its names as a relative one does.

* `Path.IsNormal`: what can stand between the slashes of such a path.
* `Path.isNormal_joinNormalized`, `Path.isNormal_normalize`: the results of the lexical operations.
-/

namespace ModuleMap.Path

/-- An absolute path in normal form.  Its segments are neither empty nor `.` nor `..`; only the last
one may be empty, which is a slash at the end. -/
structure IsNormal (p : Path) : Prop where
  isAbsolute : p.isAbsolute = true
  ne_of_mem_dropLast : ∀ s ∈ p.body.dropLast, s ≠ [] ∧ s ≠ [dot] ∧ s ≠ dotDot
  ne_of_mem_getLast? : ∀ s ∈ p.body.getLast?, s ≠ [dot] ∧ s ≠ dotDot

/-- A path is in normal form if its segments are names, or all but an empty last one are. -/
theorem isNormal_of_body {p : Path} {ns : List Segment} (hp : p.anchor = .root)
    (h : ∀ s ∈ ns, IsNaming s) (hdotDot : dotDot ∉ ns)
    (hbody : p.body = ns ∨ p.body = ns ++ [[]]) : p.IsNormal := by
  have hnames : ∀ s ∈ ns, s ≠ [] ∧ s ≠ [dot] ∧ s ≠ dotDot := by
    intro s hs
    have hvoid := (h s hs).2
    refine ⟨(h s hs).ne_nil, ?_, fun heq => hdotDot (heq ▸ hs)⟩
    rintro rfl
    cases hvoid
  refine ⟨anchor_eq_root_iff.mp hp, fun s hs => ?_, fun s hs => ?_⟩
  · rcases hbody with hbody | hbody <;> rw [hbody] at hs
    · exact hnames s (List.dropLast_subset _ hs)
    · rw [List.dropLast_concat] at hs
      exact hnames s hs
  · rcases hbody with hbody | hbody <;> rw [hbody] at hs
    · exact (hnames s (List.mem_of_getLast? hs)).2
    · rw [List.getLast?_concat, Option.mem_some_iff] at hs
      subst hs
      exact ⟨by decide, by decide⟩

/-- Its segments are names, and then perhaps an empty one. -/
theorem IsNormal.exists_body {p : Path} (h : p.IsNormal) :
    ∃ ns, (∀ s ∈ ns, IsNaming s) ∧ dotDot ∉ ns ∧ (p.body = ns ∨ p.body = ns ++ [[]]) := by
  have hnaming : ∀ s ∈ p.body, s ≠ [] → s ≠ [dot] → IsNaming s := by
    intro s hs hnil hdot
    exact ⟨slash_notMem_of_mem_segments (mem_segments_of_mem_body hs), by simp [isVoid, hnil, hdot]⟩
  rcases List.eq_nil_or_concat p.body with hbody | ⟨init, last, hbody⟩
  · exact ⟨[], List.forall_mem_nil _, List.not_mem_nil, Or.inl hbody⟩
  rw [List.concat_eq_append] at hbody
  have hinit := h.ne_of_mem_dropLast
  have hlast := h.ne_of_mem_getLast?
  rw [hbody, List.dropLast_concat] at hinit
  rw [hbody, List.getLast?_concat] at hlast
  obtain ⟨hdot, hdotDot⟩ := hlast last rfl
  have hnames : ∀ s ∈ init, IsNaming s := fun s hs =>
    hnaming s (hbody ▸ List.mem_append_left _ hs) (hinit s hs).1 (hinit s hs).2.1
  have hups : dotDot ∉ init := fun hmem => (hinit _ hmem).2.2 rfl
  by_cases hnil : last = []
  · exact ⟨init, hnames, hups, Or.inr (hnil ▸ hbody)⟩
  · refine ⟨init ++ [last], List.forall_mem_append.mpr ⟨hnames, ?_⟩, ?_, Or.inl hbody⟩
    · rw [List.forall_mem_singleton]
      exact hnaming last (hbody ▸ by simp) hnil hdot
    · rw [List.mem_append, not_or, List.mem_singleton]
      exact ⟨hups, Ne.symm hdotDot⟩

theorem isNormal_ofBody_root {ns : List Segment} (h : ∀ s ∈ ns, IsNaming s)
    (hdotDot : dotDot ∉ ns) :
    (ofBody .root ns).IsNormal := by
  rcases ns with _ | ⟨n, ns⟩
  · exact isNormal_of_body rfl h hdotDot (Or.inr rfl)
  · exact isNormal_of_body rfl h hdotDot
      (Or.inl (body_ofBody_root (fun s hs => (h s hs).1) (List.cons_ne_nil n ns)))

theorem isNormal_closeWithSlash {ns : List Segment} (h : ∀ s ∈ ns, IsNaming s)
    (hdotDot : dotDot ∉ ns) : (ofBody .root ns).closeWithSlash.IsNormal := by
  rcases ns with _ | ⟨n, ns⟩
  · exact isNormal_ofBody_root h hdotDot
  · obtain ⟨hclosed, hbody⟩ := closeWithSlash_ofBody_root h (List.cons_ne_nil n ns)
    rw [hclosed]
    exact isNormal_of_body rfl h hdotDot (Or.inr hbody)

theorem isNaming_of_mem_append_names (base tail : Path) :
    ∀ s ∈ base.names ++ tail.names, IsNaming s :=
  List.forall_mem_append.mpr
    ⟨fun _ hs => isNaming_of_mem_names hs, fun _ hs => isNaming_of_mem_names hs⟩

/-- **What is joined to an absolute path is in normal form.** -/
theorem isNormal_joinNormalized {base : Path} (hbase : base.isAbsolute = true) (tail : Path) :
    (base.joinNormalized tail).IsNormal := by
  have hnaming : ∀ s ∈ settle true (base.names ++ tail.names), IsNaming s :=
    fun s hs => isNaming_of_mem_append_names base tail s (mem_of_mem_settle hs).1
  have hdotDot : dotDot ∉ settle true (base.names ++ tail.names) :=
    fun hmem => (mem_of_mem_settle hmem).2 rfl
  unfold joinNormalized
  rw [hbase]
  show (if (if tail.bytes = [] then base.endsWithSlash else tail.endsWithSlash) then
    (ofBody .root (settle true (base.names ++ tail.names))).closeWithSlash
    else ofBody .root (settle true (base.names ++ tail.names))).IsNormal
  cases if tail.bytes = [] then base.endsWithSlash else tail.endsWithSlash with
  | true => exact isNormal_closeWithSlash hnaming hdotDot
  | false => exact isNormal_ofBody_root hnaming hdotDot

theorem isNormal_normalize {p : Path} (hp : p.isAbsolute = true) : p.normalize.IsNormal :=
  isNormal_joinNormalized hp empty

end ModuleMap.Path
