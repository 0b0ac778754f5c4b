import ModuleMap.Proofs.Path.Ancestors

/-!
# Absolute paths without `..`

The lexical operations act on the names of a path: joining appends names, going up takes the last
one away, and a suffix is put on the last one.  None of them makes a `..` where there was none.

* `Path.mem_names_addSuffix`: the names after a suffix has been added.
* `Path.isAbsolute_directory`, `Path.forall_mem_ancestors`: going up.
* `Path.IsPlain`: an absolute path without `..`, and the operations that give one.
-/

namespace ModuleMap.Path

/-! ## Suffixes -/

/-- Bytes after the last slash are added to the last segment. -/
theorem splitOn_append_of_notMem (bytes : List UInt8) {suffix : List UInt8} (h : slash ∉ suffix) :
    ∃ init last, bytes.splitOn slash = init ++ [last] ∧
      (bytes ++ suffix).splitOn slash = init ++ [last ++ suffix] := by
  induction bytes with
  | nil => exact ⟨[], [], rfl, by rw [List.nil_append, List.splitOn_eq_singleton h]; rfl⟩
  | cons b bytes ih =>
    obtain ⟨init, last, hbytes, hsuffix⟩ := ih
    rw [List.cons_append, List.splitOn_cons_eq_if_modifyHead, List.splitOn_cons_eq_if_modifyHead,
      hbytes, hsuffix]
    by_cases hb : (b == slash) = true
    · rw [if_pos hb, if_pos hb]
      exact ⟨[] :: init, last, rfl, rfl⟩
    · rw [if_neg hb, if_neg hb]
      rcases init with _ | ⟨first, init⟩
      · exact ⟨[], b :: last, rfl, rfl⟩
      · exact ⟨(b :: first) :: init, last, rfl, rfl⟩

/-- A name after a suffix has been added was there before or has the suffix. -/
theorem mem_names_addSuffix {p : Path} {suffix : String} {s : Segment}
    (h : slash ∉ Text.encode suffix.toList) (hs : s ∈ (p.addSuffix suffix).names) :
    s ∈ p.names ∨ Text.encode suffix.toList <:+ s := by
  obtain ⟨init, last, hbytes, hsuffix⟩ := splitOn_append_of_notMem p.bytes h
  rw [names_eq_filter, List.mem_filter] at hs ⊢
  obtain ⟨hmem, hvoid⟩ := hs
  change s ∈ (p.bytes ++ Text.encode suffix.toList).splitOn slash at hmem
  rw [hsuffix] at hmem
  rcases List.mem_append.mp hmem with hmem | hmem
  · left
    refine ⟨?_, hvoid⟩
    show s ∈ p.bytes.splitOn slash
    rw [hbytes]
    exact List.mem_append_left _ hmem
  · right
    rw [List.mem_singleton.mp hmem]
    exact List.suffix_append _ _

/-! ## Absolute paths -/

theorem isAbsolute_directory {p : Path} (hp : p.isAbsolute = true) :
    p.directory.isAbsolute = true := by
  unfold directory
  cases h : p.parent? with
  | none => rfl
  | some q => exact isAbsolute_of_parent? hp h

theorem isAbsolute_addSuffix {p : Path} (hp : p.isAbsolute = true) (suffix : String) :
    (p.addSuffix suffix).isAbsolute = true := by
  obtain ⟨bs, rfl⟩ := exists_eq_cons_slash (anchor_eq_root_iff.mpr hp)
  rfl

theorem isAbsolute_normalize {p : Path} (hp : p.isAbsolute = true) :
    p.normalize.isAbsolute = true :=
  anchor_eq_root_iff.mp (isTrimmed_normalize hp).1.anchor_eq

/-- What a parent has from its path all ancestors have. -/
theorem forall_mem_ancestors {P : Path → Prop} (h : ∀ p q, p.parent? = some q → P p → P q)
    {p : Path} (hp : P p) : ∀ a ∈ p.ancestors, P a := by
  have hparents : ∀ n q, P q → ∀ a ∈ parents n q, P a := by
    intro n
    induction n with
    | zero => simp [parents]
    | succ n ih =>
      intro q hq a ha
      rw [parents] at ha
      cases hparent : q.parent? with
      | none => simp [hparent] at ha
      | some r =>
        have hr : P r := h q r hparent hq
        rw [hparent] at ha
        rcases List.mem_cons.mp ha with rfl | ha
        · exact hr
        · exact ih r hr a ha
  intro a ha
  rcases List.mem_cons.mp ha with rfl | ha
  · exact hp
  · exact hparents _ p hp a ha

/-! ## Paths without `..` -/

/-- An absolute path without `..`. -/
structure IsPlain (p : Path) : Prop where
  isAbsolute : p.isAbsolute = true
  dotDot_notMem : dotDot ∉ p.names

theorem isPlain_normalize {p : Path} (hp : p.isAbsolute = true) : p.normalize.IsPlain :=
  ⟨isAbsolute_normalize hp, (isTrimmed_normalize hp).2⟩

theorem IsPlain.join {p tail : Path} (hp : p.IsPlain) (htail : tail.isAbsolute = false)
    (hdotDot : dotDot ∉ tail.names) : (p.join tail).IsPlain := by
  refine ⟨isAbsolute_join hp.isAbsolute tail, ?_⟩
  rw [names_join p htail, List.mem_append, not_or]
  exact ⟨hp.dotDot_notMem, hdotDot⟩

/-- Two bytes are too few for a longer suffix. -/
theorem IsPlain.addSuffix {p : Path} (hp : p.IsPlain) {suffix : String}
    (hslash : slash ∉ Text.encode suffix.toList)
    (hlength : 2 < (Text.encode suffix.toList).length) : (p.addSuffix suffix).IsPlain := by
  refine ⟨isAbsolute_addSuffix hp.isAbsolute suffix, fun hmem => ?_⟩
  rcases mem_names_addSuffix hslash hmem with hmem | hsuffix
  · exact hp.dotDot_notMem hmem
  · have hle : (Text.encode suffix.toList).length ≤ 2 := hsuffix.length_le
    omega

theorem IsPlain.of_parent? {p q : Path} (hp : p.IsPlain) (h : p.parent? = some q) : q.IsPlain :=
  ⟨isAbsolute_of_parent? hp.isAbsolute h,
    fun hmem => hp.dotDot_notMem (List.dropLast_subset _ (names_of_parent? h ▸ hmem))⟩

theorem IsPlain.directory {p : Path} (hp : p.IsPlain) : p.directory.IsPlain := by
  unfold Path.directory
  cases h : p.parent? with
  | none => exact ⟨rfl, by decide⟩
  | some q => exact hp.of_parent? h

end ModuleMap.Path
