import ModuleMap.Proofs.Path.Settling

/-!
# Joining in steps

What is joined is written from settled names, and from the path that is written the same names are
read again, with the same start and the same slash at the end.  Only the root cannot tell whether
its slash was asked for, and it does not matter there.  So a normal form is its own normal form, and
it can take the place of its path wherever something is joined.

* `Path.normalize_eq_written`, `Path.joinNormalized_eq_written`: the bytes of the results.
* `Path.isAbsolute_normalize_eq`, `Path.names_normalize`, `Path.endsWithSlash_normalize`: what is
  read off a normal form.
* `Path.InNormalForm`, `Path.inNormalForm_iff`: the paths that are their own normal forms.
* `Path.normalize_spec`: the normal form of any path.
* `Path.joinNormalized_assoc`: joining once and twice.
-/

namespace ModuleMap.Path

variable {p base tail : Path}

/-! ## What is written -/

/-- What is left of a path can name something. -/
theorem isNaming_of_mem_settle_isAbsolute (p : Path) :
    ∀ s ∈ settle p.isAbsolute p.names, IsNaming s :=
  isNaming_of_mem_settle fun _ hs => isNaming_of_mem_names hs

theorem isNaming_of_mem_settle_append (base tail : Path) :
    ∀ s ∈ settle base.isAbsolute (base.names ++ tail.names), IsNaming s :=
  isNaming_of_mem_settle (isNaming_of_mem_append_names base tail)

theorem normalize_eq_written (p : Path) :
    p.normalize = ⟨written p.isAbsolute p.endsWithSlash (settle p.isAbsolute p.names)⟩ := by
  have hnames : p.names ++ empty.names = p.names := List.append_nil _
  rw [written_eq (isNaming_of_mem_settle_isAbsolute p), normalize, joinNormalized, hnames]
  rfl

/-- A tail that is not empty says whether there is a slash at the end. -/
theorem joinNormalized_eq_written (base : Path) (htail : tail.bytes ≠ []) :
    base.joinNormalized tail =
      ⟨written base.isAbsolute tail.endsWithSlash
        (settle base.isAbsolute (base.names ++ tail.names))⟩ := by
  rw [written_eq (isNaming_of_mem_settle_append base tail), joinNormalized, if_neg htail]

theorem joinNormalized_of_bytes_eq_nil (base : Path) (htail : tail.bytes = []) :
    base.joinNormalized tail = base.normalize := by
  have hempty : tail = empty := congrArg mk htail
  rw [hempty, normalize]

/-! ## What is read again -/

/-- The normal form of a path starts at the root if the path does. -/
theorem isAbsolute_normalize_eq (p : Path) : p.normalize.isAbsolute = p.isAbsolute := by
  rw [normalize_eq_written, isAbsolute_written (isNaming_of_mem_settle_isAbsolute p)]

theorem names_normalize (p : Path) : p.normalize.names = settle p.isAbsolute p.names := by
  rw [normalize_eq_written, names_written (isNaming_of_mem_settle_isAbsolute p)]

theorem endsWithSlash_normalize (p : Path) :
    p.normalize.endsWithSlash =
      (p.endsWithSlash || (p.isAbsolute && (settle p.isAbsolute p.names).isEmpty)) := by
  rw [normalize_eq_written, endsWithSlash_written (isNaming_of_mem_settle_isAbsolute p)]

theorem bytes_normalize_ne_nil (p : Path) : p.normalize.bytes ≠ [] := by
  rw [normalize_eq_written]
  unfold written
  split
  · split_ifs <;> exact List.cons_ne_nil _ _
  · next s ss hnames =>
    have hs : IsNaming s := isNaming_of_mem_settle_isAbsolute p s (hnames ▸ List.mem_cons_self)
    obtain ⟨b, bs, hbytes⟩ := List.exists_cons_of_ne_nil hs.ne_nil
    rcases ss with _ | ⟨s', ss⟩ <;> simp [hbytes, List.intercalate_cons_cons]

/-- Apart from the root, a normal form has a slash at its end if the path has one. -/
theorem endsWithSlash_normalize_of_ne_root (h : p.normalize ≠ root) :
    p.normalize.endsWithSlash = p.endsWithSlash := by
  rw [endsWithSlash_normalize]
  cases habsolute : p.isAbsolute with
  | false => rw [Bool.false_and, Bool.or_false]
  | true =>
    cases hsettled : settle true p.names with
    | cons n ns => rw [List.isEmpty_cons, Bool.and_false, Bool.or_false]
    | nil =>
      rw [normalize_eq_written, habsolute, hsettled] at h
      exact absurd rfl h

/-! ## Normal forms -/

/-- A normal form is a normal form. -/
theorem normalize_normalize (p : Path) : p.normalize.normalize = p.normalize := by
  have hself : settle p.isAbsolute (settle p.isAbsolute p.names) = settle p.isAbsolute p.names :=
    settle_eq_self_iff.mpr (isSettled_settle _ _)
  rw [normalize_eq_written p.normalize, isAbsolute_normalize_eq, names_normalize,
    endsWithSlash_normalize, hself, written_or, ← normalize_eq_written]

/-- A path in normal form: `/` and names, or a run of `..` and names, of which there is at least
one; or `.` if there is none.  All but the root may have a slash at the end. -/
def InNormalForm (p : Path) : Prop :=
  ∃ closed ns, (∀ s ∈ ns, IsNaming s) ∧ IsSettled p.isAbsolute ns ∧
    p.bytes = written p.isAbsolute closed ns

theorem inNormalForm_normalize (p : Path) : p.normalize.InNormalForm := by
  refine ⟨p.endsWithSlash, settle p.isAbsolute p.names, isNaming_of_mem_settle_isAbsolute p, ?_, ?_⟩
  · rw [isAbsolute_normalize_eq]
    exact isSettled_settle _ _
  · rw [isAbsolute_normalize_eq]
    exact congrArg bytes (normalize_eq_written p)

/-- The paths in normal form are those that are their own normal forms. -/
theorem inNormalForm_iff : p.InNormalForm ↔ p.normalize = p := by
  constructor
  · rintro ⟨closed, ns, hnaming, hsettled, hbytes⟩
    have hp : p = ⟨written p.isAbsolute closed ns⟩ := congrArg mk hbytes
    have hnames : p.names = ns := by
      rw [hp]
      exact names_written hnaming _ _
    have hends : p.endsWithSlash = (closed || (p.isAbsolute && ns.isEmpty)) := by
      conv_lhs => rw [hp]
      exact endsWithSlash_written hnaming _ _
    rw [normalize_eq_written, hnames, hends, settle_eq_self_iff.mpr hsettled, written_or, ← hp]
  · intro h
    rw [← h]
    exact inNormalForm_normalize p

/-- For an absolute path that is to have nothing but names between its slashes. -/
theorem inNormalForm_of_isNormal (h : p.IsNormal) : p.InNormalForm := by
  obtain ⟨ns, hns, hdotDot, hbody⟩ := h.exists_body
  have hsettled : IsSettled p.isAbsolute ns :=
    ⟨0, ns, by rw [List.replicate_zero, List.nil_append], hdotDot, fun _ => rfl⟩
  have hp := ofBody_root_body (anchor_eq_root_iff.mpr h.isAbsolute)
  rcases ns with _ | ⟨n, ns⟩
  · -- The root has no segment after its slash, or an empty one.
    refine ⟨false, [], List.forall_mem_nil _, hsettled, ?_⟩
    rw [h.isAbsolute, ← hp]
    rcases hbody with hbody | hbody <;> rw [hbody] <;> rfl
  · rcases hbody with hbody | hbody
    · refine ⟨false, n :: ns, hns, hsettled, ?_⟩
      rw [h.isAbsolute, written_eq hns, ← hp, hbody]
      rfl
    · refine ⟨true, n :: ns, hns, hsettled, ?_⟩
      rw [h.isAbsolute, written_eq hns, ← hp, hbody,
        ← (closeWithSlash_ofBody_root hns (List.cons_ne_nil n ns)).1]
      rfl

/-- An absolute path is its own normal form if it has nothing but names between its slashes. -/
theorem normalize_eq_self_iff (hp : p.isAbsolute = true) : p.normalize = p ↔ p.IsNormal := by
  constructor
  · intro h
    rw [← h]
    exact isNormal_normalize hp
  · exact fun h => inNormalForm_iff.mp (inNormalForm_of_isNormal h)

/-- **Every path has a normal form.**  It is in normal form, so it is its own normal form, as just
the paths in normal form are.  It starts at the root if the path does, and has a slash at its end if
the path has one; the root has one in any case. -/
theorem normalize_spec (p : Path) :
    p.normalize.InNormalForm ∧ p.normalize.normalize = p.normalize ∧
      (∀ q : Path, q.InNormalForm ↔ q.normalize = q) ∧
      p.normalize.isAbsolute = p.isAbsolute ∧
      (p.normalize ≠ root → p.normalize.endsWithSlash = p.endsWithSlash) :=
  ⟨inNormalForm_normalize p, normalize_normalize p, fun _ => inNormalForm_iff,
    isAbsolute_normalize_eq p, endsWithSlash_normalize_of_ne_root⟩

/-! ## Joining twice -/

/-- What is joined to a normal form could be joined to the path. -/
theorem normalize_joinNormalized (base tail : Path) :
    base.normalize.joinNormalized tail = base.joinNormalized tail := by
  by_cases htail : tail.bytes = []
  · rw [joinNormalized_of_bytes_eq_nil _ htail, joinNormalized_of_bytes_eq_nil _ htail,
      normalize_normalize]
  · rw [joinNormalized_eq_written _ htail, joinNormalized_eq_written _ htail,
      isAbsolute_normalize_eq, names_normalize, settle_settle_append]

theorem isAbsolute_joinNormalized (base tail : Path) :
    (base.joinNormalized tail).isAbsolute = base.isAbsolute := by
  by_cases htail : tail.bytes = []
  · rw [joinNormalized_of_bytes_eq_nil _ htail, isAbsolute_normalize_eq]
  · rw [joinNormalized_eq_written _ htail,
      isAbsolute_written (isNaming_of_mem_settle_append base tail)]

theorem names_joinNormalized (base tail : Path) :
    (base.joinNormalized tail).names = settle base.isAbsolute (base.names ++ tail.names) := by
  by_cases htail : tail.bytes = []
  · have hnames : tail.names = [] := by
      rw [names_eq_filter, segments, htail]
      rfl
    rw [joinNormalized_of_bytes_eq_nil _ htail, names_normalize, hnames, List.append_nil]
  · rw [joinNormalized_eq_written _ htail, names_written (isNaming_of_mem_settle_append base tail)]

/-- A tail is joined in one step or in two, split at a slash. -/
theorem joinNormalized_joinNormalized (base first : Path) (htail : tail.bytes ≠ []) :
    (base.joinNormalized first).joinNormalized tail =
      base.joinNormalized ⟨first.bytes ++ slash :: tail.bytes⟩ := by
  have hconcat : concat first tail = ⟨first.bytes ++ slash :: tail.bytes⟩ := if_neg htail
  have hnames : (concat first tail).names = first.names ++ tail.names := by
    rw [names_eq_filter, names_concat]
  have hends : (concat first tail).endsWithSlash = tail.endsWithSlash := by
    rw [endsWithSlash_concat, if_neg htail]
  have hne : (concat first tail).bytes ≠ [] := by
    rw [hconcat]
    simp
  rw [← hconcat, joinNormalized_eq_written _ htail, joinNormalized_eq_written _ hne, hnames, hends,
    isAbsolute_joinNormalized, names_joinNormalized, settle_settle_append, List.append_assoc]

/-- **Joining composes.**  Two tails that are joined one after the other give what they give when
they are joined as one, with a slash between them; and a base gives what its normal form gives. -/
theorem joinNormalized_assoc (base : Path) :
    (∀ first tail : Path, tail.bytes ≠ [] →
        (base.joinNormalized first).joinNormalized tail =
          base.joinNormalized ⟨first.bytes ++ slash :: tail.bytes⟩) ∧
      ∀ tail, base.normalize.joinNormalized tail = base.joinNormalized tail :=
  ⟨fun first _ htail => joinNormalized_joinNormalized base first htail,
    normalize_joinNormalized base⟩

/-- A first tail that leads to `./`, and a second one that leads out of the base. -/
theorem joinNormalized_assoc_cancelled :
    let base : Path := ⟨[0xFF, slash, slash, dot]⟩
    let first := Path.ofText ".././"
    let tail := Path.ofText "/../a/../"
    tail.bytes ≠ [] ∧ base.joinNormalized first = .ofText "./" ∧
      (base.joinNormalized first).joinNormalized tail =
        base.joinNormalized ⟨first.bytes ++ slash :: tail.bytes⟩ ∧
      (base.joinNormalized first).joinNormalized tail = .ofText "../" := by
  intro base first tail
  have htail : tail.bytes ≠ [] := by decide +kernel
  exact ⟨htail, by decide +kernel, (joinNormalized_assoc base).1 first tail htail,
    by decide +kernel⟩

/-! ## Joining to a directory -/

/-- A relative path can be taken from an absolute directory in its normal form. -/
theorem normalize_join_normalize (hbase : base.isAbsolute = true) (hp : p.isAbsolute = false)
    (hne : p.bytes ≠ []) : (base.join p.normalize).normalize = (base.join p).normalize := by
  have hrelative : p.normalize.isAbsolute = false := (isAbsolute_normalize_eq p).trans hp
  have hends : p.normalize.endsWithSlash = p.endsWithSlash := by
    rw [endsWithSlash_normalize, hp, Bool.false_and, Bool.or_false]
  rw [normalize_eq_written, normalize_eq_written (base.join p), isAbsolute_join hbase,
    isAbsolute_join hbase, endsWithSlash_join base (bytes_normalize_ne_nil p) hrelative,
    endsWithSlash_join base hne hp, hends, names_join base hrelative, names_join base hp,
    names_normalize, hp, settle_append_settle]

end ModuleMap.Path
