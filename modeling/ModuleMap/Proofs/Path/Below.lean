import ModuleMap.Proofs.Path.Composition

/-!
# Paths spelled below a directory

A tail can be put after the name of an absolute directory as it is spelled.  Its normal form is what
the lexical operations join, but it has that form already only if the tail leads down by names
alone.  A tail with a `.`, a `..` or a slash too many is joined to something, and the spelling of it
below the directory is no path in normal form at all.

* `Path.IsDescent`, `Path.LeadsDown`: paths and texts that lead down by names alone.
* `Path.spelledBelow`: a tail spelled below the name of a directory.  Its normal form is
  `Path.normalize_spelledBelow`, and `Path.normalize_spelledBelow_eq_self_iff` says when that is its
  spelling.
* `Path.normalize_eq_spelledBelow_iff`: the paths that have this spelling for their normal form.
* `Path.bytes_normalize_joinNormalized`: what a text that leads down is joined to.
-/

namespace ModuleMap.Path

/-! ## Names alone -/

/-- A path that leads down by names alone.  Its segments are neither empty nor `.` nor `..`; only
the last one may be empty, which is a slash at the end. -/
def IsDescent (p : Path) : Prop :=
  (∀ s ∈ p.segments.dropLast, s ≠ [] ∧ s ≠ [dot] ∧ s ≠ dotDot) ∧
    ∀ s ∈ p.segments.getLast?, s ≠ [dot] ∧ s ≠ dotDot

instance (p : Path) : Decidable p.IsDescent :=
  inferInstanceAs (Decidable ((∀ s ∈ p.segments.dropLast, s ≠ [] ∧ s ≠ [dot] ∧ s ≠ dotDot) ∧
    ∀ s ∈ p.segments.getLast?, s ≠ [dot] ∧ s ≠ dotDot))

/-- A relative text that leads to something below: none of its segments is empty, `.` or `..`. -/
def LeadsDown (r : String) : Prop :=
  ∀ cs ∈ r.toList.splitOn '/', cs ≠ [] ∧ cs ≠ ['.'] ∧ cs ≠ ['.', '.']

instance (r : String) : Decidable (LeadsDown r) :=
  inferInstanceAs (Decidable (∀ cs ∈ r.toList.splitOn '/', cs ≠ [] ∧ cs ≠ ['.'] ∧ cs ≠ ['.', '.']))

theorem LeadsDown.ne_of_mem_segments {r : String} (h : LeadsDown r) :
    ∀ s ∈ (ofText r).segments, s ≠ [] ∧ s ≠ [dot] ∧ s ≠ dotDot := by
  intro s hs
  rw [segments_ofText] at hs
  obtain ⟨cs, hcs, rfl⟩ := List.mem_map.mp hs
  obtain ⟨hnil, hdot, hdotDot⟩ := h cs hcs
  have hencodeDot : [dot] = Text.encode ['.'] := by decide
  have hencodeDotDot : dotDot = Text.encode ['.', '.'] := by decide
  exact ⟨fun heq => hnil (Text.encode_inj.mp heq),
    fun heq => hdot (Text.encode_inj.mp (heq.trans hencodeDot)),
    fun heq => hdotDot (Text.encode_inj.mp (heq.trans hencodeDotDot))⟩

theorem LeadsDown.isDescent {r : String} (h : LeadsDown r) : (ofText r).IsDescent :=
  ⟨fun s hs => h.ne_of_mem_segments s (List.dropLast_subset _ hs),
    fun s hs => (h.ne_of_mem_segments s (List.mem_of_getLast? hs)).2⟩

theorem LeadsDown.bytes_ne_nil {r : String} (h : LeadsDown r) : (ofText r).bytes ≠ [] := by
  intro hnil
  have hsegments : (ofText r).segments = [[]] := by rw [segments, hnil, List.splitOn_nil]
  exact (h.ne_of_mem_segments [] (by simp [hsegments])).1 rfl

/-! ## The spelling and its normal form -/

variable {p base tail : Path}

/-- The tail as it is spelled, after the name of an absolute directory and a slash. -/
def spelledBelow (base tail : Path) : Path :=
  ⟨(settle true base.names).flatMap (slash :: ·) ++ slash :: tail.bytes⟩

/-- The tail keeps its segments. -/
theorem segments_spelledBelow (base tail : Path) :
    (spelledBelow base tail).segments = [] :: settle true base.names ++ tail.segments := by
  have hfront : ((settle true base.names).flatMap (slash :: ·)).splitOn slash =
      [] :: settle true base.names := by
    by_cases hnil : settle true base.names = []
    · rw [hnil]
      rfl
    · have hslash : ∀ s ∈ settle true base.names, slash ∉ s :=
        fun s hs => (isNaming_of_mem_settle_names hs).1
      rw [← bytes_ofBody_root hnil]
      show (ofBody .root (settle true base.names)).segments = _
      rw [segments_eq_cons_body rfl, body_ofBody_root hslash hnil]
  show List.splitOn slash (_ ++ slash :: tail.bytes) = _
  rw [List.splitOn_append_cons_self, hfront]
  rfl

theorem isAbsolute_spelledBelow (base tail : Path) :
    (spelledBelow base tail).isAbsolute = true := by
  unfold spelledBelow isAbsolute
  cases settle true base.names <;> rfl

theorem body_spelledBelow (base tail : Path) :
    (spelledBelow base tail).body = settle true base.names ++ tail.segments := by
  have hsegments := segments_spelledBelow base tail
  have hroot := anchor_eq_root_iff.mpr (isAbsolute_spelledBelow base tail)
  rw [segments_eq_cons_body hroot] at hsegments
  exact (List.cons.inj hsegments).2

theorem names_spelledBelow (base tail : Path) :
    (spelledBelow base tail).names = settle true base.names ++ tail.names := by
  have hnaming : ∀ s ∈ settle true base.names, (!isVoid s) = true := by
    intro s hs
    rw [(isNaming_of_mem_settle_names hs).2]
    rfl
  rw [names, body_spelledBelow, List.filter_append, List.filter_eq_self.mpr hnaming,
    ← names_eq_filter]

theorem endsWithSlash_spelledBelow (base : Path) (htail : tail.bytes ≠ []) :
    (spelledBelow base tail).endsWithSlash = tail.endsWithSlash := by
  unfold spelledBelow endsWithSlash
  rw [List.getLast?_append_of_ne_nil _ (List.cons_ne_nil _ _), List.getLast?_cons_of_ne_nil htail]

/-- Its normal form is the joined path. -/
theorem normalize_spelledBelow (hbase : base.isAbsolute = true) (htail : tail.bytes ≠ []) :
    (spelledBelow base tail).normalize = base.joinNormalized tail := by
  rw [normalize_eq_written, joinNormalized_eq_written base htail, hbase, isAbsolute_spelledBelow,
    names_spelledBelow, endsWithSlash_spelledBelow base htail, settle_settle_append]

/-- It is spelled in normal form if the tail leads down by names alone. -/
theorem normalize_spelledBelow_eq_self_iff (base tail : Path) :
    (spelledBelow base tail).normalize = spelledBelow base tail ↔ tail.IsDescent := by
  have hne : tail.segments ≠ [] := List.splitOn_ne_nil _ _
  have hdropLast : (spelledBelow base tail).body.dropLast =
      settle true base.names ++ tail.segments.dropLast := by
    rw [body_spelledBelow, List.dropLast_append_of_ne_nil hne]
  have hgetLast : (spelledBelow base tail).body.getLast? = tail.segments.getLast? := by
    rw [body_spelledBelow, List.getLast?_append_of_ne_nil _ hne]
  rw [normalize_eq_self_iff (isAbsolute_spelledBelow base tail)]
  constructor
  · intro h
    refine ⟨fun s hs => h.ne_of_mem_dropLast s ?_, fun s hs => h.ne_of_mem_getLast? s ?_⟩
    · rw [hdropLast]
      exact List.mem_append_right _ hs
    · rwa [hgetLast]
  · intro h
    refine ⟨isAbsolute_spelledBelow base tail, fun s hs => ?_, fun s hs => ?_⟩
    · rw [hdropLast] at hs
      rcases List.mem_append.mp hs with hs | hs
      · have hnaming := isNaming_of_mem_settle_names hs
        refine ⟨hnaming.ne_nil, ?_, (mem_of_mem_settle hs).2⟩
        rintro rfl
        cases hnaming.2
      · exact h.1 s hs
    · rw [hgetLast] at hs
      exact h.2 s hs

/-- The spelling is the normal form of the joined paths, or of none. -/
theorem normalize_eq_spelledBelow_iff (hbase : base.isAbsolute = true) (htail : tail.bytes ≠ []) :
    p.normalize = spelledBelow base tail ↔
      tail.IsDescent ∧ p.normalize = base.joinNormalized tail := by
  rw [← normalize_spelledBelow_eq_self_iff base tail, ← normalize_spelledBelow hbase htail]
  constructor
  · intro h
    have hself : (spelledBelow base tail).normalize = spelledBelow base tail := by
      rw [← h, normalize_normalize]
    exact ⟨hself, h.trans hself.symm⟩
  · rintro ⟨hself, h⟩
    exact h.trans hself

/-- A text that leads down is joined to its spelling below the directory. -/
theorem bytes_normalize_joinNormalized {r : String} (hbase : base.isAbsolute = true)
    (hr : LeadsDown r) :
    (base.joinNormalized (ofText r)).normalize.bytes =
      (settle true base.names).flatMap (slash :: ·) ++ slash :: (ofText r).bytes := by
  rw [← normalize_spelledBelow hbase hr.bytes_ne_nil, normalize_normalize,
    (normalize_spelledBelow_eq_self_iff base _).mpr hr.isDescent]
  rfl

end ModuleMap.Path
