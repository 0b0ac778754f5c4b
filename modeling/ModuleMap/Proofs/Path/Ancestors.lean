import Mathlib.Data.List.Basic
import Mathlib.Data.List.Induction
import Mathlib.Data.List.Infix
import ModuleMap.Proofs.Path.Rooted

/-!
# Names, parents and joined paths

A path may start anywhere, and it may have void segments between its names and after them.  Going up
takes the last name away together with the bytes that follow it, whatever the anchor, and joining
puts names after the others.  Only a path that is spelled `.` has a parent without having a name.

* `Path.names_eq_filter`, `Path.ofBody_anchor_body`, `Path.names_ofBody`: the names of a path, and
  the path put together from its anchor and its body.
* `Path.components_eq_iff`: paths with the same components.
* `Path.parent?_cases`: the parent of a path, if it has one.
* `Path.names_of_parent?`, `Path.isPrefix_bytes_of_parent?`, `Path.isAbsolute_eq_of_parent?`: the
  names of the parent, its bytes, and where it starts.
* `Path.names_ancestors`: the names of the ancestors of an absolute path.
* `Path.exists_bytes_join`, `Path.exists_segments_join`, `Path.names_join`: the bytes, the segments
  and the names of a joined path.
-/

namespace ModuleMap.Path

variable {p q : Path}

/-! ## Anchor and body -/

/-- The segments of a relative path that starts with `.`. -/
theorem segments_eq_dot_cons_body (hp : p.anchor = .here) : p.segments = [dot] :: p.body := by
  have hbody : p.body = p.segments.tail := by rw [body, hp]
  have hhead : p.segments.head? = some [dot] := by
    unfold anchor at hp
    split at hp
    · cases hp
    · split at hp
      · assumption
      · cases hp
  rw [hbody]
  rcases hsegments : p.segments with _ | ⟨s, ss⟩
  · rw [hsegments] at hhead
    cases hhead
  · rw [hsegments] at hhead
    rw [Option.some_inj.mp hhead, List.tail_cons]

/-- The names are the segments that are not void, whatever the anchor. -/
theorem names_eq_filter (p : Path) : p.names = p.segments.filter (!isVoid ·) := by
  unfold names
  cases hanchor : p.anchor with
  | root => rw [segments_eq_cons_body hanchor, List.filter_cons_of_neg (by decide)]
  | floating => rw [body, hanchor]
  | here => rw [segments_eq_dot_cons_body hanchor, List.filter_cons_of_neg (by decide)]

theorem anchor_eq_here_iff : p.anchor = .here ↔ p.segments.head? = some [dot] := by
  constructor
  · intro hp
    rw [segments_eq_dot_cons_body hp, List.head?_cons]
  · intro hhead
    have habsolute : p.isAbsolute ≠ true := by
      intro hp
      rw [segments_eq_cons_body (anchor_eq_root_iff.mpr hp)] at hhead
      cases hhead
    rw [anchor, if_neg habsolute, if_pos hhead]

/-- Paths have the same components if and only if both are absolute or both relative, both or
neither start with `.`, and their segments that are not void are the same. -/
theorem components_eq_iff :
    p.components = q.components ↔
      p.isAbsolute = q.isAbsolute ∧
        (p.segments.head? = some [dot] ↔ q.segments.head? = some [dot]) ∧
        p.segments.filter (!isVoid ·) = q.segments.filter (!isVoid ·) := by
  have hanchor : p.anchor = q.anchor ↔
      (p.anchor = .root ↔ q.anchor = .root) ∧ (p.anchor = .here ↔ q.anchor = .here) := by
    cases p.anchor <;> cases q.anchor <;> decide
  rw [components, components, Prod.mk.injEq, names_eq_filter, names_eq_filter, hanchor,
    anchor_eq_root_iff, anchor_eq_root_iff, anchor_eq_here_iff, anchor_eq_here_iff,
    ← Bool.eq_iff_iff, and_assoc]

/-- A path is what its anchor and its body spell. -/
theorem ofBody_anchor_body (p : Path) : ofBody p.anchor p.body = p := by
  have hbytes : p.bytes = [slash].intercalate p.segments := (List.intercalate_splitOn slash).symm
  cases hanchor : p.anchor with
  | root => exact ofBody_root_body hanchor
  | floating =>
    have hbody : p.body = p.segments := by rw [body, hanchor]
    rw [hbody, ofBody, ofSegments, ← hbytes]
  | here =>
    rw [segments_eq_dot_cons_body hanchor] at hbytes
    obtain ⟨bytes⟩ := p
    cases hbody : body ⟨bytes⟩ with
    | nil =>
      rw [hbody, List.intercalate_singleton] at hbytes
      exact congrArg Path.mk hbytes.symm
    | cons s ss =>
      rw [hbody, List.intercalate_cons_cons] at hbytes
      exact congrArg Path.mk hbytes.symm

/-- The names of a path are those in its body. -/
theorem names_ofBody (a : Anchor) {ss : List Segment} (h : ∀ s ∈ ss, slash ∉ s) :
    (ofBody a ss).names = ss.filter (!isVoid ·) := by
  have hsplit : ∀ before : List UInt8, (before ++ slash :: [slash].intercalate ss).splitOn slash =
      before.splitOn slash ++ ([slash].intercalate ss).splitOn slash :=
    fun before => List.splitOn_append_cons_self before _
  have hnames : (([slash].intercalate ss).splitOn slash).filter (!isVoid ·) =
      ss.filter (!isVoid ·) := by
    by_cases hss : ss = []
    · rw [hss]
      rfl
    · rw [List.splitOn_intercalate slash h hss]
  rw [names_eq_filter]
  cases a with
  | floating => exact hnames
  | root =>
    have hroot := hsplit []
    rw [List.nil_append] at hroot
    show (List.splitOn slash (slash :: [slash].intercalate ss)).filter _ = _
    rw [hroot, List.filter_append, hnames]
    rfl
  | here =>
    rcases ss with _ | ⟨s, ss⟩
    · rfl
    · show (List.splitOn slash ([dot] ++ slash :: [slash].intercalate (s :: ss))).filter _ = _
      rw [hsplit, List.filter_append, hnames]
      rfl

/-- With fewer segments at the end, a path has fewer bytes at the end. -/
theorem isPrefix_bytes_ofBody (a : Anchor) (ss rest : List Segment) :
    (ofBody a ss).bytes <+: (ofBody a (ss ++ rest)).bytes := by
  have hintercalate : [slash].intercalate ss <+: [slash].intercalate (ss ++ rest) := by
    induction ss with
    | nil => exact List.nil_prefix
    | cons s ss ih =>
      rcases ss with _ | ⟨s', ss⟩
      · rcases rest with _ | ⟨r, rest⟩
        · exact List.prefix_rfl
        · simp [List.intercalate_cons_cons]
      · rw [List.cons_append, List.cons_append, List.intercalate_cons_cons,
          List.intercalate_cons_cons]
        exact (List.prefix_append_right_inj _).mpr ih
  cases a with
  | floating => exact hintercalate
  | root => exact (List.prefix_cons_inj slash).mpr hintercalate
  | here =>
    rcases ss with _ | ⟨s, ss⟩
    · rcases rest with _ | ⟨r, rest⟩
      · exact List.prefix_rfl
      · exact List.prefix_append [dot] _
    · exact (List.prefix_cons_inj dot).mpr ((List.prefix_cons_inj slash).mpr hintercalate)

/-! ## The parent -/

/-- What is trimmed is what follows the last segment that is not void. -/
theorem trimVoid_cases (ss : List Segment) :
    (trimVoid ss = [] ∧ ∀ s ∈ ss, isVoid s = true) ∨
      ∃ init s voids, ss = init ++ s :: voids ∧ isVoid s = false ∧
        (∀ v ∈ voids, isVoid v = true) ∧ trimVoid ss = init ++ [s] := by
  induction ss using List.reverseRecOn with
  | nil => exact Or.inl ⟨rfl, by simp⟩
  | append_singleton ss s ih =>
    cases hs : isVoid s with
    | false => exact Or.inr ⟨ss, s, [], rfl, hs, by simp, by simp [trimVoid, hs]⟩
    | true =>
      rw [trimVoid_concat_of_isVoid hs]
      rcases ih with ⟨htrim, hvoid⟩ | ⟨init, s', voids, rfl, hs', hvoid, htrim⟩
      · exact Or.inl ⟨htrim, List.forall_mem_append.mpr ⟨hvoid, by simpa using hs⟩⟩
      · exact Or.inr ⟨init, s', voids ++ [s], by simp, hs',
          List.forall_mem_append.mpr ⟨hvoid, by simpa using hs⟩, htrim⟩

theorem isPrefix_trimVoid (ss : List Segment) : trimVoid ss <+: ss := by
  rcases trimVoid_cases ss with ⟨htrim, -⟩ | ⟨init, s, voids, hss, -, -, htrim⟩
  · rw [htrim]
    exact List.nil_prefix
  · rw [htrim, hss]
    exact ⟨voids, by simp⟩

theorem filter_trimVoid (ss : List Segment) :
    (trimVoid ss).filter (!isVoid ·) = ss.filter (!isVoid ·) := by
  have hnone : ∀ {voids : List Segment}, (∀ v ∈ voids, isVoid v = true) →
      voids.filter (!isVoid ·) = [] :=
    fun hvoid => List.filter_eq_nil_iff.mpr fun v hv => by simp [hvoid v hv]
  rcases trimVoid_cases ss with ⟨htrim, hvoid⟩ | ⟨init, s, voids, hss, -, hvoid, htrim⟩
  · rw [htrim, hnone hvoid]
    rfl
  · rw [htrim, hss, List.append_cons init s voids, List.filter_append (init ++ [s]), hnone hvoid,
      List.append_nil]

/-- A path without names has no parent, or the empty path for one; any other has the path without
the last name. -/
theorem parent?_cases (p : Path) :
    p.names = [] ∧ p.parent? = none ∨
      p.names = [] ∧ p.anchor = .here ∧ p.parent? = some empty ∨
      ∃ init s voids, p.body = init ++ s :: voids ∧ p.names = init.filter (!isVoid ·) ++ [s] ∧
        p.parent? = some (ofBody p.anchor (trimVoid init)) := by
  unfold parent?
  rcases trimVoid_cases p.body with ⟨htrim, hvoid⟩ | ⟨init, s, voids, hbody, hs, hvoid, htrim⟩
  · have hnames : p.names = [] := by
      rw [names, ← filter_trimVoid, htrim]
      rfl
    rw [htrim]
    by_cases hanchor : p.anchor = .here
    · exact Or.inr (Or.inl ⟨hnames, hanchor, if_pos hanchor⟩)
    · exact Or.inl ⟨hnames, if_neg hanchor⟩
  · refine Or.inr (Or.inr ⟨init, s, voids, hbody, ?_, ?_⟩)
    · rw [names, ← filter_trimVoid, htrim, List.filter_append,
        List.filter_cons_of_pos (by simp [hs]), List.filter_nil]
    · rw [htrim]
      rcases hinit : init ++ [s] with _ | ⟨s', ss⟩
      · simp at hinit
      · show some (ofBody p.anchor (trimVoid (s' :: ss).dropLast)) = _
        rw [← hinit, List.dropLast_concat]

theorem names_eq_nil_of_parent? (h : p.parent? = none) : p.names = [] := by
  rcases p.parent?_cases with ⟨hnames, -⟩ | ⟨hnames, -⟩ | ⟨init, s, voids, -, -, hparent⟩
  · exact hnames
  · exact hnames
  · cases h.symm.trans hparent

/-- The parent has the names without the last one. -/
theorem names_of_parent? (h : p.parent? = some q) : q.names = p.names.dropLast := by
  rcases p.parent?_cases with ⟨-, hparent⟩ | ⟨hnames, -, hparent⟩ |
    ⟨init, s, voids, hbody, hnames, hparent⟩
  · cases h.symm.trans hparent
  · cases h.symm.trans hparent
    rw [hnames]
    rfl
  · cases h.symm.trans hparent
    have hslash : ∀ s ∈ trimVoid init, slash ∉ s := by
      intro x hx
      refine slash_notMem_of_mem_segments (mem_segments_of_mem_body (p := p) ?_)
      rw [hbody]
      exact List.mem_append_left _ ((isPrefix_trimVoid init).subset hx)
    rw [names_ofBody _ hslash, filter_trimVoid, hnames, List.dropLast_concat]

/-- The parent has fewer bytes, none of which changes. -/
theorem isPrefix_bytes_of_parent? (h : p.parent? = some q) :
    q.bytes <+: p.bytes ∧ q.bytes.length < p.bytes.length := by
  have hlt : ∀ {r : Path}, r.bytes <+: p.bytes → r ≠ p → r.bytes.length < p.bytes.length := by
    intro r hfront hne
    refine Nat.lt_of_le_of_ne hfront.length_le fun hlength => hne ?_
    exact congrArg Path.mk (hfront.eq_of_length hlength)
  rcases p.parent?_cases with ⟨-, hparent⟩ | ⟨hnames, hanchor, hparent⟩ |
    ⟨init, s, voids, hbody, hnames, hparent⟩
  · cases h.symm.trans hparent
  · cases h.symm.trans hparent
    refine ⟨List.nil_prefix, hlt List.nil_prefix ?_⟩
    rintro rfl
    cases hanchor
  · cases h.symm.trans hparent
    obtain ⟨rest, hrest⟩ : ∃ rest, p.body = trimVoid init ++ rest := by
      obtain ⟨more, hmore⟩ := isPrefix_trimVoid init
      exact ⟨more ++ s :: voids, by rw [← List.append_assoc, hmore, hbody]⟩
    have hfront : (ofBody p.anchor (trimVoid init)).bytes <+: p.bytes := by
      have hofBody := isPrefix_bytes_ofBody p.anchor (trimVoid init) rest
      rwa [← hrest, ofBody_anchor_body] at hofBody
    refine ⟨hfront, hlt hfront fun heq => ?_⟩
    have hdropLast := names_of_parent? h
    rw [heq, hnames, List.dropLast_concat] at hdropLast
    simpa using congrArg List.length hdropLast

theorem isAbsolute_of_parent? {p q : Path} (hp : p.isAbsolute = true) (h : p.parent? = some q) :
    q.isAbsolute = true := by
  have hanchor : p.anchor = .root := anchor_eq_root_iff.mpr hp
  unfold parent? at h
  rw [hanchor] at h
  split at h
  · simp at h
  · cases h
    rfl

/-- Going up leads from no absolute path to a relative one, and from no relative path to an absolute
one. -/
theorem isAbsolute_eq_of_parent? (h : p.parent? = some q) : q.isAbsolute = p.isAbsolute := by
  cases hp : p.isAbsolute with
  | true => exact isAbsolute_of_parent? hp h
  | false =>
    obtain ⟨rest, hrest⟩ := (isPrefix_bytes_of_parent? h).1
    cases hq : q.isAbsolute with
    | false => rfl
    | true =>
      obtain ⟨bs, rfl⟩ := exists_eq_cons_slash (anchor_eq_root_iff.mpr hq)
      unfold isAbsolute at hp
      rw [← hrest] at hp
      cases hp

/-- An absolute path and its ancestors have as names all beginnings of its own, the longest first. -/
theorem names_ancestors (hp : p.isAbsolute = true) :
    p.ancestors.map names = p.names.inits.reverse := by
  have hparents : ∀ n (q : Path), q.isAbsolute = true → q.names.length ≤ n →
      (q :: parents n q).map names = q.names.inits.reverse := by
    intro n
    induction n with
    | zero =>
      intro q _ hn
      have hnames : q.names = [] := List.eq_nil_of_length_eq_zero (Nat.le_zero.mp hn)
      simp [parents, hnames]
    | succ n ih =>
      intro q hq hn
      rw [parents]
      cases hparent : q.parent? with
      | none => simp [names_eq_nil_of_parent? hparent]
      | some r =>
        rcases q.parent?_cases with ⟨-, hnone⟩ | ⟨-, hanchor, -⟩ | ⟨init, s, -, -, hnames, -⟩
        · cases hparent.symm.trans hnone
        · cases hanchor.symm.trans (anchor_eq_root_iff.mpr hq)
        · have hr : r.names = init.filter (!isVoid ·) := by
            rw [names_of_parent? hparent, hnames, List.dropLast_concat]
          have hlength : r.names.length ≤ n := by
            rw [hnames, ← hr, List.length_append, List.length_singleton] at hn
            omega
          rw [List.map_cons, ih r (isAbsolute_of_parent? hq hparent) hlength, hnames, ← hr]
          simp [List.inits_append]
  exact hparents _ p hp (Nat.le_succ _)

/-! ## Joining -/

/-- What is joined comes after the bytes of the base, and after a slash where the base needs one. -/
theorem exists_bytes_join (base : Path) {tail : Path} (htail : tail.isAbsolute = false) :
    ∃ sep, (sep = [] ∨ sep = [slash]) ∧
      (base.join tail).bytes = base.bytes ++ sep ++ tail.bytes := by
  unfold join
  rw [htail]
  by_cases hbase : (base.bytes = [] || base.endsWithSlash) = true
  · exact ⟨[], Or.inl rfl, by simp [hbase]⟩
  · exact ⟨[slash], Or.inr rfl, by simp [hbase]⟩

/-- The end of the path is the end of what is joined. -/
theorem endsWithSlash_join (base : Path) {tail : Path} (hne : tail.bytes ≠ [])
    (htail : tail.isAbsolute = false) : (base.join tail).endsWithSlash = tail.endsWithSlash := by
  obtain ⟨sep, -, hbytes⟩ := exists_bytes_join base htail
  unfold endsWithSlash
  rw [hbytes, List.getLast?_append_of_ne_nil _ hne]

/-- What is joined to a relative path is relative. -/
theorem isAbsolute_join_eq (base : Path) {tail : Path} (htail : tail.isAbsolute = false) :
    (base.join tail).isAbsolute = base.isAbsolute := by
  obtain ⟨bytes⟩ := base
  rcases bytes with _ | ⟨b, bs⟩
  · unfold join
    rw [htail]
    exact htail
  · obtain ⟨sep, -, hbytes⟩ := exists_bytes_join ⟨b :: bs⟩ htail
    unfold isAbsolute
    rw [hbytes]
    rfl

/-- What is joined keeps its segments, and those before them have the names of the base. -/
theorem exists_segments_join (base : Path) {tail : Path} (htail : tail.isAbsolute = false) :
    ∃ init, (base.join tail).segments = init ++ tail.segments ∧
      init.filter (!isVoid ·) = base.names := by
  have hsplit : ∀ before : List UInt8,
      (before ++ slash :: tail.bytes).splitOn slash = before.splitOn slash ++ tail.segments :=
    fun before => List.splitOn_append_cons_self before _
  rw [names_eq_filter]
  unfold join segments
  rw [htail]
  by_cases hnil : base.bytes = []
  · exact ⟨[], by simp [hnil], by simp [hnil, isVoid]⟩
  by_cases hslash : base.endsWithSlash = true
  · obtain ⟨bs, hbs⟩ : ∃ bs, base.bytes = bs ++ [slash] :=
      List.getLast?_eq_some_iff.mp (by simpa [endsWithSlash] using hslash)
    refine ⟨bs.splitOn slash, ?_, ?_⟩
    · simp only [hslash, Bool.or_true, Bool.false_eq_true, if_false, if_true]
      rw [hbs, List.append_assoc, List.singleton_append]
      exact hsplit bs
    · rw [hbs, List.splitOn_append_cons_self, List.filter_append, List.splitOn_nil]
      simp [isVoid]
  · refine ⟨base.bytes.splitOn slash, ?_, rfl⟩
    simp only [hnil, hslash, decide_false, Bool.or_self, Bool.false_eq_true, if_false]
    exact hsplit base.bytes

/-- What is joined comes after the names of the base. -/
theorem names_join (base : Path) {tail : Path} (htail : tail.isAbsolute = false) :
    (base.join tail).names = base.names ++ tail.names := by
  obtain ⟨init, hsegments, hnames⟩ := exists_segments_join base htail
  rw [names_eq_filter, hsegments, List.filter_append, hnames, ← names_eq_filter]

end ModuleMap.Path
