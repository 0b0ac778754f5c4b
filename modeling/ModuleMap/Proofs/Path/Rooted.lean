import Mathlib.Data.List.Flatten
import ModuleMap.Path.Normalize

/-!
# Absolute paths as lists of names

The path `ofBody .root ns` is a slash before each of the names `ns`, or the root if there are none.
That is the shortest spelling of an absolute path, and the one that the lexical operations give:
what they take away or add is then a name at the end of the list.

* `Path.IsNaming`: what can stand in such a list, with `Path.isNaming_of_mem_names`.
* `Path.bytes_ofBody_root`, `Path.body_ofBody_root`, `Path.names_ofBody_root`: the bytes, the body
  and the names of the path.
* `Path.ofBody_root_body`: an absolute path is spelled by the segments after its anchor.
* `Path.IsShortest`: whether that is how a path is spelled, as it is after
  `Path.join_ofBody_root`.
* `Path.IsTrimmed`: an absolute path that has nothing void but a slash at its end, as every normal
  form has (`Path.isTrimmed_normalize`).
* `Path.enclosing`: the directories around a path, which are the proper ancestors of a trimmed one
  (`Path.properAncestors_eq`).
-/

namespace ModuleMap.Path

/-! ## Segments -/

/-- There is no slash between slashes. -/
theorem slash_notMem_of_mem_segments {p : Path} {s : Segment} (hs : s ∈ p.segments) :
    slash ∉ s := by
  obtain ⟨bytes⟩ := p
  change s ∈ bytes.splitOn slash at hs
  induction bytes generalizing s with
  | nil =>
    rw [List.splitOn_nil, List.mem_singleton] at hs
    simp [hs]
  | cons b bs ih =>
    rw [List.splitOn_cons_eq_if_modifyHead] at hs
    split at hs
    · rcases List.mem_cons.mp hs with rfl | hs
      · simp
      · exact ih hs
    · next hb =>
      rcases hbs : bs.splitOn slash with _ | ⟨first, rest⟩
      · exact absurd hbs (List.splitOn_ne_nil slash bs)
      · rw [hbs] at hs ih
        rcases List.mem_cons.mp hs with rfl | hs
        · have hfirst : slash ∉ first := ih List.mem_cons_self
          rw [List.mem_cons, not_or]
          exact ⟨fun h => hb (beq_iff_eq.mpr h.symm), hfirst⟩
        · exact ih (List.mem_cons_of_mem _ hs)

/-- A segment that can name something: it is not void, and no slash is in it. -/
def IsNaming (s : Segment) : Prop :=
  slash ∉ s ∧ isVoid s = false

theorem IsNaming.ne_nil {s : Segment} (h : IsNaming s) : s ≠ [] := by
  rintro rfl
  exact absurd h.2 (by decide)

theorem mem_segments_of_mem_body {p : Path} {s : Segment} (hs : s ∈ p.body) : s ∈ p.segments := by
  unfold body at hs
  split at hs
  · exact List.mem_of_mem_tail hs
  · exact List.mem_of_mem_tail hs
  · exact hs

/-- The names in a path can name something. -/
theorem isNaming_of_mem_names {p : Path} {s : Segment} (hs : s ∈ p.names) : IsNaming s := by
  obtain ⟨hbody, hvoid⟩ := List.mem_filter.mp hs
  exact ⟨slash_notMem_of_mem_segments (mem_segments_of_mem_body hbody), by simpa using hvoid⟩

/-- Void segments at the end are left out. -/
theorem trimVoid_concat_of_isVoid {s : Segment} (hs : isVoid s = true) (ss : List Segment) :
    trimVoid (ss ++ [s]) = trimVoid ss := by
  simp [trimVoid, hs]

/-- Where no segment is void, none is left out. -/
theorem trimVoid_eq_self {ss : List Segment} (h : ∀ s ∈ ss, isVoid s = false) :
    trimVoid ss = ss := by
  rcases List.eq_nil_or_concat ss with rfl | ⟨ss, s, rfl⟩
  · rfl
  · have hs : isVoid s = false := h s (by simp)
    simp [trimVoid, hs]

/-! ## Bytes, body and names -/

/-- The bytes are a slash before each segment. -/
theorem bytes_ofBody_root {ss : List Segment} (hne : ss ≠ []) :
    (ofBody .root ss).bytes = ss.flatMap (slash :: ·) := by
  show slash :: [slash].intercalate ss = _
  induction ss with
  | nil => exact absurd rfl hne
  | cons s ss ih =>
    rcases ss with _ | ⟨s', ss⟩
    · simp
    · rw [List.intercalate_cons_cons, List.flatMap_cons, ← ih (List.cons_ne_nil _ _)]
      simp

theorem anchor_eq_root_iff {p : Path} : p.anchor = .root ↔ p.isAbsolute = true := by
  unfold anchor
  split
  · next h => simp [h]
  · next h => split <;> simp [h]

@[simp] theorem anchor_ofBody_root (ss : List Segment) : (ofBody .root ss).anchor = .root := rfl

theorem exists_eq_cons_slash {p : Path} (h : p.anchor = .root) : ∃ bs, p = ⟨slash :: bs⟩ := by
  obtain ⟨bytes⟩ := p
  rcases bytes with _ | ⟨b, bs⟩
  · cases h
  · have habsolute := anchor_eq_root_iff.mp h
    have hb : b = slash := by simpa [isAbsolute] using habsolute
    exact ⟨bs, by rw [hb]⟩

/-- Before its body an absolute path has an empty segment. -/
theorem segments_cons_slash (bs : List UInt8) :
    segments ⟨slash :: bs⟩ = [] :: bs.splitOn slash := by
  rw [segments, List.splitOn_cons_eq_if_modifyHead]
  rfl

theorem body_cons_slash (bs : List UInt8) : body ⟨slash :: bs⟩ = bs.splitOn slash := by
  show (segments ⟨slash :: bs⟩).tail = _
  rw [segments_cons_slash, List.tail_cons]

theorem segments_eq_cons_body {p : Path} (h : p.anchor = .root) : p.segments = [] :: p.body := by
  obtain ⟨bs, rfl⟩ := exists_eq_cons_slash h
  rw [segments_cons_slash, body_cons_slash]

/-- An absolute path is spelled by the segments after its anchor. -/
theorem ofBody_root_body {p : Path} (h : p.anchor = .root) : ofBody .root p.body = p := by
  obtain ⟨bs, rfl⟩ := exists_eq_cons_slash h
  rw [body_cons_slash, ofBody, ofSegments, List.intercalate_splitOn]

/-- The body of an absolute path is what was put there. -/
theorem body_ofBody_root {ss : List Segment} (h : ∀ s ∈ ss, slash ∉ s) (hne : ss ≠ []) :
    (ofBody .root ss).body = ss := by
  rw [ofBody, ofSegments, body_cons_slash, List.splitOn_intercalate slash h hne]

/-- The names of the path are the names in the list. -/
theorem names_ofBody_root {ns : List Segment} (h : ∀ s ∈ ns, IsNaming s) :
    (ofBody .root ns).names = ns := by
  rcases ns with _ | ⟨n, ns⟩
  · rfl
  · unfold names
    rw [body_ofBody_root (fun s hs => (h s hs).1) (List.cons_ne_nil _ _), List.filter_eq_self]
    intro s hs
    rw [(h s hs).2]
    rfl

/-- The path does not end with a slash, unless it is the root. -/
theorem endsWithSlash_ofBody_root {ns : List Segment} (h : ∀ s ∈ ns, IsNaming s) (hne : ns ≠ []) :
    (ofBody .root ns).endsWithSlash = false := by
  unfold endsWithSlash
  rw [bytes_ofBody_root hne]
  rcases List.eq_nil_or_concat ns with rfl | ⟨ns, n, rfl⟩
  · exact absurd rfl hne
  · have hn : IsNaming n := h n (by simp)
    rw [List.concat_eq_append, List.flatMap_append, List.flatMap_singleton, List.getLast?_append,
      List.getLast?_cons_of_ne_nil hn.ne_nil]
    rcases hlast : n.getLast? with _ | b
    · exact absurd (List.getLast?_eq_none_iff.mp hlast) hn.ne_nil
    · have hb : b ≠ slash := fun heq => hn.1 (heq ▸ List.mem_of_getLast? hlast)
      simpa using hb

/-! ## Joining -/

/-- What is joined to an absolute path is absolute. -/
theorem isAbsolute_join {base : Path} (hbase : base.isAbsolute = true) (tail : Path) :
    (base.join tail).isAbsolute = true := by
  obtain ⟨bs, rfl⟩ := exists_eq_cons_slash (anchor_eq_root_iff.mpr hbase)
  unfold join
  cases htail : tail.isAbsolute with
  | true => exact htail
  | false => cases endsWithSlash ⟨slash :: bs⟩ <;> rfl

/-- What is joined to the path comes after the names. -/
theorem join_ofBody_root {ns : List Segment} {tail : Path} (h : ∀ s ∈ ns, IsNaming s)
    (htail : tail.isAbsolute = false) :
    (ofBody .root ns).join tail = ofBody .root (ns ++ [tail.bytes]) := by
  have hjoined : (ofBody .root (ns ++ [tail.bytes])).bytes =
      (ns ++ [tail.bytes]).flatMap (slash :: ·) := bytes_ofBody_root (by simp)
  unfold join
  rw [htail]
  rcases ns with _ | ⟨n, ns⟩
  · have hroot : endsWithSlash ⟨[slash]⟩ = true := rfl
    simp [hroot, ofBody, ofSegments]
  · have hne : n :: ns ≠ [] := List.cons_ne_nil _ _
    have hbytes := bytes_ofBody_root hne
    rw [endsWithSlash_ofBody_root h hne]
    rw [List.flatMap_append, List.flatMap_singleton, ← hbytes] at hjoined
    have hnonempty : (ofBody .root (n :: ns)).bytes ≠ [] := by simp [hbytes]
    simp only [hnonempty, decide_false, Bool.or_self, Bool.false_eq_true, if_false, ← hjoined]

/-- The path is a slash before each of its names. -/
def IsShortest (p : Path) : Prop :=
  ofBody .root p.names = p

theorem IsShortest.anchor_eq {p : Path} (hp : p.IsShortest) : p.anchor = .root := by
  rw [← hp, anchor_ofBody_root]

theorem isShortest_ofBody_root {ns : List Segment} (h : ∀ s ∈ ns, IsNaming s) :
    (ofBody .root ns).IsShortest := by
  rw [IsShortest, names_ofBody_root h]

/-- A name is a relative path. -/
theorem IsNaming.isAbsolute_eq {tail : Path} (h : IsNaming tail.bytes) :
    tail.isAbsolute = false := by
  rcases hbytes : tail.bytes with _ | ⟨b, bs⟩
  · simp [isAbsolute, hbytes]
  · have hb : b ≠ slash := fun heq => h.1 (by rw [hbytes, heq]; exact List.mem_cons_self)
    simpa [isAbsolute, hbytes] using hb

/-- A name joined to a list of names gives a shortest spelling again. -/
theorem isShortest_join {ns : List Segment} {tail : Path} (h : ∀ s ∈ ns, IsNaming s)
    (htail : IsNaming tail.bytes) : ((ofBody .root ns).join tail).IsShortest := by
  rw [join_ofBody_root h htail.isAbsolute_eq]
  refine isShortest_ofBody_root fun s hs => ?_
  rcases List.mem_append.mp hs with hs | hs
  · exact h s hs
  · exact List.mem_singleton.mp hs ▸ htail

/-! ## Going up -/

/-- An absolute path in which nothing is void but segments at the end. -/
structure IsTrimmed (p : Path) : Prop where
  anchor_eq : p.anchor = .root
  trimVoid_body : trimVoid p.body = p.names

theorem isTrimmed_ofBody_root {ns : List Segment} (h : ∀ s ∈ ns, IsNaming s) :
    (ofBody .root ns).IsTrimmed := by
  refine ⟨rfl, ?_⟩
  rw [names_ofBody_root h]
  rcases ns with _ | ⟨n, ns⟩
  · rfl
  · rw [body_ofBody_root (fun s hs => (h s hs).1) (List.cons_ne_nil _ _),
      trimVoid_eq_self fun s hs => (h s hs).2]

/-- The parent is the path without its last name. -/
theorem parent?_eq {p : Path} (hp : p.IsTrimmed) :
    p.parent? = if p.names = [] then none else some (ofBody .root p.names.dropLast) := by
  unfold parent?
  rw [hp.trimVoid_body, hp.anchor_eq]
  rcases hnames : p.names with _ | ⟨n, ns⟩
  · rfl
  · have hvoid : ∀ s ∈ (n :: ns).dropLast, isVoid s = false := by
      intro s hs
      have hmem : s ∈ p.names := hnames ▸ List.dropLast_subset _ hs
      exact (isNaming_of_mem_names hmem).2
    simp only [trimVoid_eq_self hvoid]
    rfl

/-- The directories around an absolute path, innermost first: each has one name fewer, down to the
root. -/
def enclosing (p : Path) : List Path :=
  (List.range p.names.length).reverse.map fun k => ofBody .root (p.names.take k)

/-- The directories around a path are that without its last name, and those around that. -/
theorem enclosing_ofBody_root_concat {ns : List Segment} {n : Segment}
    (h : ∀ s ∈ ns ++ [n], IsNaming s) :
    (ofBody .root (ns ++ [n])).enclosing = ofBody .root ns :: (ofBody .root ns).enclosing := by
  have hns : ∀ s ∈ ns, IsNaming s := fun s hs => h s (List.mem_append_left _ hs)
  unfold enclosing
  rw [names_ofBody_root h, names_ofBody_root hns, List.length_append, List.length_singleton,
    List.range_succ, List.reverse_append, List.reverse_singleton, List.singleton_append,
    List.map_cons, List.take_left]
  congr 1
  refine List.map_congr_left fun k hk => ?_
  have hk' : k < ns.length := List.mem_range.mp (List.mem_reverse.mp hk)
  rw [List.take_append_of_le_length (by omega)]

theorem parents_ofBody_root {n : Nat} {ns : List Segment} (h : ∀ s ∈ ns, IsNaming s)
    (hn : ns.length < n) : parents n (ofBody .root ns) = (ofBody .root ns).enclosing := by
  induction n generalizing ns with
  | zero => exact absurd hn (Nat.not_lt_zero _)
  | succ n ih =>
    rw [parents, parent?_eq (isTrimmed_ofBody_root h), names_ofBody_root h]
    rcases List.eq_nil_or_concat ns with rfl | ⟨ns, s, rfl⟩
    · rfl
    · rw [List.concat_eq_append] at h hn ⊢
      have hns : ∀ s ∈ ns, IsNaming s := fun s hs => h s (List.mem_append_left _ hs)
      have hlength : ns.length < n := by
        rw [List.length_append, List.length_singleton] at hn
        omega
      rw [if_neg (by simp), List.dropLast_concat, enclosing_ofBody_root_concat h,
        ← ih hns hlength]

/-- The proper ancestors of a trimmed path are the directories around it. -/
theorem properAncestors_eq {p : Path} (hp : p.IsTrimmed) : p.properAncestors = p.enclosing := by
  have hnames : ∀ s ∈ p.names, IsNaming s := fun s hs => isNaming_of_mem_names hs
  have hshort : (ofBody .root p.names).properAncestors = (ofBody .root p.names).enclosing :=
    parents_ofBody_root hnames (by rw [names_ofBody_root hnames]; exact Nat.lt_succ_self _)
  have hparent : p.parent? = (ofBody .root p.names).parent? := by
    rw [parent?_eq hp, parent?_eq (isTrimmed_ofBody_root hnames), names_ofBody_root hnames]
  calc p.properAncestors = (ofBody .root p.names).properAncestors := by
        unfold properAncestors
        rw [parents, parents, hparent, names_ofBody_root hnames]
    _ = p.enclosing := by
        rw [hshort]
        unfold enclosing
        rw [names_ofBody_root hnames]

/-- A directory around a path has only names of the path. -/
theorem exists_names_of_mem_enclosing {p d : Path} (hd : d ∈ p.enclosing) :
    ∃ ns : List Segment, (∀ s ∈ ns, IsNaming s) ∧ d = ofBody .root ns := by
  obtain ⟨k, -, rfl⟩ := List.mem_map.mp hd
  exact ⟨_, fun s hs => isNaming_of_mem_names (List.mem_of_mem_take hs), rfl⟩

/-! ## Normal forms -/

/-- A segment that is on the stack after a push was there before or is the one pushed. -/
theorem mem_of_mem_push {stack : List Segment} {s x : Segment} (hx : x ∈ push true stack s) :
    x ∈ stack ∨ x = s ∧ s ≠ dotDot := by
  unfold push at hx
  split at hx
  · rcases stack with _ | ⟨top, rest⟩
    · simp at hx
    · dsimp only at hx
      split at hx
      · next htop =>
        rcases List.mem_cons.mp hx with rfl | hx
        · exact Or.inl (htop ▸ List.mem_cons_self)
        · exact Or.inl hx
      · exact Or.inl (List.mem_cons_of_mem _ hx)
  · next hs =>
    rcases List.mem_cons.mp hx with rfl | hx
    · exact Or.inr ⟨rfl, hs⟩
    · exact Or.inl hx

theorem mem_of_mem_foldl_push {ss stack : List Segment} {x : Segment}
    (hx : x ∈ ss.foldl (push true) stack) : x ∈ stack ∨ x ∈ ss ∧ x ≠ dotDot := by
  induction ss generalizing stack with
  | nil => exact Or.inl hx
  | cons s ss ih =>
    rcases ih hx with hpush | ⟨hmem, hne⟩
    · rcases mem_of_mem_push hpush with hstack | ⟨rfl, hne⟩
      · exact Or.inl hstack
      · exact Or.inr ⟨List.mem_cons_self, hne⟩
    · exact Or.inr ⟨List.mem_cons_of_mem _ hmem, hne⟩

/-- Above the root, settling leaves no `..`, and nothing else that was not there. -/
theorem mem_of_mem_settle {ss : List Segment} {x : Segment} (hx : x ∈ settle true ss) :
    x ∈ ss ∧ x ≠ dotDot := by
  rcases mem_of_mem_foldl_push (List.mem_reverse.mp hx) with hnil | h
  · exact absurd hnil List.not_mem_nil
  · exact h

/-- A slash at the end is one more segment, which is empty. -/
theorem closeWithSlash_ofBody_root {ns : List Segment} (h : ∀ s ∈ ns, IsNaming s) (hne : ns ≠ []) :
    (ofBody .root ns).closeWithSlash = ofBody .root (ns ++ [[]]) ∧
      (ofBody .root (ns ++ [[]])).body = ns ++ [[]] := by
  have hbytes : (ofBody .root (ns ++ [[]])).bytes = (ns ++ [[]]).flatMap (slash :: ·) :=
    bytes_ofBody_root (by simp)
  rw [List.flatMap_append, ← bytes_ofBody_root hne, List.flatMap_singleton] at hbytes
  refine ⟨?_, body_ofBody_root (fun s hs => ?_) (by simp)⟩
  · unfold closeWithSlash
    rw [endsWithSlash_ofBody_root h hne, ← hbytes]
    rfl
  · rcases List.mem_append.mp hs with hs | hs
    · exact (h s hs).1
    · simp [List.mem_singleton.mp hs]

/-- A slash at the end is void. -/
theorem isTrimmed_closeWithSlash {ns : List Segment} (h : ∀ s ∈ ns, IsNaming s) :
    (ofBody .root ns).closeWithSlash.IsTrimmed ∧ (ofBody .root ns).closeWithSlash.names = ns := by
  rcases ns with _ | ⟨n, ns⟩
  · exact ⟨isTrimmed_ofBody_root h, rfl⟩
  · obtain ⟨hclosed, hbody⟩ := closeWithSlash_ofBody_root h (List.cons_ne_nil n ns)
    have hnames : (ofBody .root (n :: ns ++ [[]])).names = n :: ns := by
      unfold names
      rw [hbody, List.filter_append, List.filter_eq_self.mpr fun s hs => by simp [(h s hs).2],
        List.filter_cons_of_neg (by decide), List.filter_nil, List.append_nil]
    rw [hclosed]
    refine ⟨⟨rfl, ?_⟩, hnames⟩
    rw [hbody, hnames, trimVoid_concat_of_isVoid rfl, trimVoid_eq_self fun s hs => (h s hs).2]

/-- The normal form of an absolute path has nothing void but a slash at its end, and no `..`. -/
theorem isTrimmed_normalize {p : Path} (hp : p.isAbsolute = true) :
    p.normalize.IsTrimmed ∧ dotDot ∉ p.normalize.names := by
  have hnaming : ∀ s ∈ settle true (p.names ++ empty.names), IsNaming s := by
    intro s hs
    rcases List.mem_append.mp (mem_of_mem_settle hs).1 with hmem | hmem
    · exact isNaming_of_mem_names hmem
    · exact isNaming_of_mem_names hmem
  have hdotDot : dotDot ∉ settle true (p.names ++ empty.names) :=
    fun hmem => (mem_of_mem_settle hmem).2 rfl
  have hjoined : ofSettled p.isAbsolute (settle p.isAbsolute (p.names ++ empty.names)) =
      ofBody .root (settle true (p.names ++ empty.names)) := by
    rw [hp]
    rfl
  unfold normalize joinNormalized
  simp only [hjoined]
  cases if empty.bytes = [] then p.endsWithSlash else empty.endsWithSlash with
  | false =>
    simp only [Bool.false_eq_true, if_false, names_ofBody_root hnaming]
    exact ⟨isTrimmed_ofBody_root hnaming, hdotDot⟩
  | true =>
    obtain ⟨htrimmed, hnames⟩ := isTrimmed_closeWithSlash hnaming
    simp only [if_true, hnames]
    exact ⟨htrimmed, hdotDot⟩

end ModuleMap.Path
