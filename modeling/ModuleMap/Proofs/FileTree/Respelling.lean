import ModuleMap.Proofs.FileTree.Passed

/-!
# Paths with the same components

Paths with the same components differ in void segments only, and what these change is little.  A
void segment leads nowhere, but it makes the path longer, and at the end of a path it asks for a
directory.  So a file that is found under one spelling, or is found to be missing, is found so under
all others that are not too long and do not ask for a directory in its place.

* `Path.bytes_eq_nil_iff`, `Path.nul_mem_bytes_iff`: what the components say about the bytes.
* `Path.asksDirectory`, `FileTree.namesNoDirectory`, `FileTree.spellingFault?`: what can be wrong
  with a spelling.
* `FileTree.walk_of_walk_filter_eq_error`, `FileTree.walk_of_not_isOpen`: void segments on the way to
  what is no directory.
* `FileTree.nodeAt_of_components_eq`, `FileTree.readOptional_of_components_eq`: what is found under
  another spelling.
* `FileTree.spellingFault?_names`: the shortest spelling.
-/

namespace ModuleMap

namespace Path

variable {p q : Path}

/-! ## Components and bytes -/

theorem isAbsolute_eq_of_components_eq (h : p.components = q.components) :
    p.isAbsolute = q.isAbsolute := by
  have hanchor : p.anchor = q.anchor := congrArg Prod.fst h
  rw [Bool.eq_iff_iff, ← anchor_eq_root_iff, ← anchor_eq_root_iff, hanchor]

/-- Only the path of no bytes has no component and no anchor. -/
theorem bytes_eq_nil_iff : p.bytes = [] ↔ p.components = (.floating, []) := by
  obtain ⟨bytes⟩ := p
  constructor
  · rintro rfl
    rfl
  · intro h
    rcases bytes with _ | ⟨b, bs⟩
    · rfl
    have hanchor : (⟨b :: bs⟩ : Path).anchor = .floating := congrArg Prod.fst h
    have hnames : (⟨b :: bs⟩ : Path).names = [] := congrArg Prod.snd h
    rw [names_eq_filter, List.filter_eq_nil_iff] at hnames
    unfold anchor at hanchor
    split at hanchor
    · cases hanchor
    · next habsolute =>
      have hb : ¬ (b == slash) = true := by
        intro hb
        exact habsolute (by simp [isAbsolute, beq_iff_eq.mp hb])
      obtain ⟨first, rest, hsplit⟩ :=
        List.exists_cons_of_ne_nil (List.splitOn_ne_nil slash bs)
      have hsegments : (⟨b :: bs⟩ : Path).segments = (b :: first) :: rest := by
        show (b :: bs).splitOn slash = _
        rw [List.splitOn_cons_eq_if_modifyHead, if_neg hb, hsplit]
        rfl
      rw [hsegments] at hanchor hnames
      -- The first segment is not empty, and if it is `.`, the path starts there.
      have hvoid : isVoid (b :: first) = true := by simpa using hnames _ List.mem_cons_self
      rw [isVoid, Bool.or_eq_true, beq_iff_eq, beq_iff_eq] at hvoid
      rcases hvoid with hnil | hdot
      · cases hnil
      · rw [List.head?_cons, if_pos (congrArg some hdot)] at hanchor
        cases hanchor

/-- All bytes but the slashes are in the segments. -/
theorem mem_bytes_iff {b : UInt8} (hb : b ≠ slash) : b ∈ p.bytes ↔ ∃ s ∈ p.segments, b ∈ s := by
  obtain ⟨bytes⟩ := p
  show b ∈ bytes ↔ ∃ s ∈ bytes.splitOn slash, b ∈ s
  induction bytes with
  | nil => simp
  | cons c bytes ih =>
    rw [List.mem_cons, ih, List.splitOn_cons_eq_if_modifyHead]
    split
    · next hc =>
      rw [beq_iff_eq] at hc
      simp [hc, hb]
    · obtain ⟨first, rest, hsplit⟩ :=
        List.exists_cons_of_ne_nil (List.splitOn_ne_nil slash bytes)
      rw [hsplit]
      simp [or_assoc]

/-- A NUL byte is in one of the names. -/
theorem nul_mem_bytes_iff : 0 ∈ p.bytes ↔ ∃ s ∈ p.names, 0 ∈ s := by
  rw [mem_bytes_iff (by decide), names_eq_filter]
  constructor
  · rintro ⟨s, hs, h⟩
    refine ⟨s, List.mem_filter.mpr ⟨hs, ?_⟩, h⟩
    rw [Bool.not_eq_true', Bool.eq_false_iff]
    intro hvoid
    rw [isVoid, Bool.or_eq_true, beq_iff_eq, beq_iff_eq] at hvoid
    rcases hvoid with rfl | rfl
    · cases h
    · exact absurd h (by decide)
  · rintro ⟨s, hs, h⟩
    exact ⟨s, (List.mem_filter.mp hs).1, h⟩

/-- Whether a path ends in a void segment, which asks for a directory. -/
def asksDirectory (p : Path) : Bool :=
  p.bytes ≠ [] && p.segments.getLast?.any isVoid

end Path

namespace FileTree

variable {t : FileTree} {place last : Place} {ss : List Segment} {s : Segment} {p q : Path}

/-! ## Void segments -/

/-- From what is no directory no segment leads on. -/
theorem step_of_not_isOpen (h : ¬ t.IsOpen place) (s : Segment) :
    t.step place s = .error .notDirectory := by
  rw [IsOpen, Classical.not_imp, Bool.not_eq_true] at h
  obtain ⟨hremoved, hdirectory⟩ := h
  simp [step, enter, hremoved, hdirectory, Except.map]

/-- Where the names lead nowhere, the segments between them change nothing. -/
theorem walk_of_walk_filter_eq_error {e : PathError}
    (h : t.walk place (ss.filter (!Path.isVoid ·)) = .error e) : t.walk place ss = .error e := by
  induction ss generalizing place with
  | nil => cases h
  | cons s ss ih =>
    rw [walk_cons]
    cases hs : Path.isVoid s with
    | true =>
      rw [List.filter_cons_of_neg (by simp [hs])] at h
      by_cases hopen : t.IsOpen place
      · rw [hopen.step_of_isVoid hs]
        exact ih h
      · -- The first of the names that follow fails, too.
        rcases hnames : ss.filter (!Path.isVoid ·) with _ | ⟨n, ns⟩
        · rw [hnames] at h
          cases h
        · rw [hnames, walk_cons, step_of_not_isOpen hopen] at h
          rw [step_of_not_isOpen hopen]
          exact h
    | false =>
      rw [List.filter_cons_of_pos (by simp [hs]), walk_cons] at h
      cases hstep : t.step place s with
      | error e' =>
        rw [hstep] at h
        exact h
      | ok next =>
        rw [hstep] at h
        exact ih h

/-- Where the names lead to what is no directory, only a void segment at the end matters. -/
theorem walk_of_not_isOpen (h : t.walk place (ss.filter (!Path.isVoid ·)) = .ok last)
    (hlast : ¬ t.IsOpen last) :
    t.walk place ss =
      if ss.getLast?.any Path.isVoid then .error .notDirectory else .ok last := by
  rcases List.eq_nil_or_concat ss with rfl | ⟨init, s, rfl⟩
  · exact h
  rw [List.concat_eq_append] at h ⊢
  rw [List.getLast?_concat, Option.any_some]
  cases hs : Path.isVoid s with
  | true =>
    rw [if_pos rfl]
    by_contra hne
    obtain ⟨mid, -, hstep⟩ := exists_of_walk_concat ((walk_filter hne).symm.trans h)
    have hmid := isOpen_of_step hstep
    cases hstep.symm.trans (hmid.step_of_isVoid hs)
    exact hlast hmid
  | false =>
    rw [if_neg Bool.false_ne_true]
    rw [List.filter_append, List.filter_cons_of_pos (by simp [hs]), List.filter_nil] at h
    obtain ⟨mid, hmid, hstep⟩ := exists_of_walk_concat h
    rw [walk_append, (isOpen_of_step hstep).walk_of_walk_filter hmid]
    exact (walk_singleton t mid s).trans hstep

/-! ## Spellings -/

/-- Whether the names of a path lead to something that is no directory. -/
def namesNoDirectory (t : FileTree) (p : Path) : Bool :=
  match t.walk (t.start p) p.names with
  | .ok last => last.removed = 0 && !t.hasDirectory last.location
  | .error _ => false

/-- Why a path cannot be followed as it is spelled, although others with its components can: it has
too many bytes, or it asks for a directory where there is something else. -/
def spellingFault? (t : FileTree) (p : Path) : Option PathError :=
  if exceeds t.pathLimit p.bytes then some .tooLong
  else if p.asksDirectory && t.namesNoDirectory p then some .notDirectory
  else none

theorem spellingFault?_eq_none_iff :
    t.spellingFault? p = none ↔
      exceeds t.pathLimit p.bytes = false ∧ (p.asksDirectory && t.namesNoDirectory p) = false := by
  unfold spellingFault?
  split_ifs <;> simp_all

theorem namesNoDirectory_eq_true_iff :
    t.namesNoDirectory p = true ↔
      ∃ last, t.walk (t.start p) p.names = .ok last ∧ ¬ t.IsOpen last := by
  unfold namesNoDirectory IsOpen
  cases t.walk (t.start p) p.names <;> simp

theorem start_of_components_eq (h : p.components = q.components) : t.start p = t.start q := by
  rw [start, start, Path.isAbsolute_eq_of_components_eq h]

theorem namesNoDirectory_of_components_eq (h : p.components = q.components) :
    t.namesNoDirectory p = t.namesNoDirectory q := by
  have hnames : p.names = q.names := congrArg Prod.snd h
  rw [namesNoDirectory, namesNoDirectory, start_of_components_eq h, hnames]

/-- A path that is not refused for its names is refused only for its length. -/
theorem refusal?_of_components_eq (h : p.components = q.components) (hq : t.refusal? q = none) :
    t.refusal? p = if exceeds t.pathLimit p.bytes then some .tooLong else none := by
  obtain ⟨hnul, hne, -⟩ := refusal?_eq_none_iff.mp hq
  have hnames : p.names = q.names := congrArg Prod.snd h
  rw [Path.nul_mem_bytes_iff, ← hnames, ← Path.nul_mem_bytes_iff] at hnul
  rw [Ne, Path.bytes_eq_nil_iff, ← h, ← Path.bytes_eq_nil_iff] at hne
  rw [refusal?, if_neg hnul, if_neg hne]

/-- What is at an open place is a directory. -/
theorem IsOpen.exists_nodeOf (h : t.IsOpen place) : ∃ es, t.nodeOf place = .ok (.directory es) := by
  unfold nodeOf nodeIn?
  by_cases hremoved : place.removed = 0
  · have hdirectory := h hremoved
    rw [hasDirectory] at hdirectory
    rw [if_pos hremoved]
    rcases hnode : t.node? place.location with _ | (bytes | es) <;> rw [hnode] at hdirectory
    · cases hdirectory
    · cases hdirectory
    · exact ⟨es, rfl⟩
  · rw [if_neg hremoved]
    exact ⟨[], rfl⟩

theorem nodeAt_of_refusal?_eq_some {e : PathError} (h : t.refusal? p = some e) :
    t.nodeAt p = .error e := by
  rw [nodeAt_eq, locate, h]
  rfl

/-- What a path that is followed names is found by its names, but for what asks for a directory. -/
theorem nodeAt_of_refusal?_eq_none (h : t.refusal? p = none) :
    t.nodeAt p =
      match t.walk (t.start p) p.names with
      | .error e => .error e
      | .ok last =>
        if p.asksDirectory && t.namesNoDirectory p then .error .notDirectory else t.nodeOf last := by
  have hne : p.bytes ≠ [] := (refusal?_eq_none_iff.mp h).2.1
  rw [nodeAt_eq, locate, h, Path.asksDirectory, decide_eq_true hne, Bool.true_and]
  cases hwalk : t.walk (t.start p) p.names with
  | error e =>
    rw [Path.names_eq_filter] at hwalk
    rw [walk_of_walk_filter_eq_error hwalk]
    rfl
  | ok last =>
    rw [Path.names_eq_filter] at hwalk
    by_cases hlast : t.IsOpen last
    · have hdirectory : t.namesNoDirectory p = false := by
        rw [Bool.eq_false_iff, Ne, namesNoDirectory_eq_true_iff]
        rintro ⟨last', hlast', hclosed⟩
        rw [Path.names_eq_filter, hwalk] at hlast'
        cases hlast'
        exact hclosed hlast
      rw [hlast.walk_of_walk_filter hwalk, hdirectory, Bool.and_false]
      rfl
    · have hdirectory : t.namesNoDirectory p = true := by
        rw [namesNoDirectory_eq_true_iff, Path.names_eq_filter]
        exact ⟨last, hwalk, hlast⟩
      rw [walk_of_not_isOpen hwalk hlast, hdirectory, Bool.and_true]
      cases p.segments.getLast?.any Path.isVoid <;> rfl

/-- What is found under one spelling, or is found to be missing, is found so under each other one
that can be followed. -/
theorem nodeAt_of_components_eq (h : p.components = q.components)
    (hq : ∀ e, t.nodeAt q = .error e → e = .notFound) :
    t.nodeAt p =
      match t.spellingFault? p with
      | some e => .error e
      | none => t.nodeAt q := by
  have hnames : p.names = q.names := congrArg Prod.snd h
  have hstart : t.start p = t.start q := start_of_components_eq h
  cases hrefusal : t.refusal? q with
  | some e =>
    -- Only the empty path is refused as missing, and it has no other spelling.
    obtain rfl : e = .notFound := hq e (nodeAt_of_refusal?_eq_some hrefusal)
    have hqnil : q.bytes = [] := bytes_eq_nil_of_refusal? hrefusal
    have hpnil : p.bytes = [] := by rwa [Path.bytes_eq_nil_iff, h, ← Path.bytes_eq_nil_iff]
    have hexceeds : exceeds t.pathLimit p.bytes = false := by
      rw [hpnil]
      cases hlimit : t.pathLimit <;> simp [exceeds]
    have hasks : p.asksDirectory = false := by simp [Path.asksDirectory, hpnil]
    have hsame : p = q := by
      cases p
      cases q
      exact congrArg Path.mk (hpnil.trans hqnil.symm)
    rw [spellingFault?, hexceeds, hasks, hsame]
    rfl
  | none =>
    have hrefusal' := refusal?_of_components_eq h hrefusal
    rw [spellingFault?]
    cases hexceeds : exceeds t.pathLimit p.bytes with
    | true =>
      rw [hexceeds, if_pos rfl] at hrefusal'
      rw [if_pos rfl, nodeAt_of_refusal?_eq_some hrefusal']
    | false =>
      rw [hexceeds, if_neg Bool.false_ne_true] at hrefusal'
      have hnode := nodeAt_of_refusal?_eq_none hrefusal
      rw [← hstart, ← hnames, ← namesNoDirectory_of_components_eq h] at hnode
      rw [if_neg Bool.false_ne_true, nodeAt_of_refusal?_eq_none hrefusal', hnode]
      rw [hnode] at hq
      cases hwalk : t.walk (t.start p) p.names with
      | error e => simp [namesNoDirectory, hwalk]
      | ok last =>
        rw [hwalk] at hq
        cases hdirectory : t.namesNoDirectory p with
        | false => simp
        | true =>
          have hasks : q.asksDirectory = false := by
            rw [Bool.eq_false_iff]
            intro hasks
            simp [hasks, hdirectory] at hq
          cases p.asksDirectory <;> simp [hasks]

/-- The names of a file lead to no directory. -/
theorem namesNoDirectory_eq_true_of_nodeAt {bytes : List UInt8}
    (h : t.nodeAt p = .ok (.file bytes)) : t.namesNoDirectory p = true := by
  have hrefusal : t.refusal? p = none := by
    cases hrefusal : t.refusal? p with
    | none => rfl
    | some e =>
      rw [nodeAt_of_refusal?_eq_some hrefusal] at h
      cases h
  rw [nodeAt_of_refusal?_eq_none hrefusal] at h
  cases hwalk : t.walk (t.start p) p.names with
  | error e =>
    rw [hwalk] at h
    cases h
  | ok last =>
    rw [namesNoDirectory_eq_true_iff]
    refine ⟨last, hwalk, fun hopen => ?_⟩
    obtain ⟨es, hes⟩ := hopen.exists_nodeOf
    simp only [hwalk, hes] at h
    split at h <;> cases h

/-- A step from a location that is there leads to one that is there. -/
theorem isSome_node?_of_step (h : t.step place s = .ok last)
    (hplace : (t.node? place.location).isSome = true) :
    (t.node? last.location).isSome = true := by
  have henter : ∀ {loc next}, t.enter loc s = .ok next → (t.node? loc).isSome = true →
      (t.node? next).isSome = true := by
    intro loc next hnext hloc
    unfold enter at hnext
    split_ifs at hnext with _ _ _ _ hsome
    · cases hnext
      exact hloc
    · cases hnext
      rcases List.eq_nil_or_concat loc with rfl | ⟨init, x, rfl⟩
      · exact hloc
      · rw [List.concat_eq_append] at hloc ⊢
        rw [List.dropLast_concat]
        obtain ⟨n, hn⟩ := Option.isSome_iff_exists.mp hloc
        exact Option.isSome_of_any (hasDirectory_of_node?_concat hn)
    · cases hnext
      exact hsome
  obtain ⟨loc, removed⟩ := place
  unfold step at h
  cases removed with
  | zero =>
    cases hnext : t.enter loc s with
    | error e => simp [hnext, Except.map] at h
    | ok next =>
      simp only [hnext, Except.map, Except.ok.injEq] at h
      subst h
      exact henter hnext hplace
  | succ n =>
    simp only at h
    split_ifs at h
    · cases h
      exact hplace
    · cases h
      exact hplace

theorem isSome_node?_of_walk (h : t.walk place ss = .ok last)
    (hplace : (t.node? place.location).isSome = true) :
    (t.node? last.location).isSome = true := by
  induction ss generalizing place with
  | nil =>
    cases h
    exact hplace
  | cons s ss ih =>
    rw [walk_cons] at h
    cases hstep : t.step place s with
    | error e =>
      rw [hstep] at h
      cases h
    | ok next =>
      rw [hstep] at h
      exact ih h (isSome_node?_of_step hstep hplace)

/-- The names of a path that names nothing lead to nothing, if the place it starts from is there. -/
theorem namesNoDirectory_eq_false_of_nodeAt (h : t.nodeAt p = .error .notFound)
    (hne : p.bytes ≠ []) (hstart : (t.node? (t.start p).location).isSome = true) :
    t.namesNoDirectory p = false := by
  have hrefusal : t.refusal? p = none := by
    cases hrefusal : t.refusal? p with
    | none => rfl
    | some e =>
      rw [nodeAt_of_refusal?_eq_some hrefusal] at h
      cases h
      exact absurd (bytes_eq_nil_of_refusal? hrefusal) hne
  rw [nodeAt_of_refusal?_eq_none hrefusal] at h
  cases hwalk : t.walk (t.start p) p.names with
  | error e => rw [namesNoDirectory, hwalk]
  | ok last =>
    obtain ⟨n, hn⟩ := Option.isSome_iff_exists.mp (isSome_node?_of_walk hwalk hstart)
    simp only [hwalk, nodeOf, nodeIn?, hn] at h
    split_ifs at h
    cases h

/-- A text is found in a file, and its absence where nothing is. -/
theorem nodeAt_of_readOptional {found : Option (List Char)} (h : t.readOptional p = .ok found) :
    (found = none ∧ t.nodeAt p = .error .notFound) ∨
      found ≠ none ∧ ∃ bytes, t.nodeAt p = .ok (.file bytes) := by
  unfold readOptional readText readBytes at h
  rcases hnode : t.nodeAt p with e | (bytes | es)
  · rw [hnode] at h
    cases e with
    | notFound =>
      cases h
      exact Or.inl ⟨rfl, rfl⟩
    | _ => cases h
  · simp only [hnode] at h
    cases htext : Text.decode? bytes with
    | none =>
      rw [htext] at h
      cases h
    | some text =>
      rw [htext] at h
      cases h
      exact Or.inr ⟨Option.some_ne_none _, bytes, rfl⟩
  · rw [hnode] at h
    cases h

/-- A text, or its absence, that is found under one spelling is found under each other one that can
be followed. -/
theorem readOptional_of_components_eq {found : Option (List Char)} (h : p.components = q.components)
    (hq : t.readOptional q = .ok found) :
    t.readOptional p =
      match t.spellingFault? p with
      | some e => .error e
      | none => .ok found := by
  have hmissing : ∀ e, t.nodeAt q = .error e → e = .notFound := by
    intro e he
    rcases nodeAt_of_readOptional hq with ⟨-, hnode⟩ | ⟨-, bytes, hnode⟩
    · cases hnode.symm.trans he
      rfl
    · cases hnode.symm.trans he
  have hp := nodeAt_of_components_eq h hmissing
  cases hfault : t.spellingFault? p with
  | none =>
    rw [hfault] at hp
    rw [← hq]
    unfold readOptional readText readBytes
    rw [hp]
  | some e =>
    rw [hfault] at hp
    unfold readOptional readText readBytes
    rw [hp]
    unfold spellingFault? at hfault
    split_ifs at hfault <;> cases hfault <;> rfl

/-- The shortest spelling of an absolute path asks for no directory, unless the path is the root. -/
theorem asksDirectory_and_namesNoDirectory_ofBody_root {ns : List Segment}
    (h : ∀ s ∈ ns, Path.IsNaming s) :
    ((Path.ofBody .root ns).asksDirectory && t.namesNoDirectory (.ofBody .root ns)) = false := by
  rcases List.eq_nil_or_concat ns with rfl | ⟨init, s, rfl⟩
  · rfl
  · rw [List.concat_eq_append] at h ⊢
    have hsegments : (Path.ofBody .root (init ++ [s])).segments = ([] :: init) ++ [s] := by
      rw [Path.segments_eq_cons_body (Path.anchor_ofBody_root _),
        Path.body_ofBody_root (fun s hs => (h s hs).1) (by simp), List.cons_append]
    have hs : Path.isVoid s = false := (h s (by simp)).2
    rw [Path.asksDirectory, hsegments, List.getLast?_concat, Option.any_some, hs, Bool.and_false,
      Bool.false_and]

/-- If an absolute path can be followed as it is spelled, it can be under the shortest spelling. -/
theorem spellingFault?_names (hp : p.anchor = .root) (h : t.spellingFault? p = none) :
    t.spellingFault? (.ofBody .root p.names) = none := by
  rw [spellingFault?_eq_none_iff] at h ⊢
  refine ⟨exceeds_of_length_le (Path.bytes_names_sublist hp).length_le h.1, ?_⟩
  exact asksDirectory_and_namesNoDirectory_ofBody_root fun s hs => Path.isNaming_of_mem_names hs

end FileTree

end ModuleMap
