import ModuleMap.Proofs.Path.NormalForm

/-!
# Joined paths, segment by segment

Joining puts the names of base and tail on one stack.  The same comes out in two other ways.  Base
and tail can be written one after the other, with a slash between them, and the segments of that
path be gone through from left to right; a slash too many is then an empty segment like any other,
so an absolute tail leads below the base.  And the result can be grown as a path, to which a name is
joined and from which a `..` takes the last one; what stands on the stack is then read off the bytes
that have been written so far.

* `Path.follow`, `Path.written`, `Path.joinSegments`: the walk through the segments, and the bytes
  that it gives.
* `Path.grow`, `Path.grown`: the path that is grown name by name.
* `Path.joinNormalized_eq_joinSegments`: joining gives what they give.
-/

namespace ModuleMap.Path

variable {absolute : Bool} {ns ss stack : List Segment} {s : Segment}

/-! ## Through the segments -/

/-- Base and tail written one after the other; a tail without bytes is left out, with the slash
before it. -/
def concat (base tail : Path) : Path :=
  if tail.bytes = [] then base else ⟨base.bytes ++ slash :: tail.bytes⟩

/-- The names that are left after one more segment, outermost first. -/
def follow (absolute : Bool) (kept : List Segment) : Segment → List Segment
  | [] | [0x2E] => kept
  | [0x2E, 0x2E] =>
    match kept.getLast? with
    | none => if absolute then [] else [dotDot]
    | some last => if last = dotDot then kept ++ [dotDot] else kept.dropLast
  | s => kept ++ [s]

/-- The bytes of a path from the names that are left.  The root has one slash for its start and its
end. -/
def written (absolute closed : Bool) : List Segment → List UInt8
  | [] => if absolute then [slash] else if closed then [dot, slash] else [dot]
  | s :: ss =>
    (if absolute then [slash] else []) ++ [slash].intercalate (s :: ss) ++
      if closed then [slash] else []

/-- The bytes of base and tail joined segment by segment. -/
def joinSegments (base tail : Path) : List UInt8 :=
  let full := concat base tail
  written full.isAbsolute full.endsWithSlash
    (full.segments.foldl (follow full.isAbsolute) [])

/-! ## Name by name -/

/-- A path after one more name.  A `..` takes the last name back, unless that is a `..` itself; at
the root there is nothing to take. -/
def grow (out : Path) (s : Segment) : Path :=
  if s = dotDot then
    match out.names.getLast? with
    | none => if out.isAbsolute then out else out.join ⟨dotDot⟩
    | some last => if last = dotDot then out.join ⟨dotDot⟩ else out.parent?.getD out
  else out.join ⟨s⟩

/-- The tail joined below the base, name by name.  A slash at the end is an empty tail. -/
def grown (base tail : Path) : Path :=
  let out := (base.names ++ tail.names).foldl grow (if base.isAbsolute then root else empty)
  let out := if out.bytes = [] then here else out
  if (if tail.bytes = [] then base.endsWithSlash else tail.endsWithSlash) then out.join empty
  else out

/-! ## The walk and the stack -/

/-- What is on the stack after a push was there before or is the segment pushed. -/
theorem mem_or_eq_of_mem_push {x : Segment} (hx : x ∈ push absolute stack s) :
    x ∈ stack ∨ x = s := by
  unfold push at hx
  split at hx
  · next hs =>
    subst hs
    rcases stack with _ | ⟨top, rest⟩
    · cases absolute <;> simp_all
    · simp only at hx
      split at hx
      · rw [List.mem_cons] at hx
        exact hx.symm
      · exact Or.inl (List.mem_cons_of_mem _ hx)
  · exact (List.mem_cons.mp hx).symm

theorem isNaming_of_mem_settle {absolute : Bool} {ss : List Segment} (h : ∀ s ∈ ss, IsNaming s) :
    ∀ s ∈ settle absolute ss, IsNaming s := by
  have hstack : ∀ stack : List Segment, (∀ s ∈ stack, IsNaming s) →
      ∀ s ∈ ss.foldl (push absolute) stack, IsNaming s := by
    induction ss with
    | nil => exact fun stack hstack => hstack
    | cons s ss ih =>
      intro stack hstack
      rw [List.forall_mem_cons] at h
      refine ih h.2 _ fun x hx => ?_
      rcases mem_or_eq_of_mem_push hx with hx | rfl
      · exact hstack x hx
      · exact h.1
  exact fun s hs => hstack [] (by simp) s (List.mem_reverse.mp hs)

/-- On the stack, void segments leave no trace. -/
theorem follow_reverse (absolute : Bool) (stack : List Segment) (s : Segment) :
    follow absolute stack.reverse s =
      if isVoid s then stack.reverse else (push absolute stack s).reverse := by
  unfold follow push
  split
  · rfl
  · rfl
  · show _ = (if dotDot = dotDot then _ else _ : List Segment).reverse
    rw [if_pos rfl, List.getLast?_reverse]
    rcases stack with _ | ⟨top, rest⟩
    · cases absolute <;> rfl
    · by_cases htop : top = dotDot <;> simp [htop]
  · next hnil hdot hdotDot =>
    have hvoid : isVoid s = false := by
      simpa [isVoid] using And.intro (fun h => hnil h) (fun h => hdot h)
    have hne : s ≠ dotDot := fun h => hdotDot h
    rw [hvoid, if_neg Bool.false_ne_true, if_neg hne, List.reverse_cons]

/-- The walk leaves the settled names. -/
theorem foldl_follow (absolute : Bool) (ss : List Segment) :
    ss.foldl (follow absolute) [] = settle absolute (ss.filter (!isVoid ·)) := by
  have hstack : ∀ stack : List Segment, ss.foldl (follow absolute) stack.reverse =
      ((ss.filter (!isVoid ·)).foldl (push absolute) stack).reverse := by
    induction ss with
    | nil => exact fun stack => rfl
    | cons s ss ih =>
      intro stack
      rw [List.foldl_cons, follow_reverse]
      cases hs : isVoid s with
      | true =>
        rw [if_pos rfl, List.filter_cons_of_neg (by simp [hs])]
        exact ih stack
      | false =>
        rw [if_neg Bool.false_ne_true, List.filter_cons_of_pos (by simp [hs]), List.foldl_cons]
        exact ih _
  exact hstack []

/-! ## The path in full -/

section

variable {base : Path} (hbase : base.bytes ≠ []) (tail : Path)
include hbase

theorem isAbsolute_concat : (concat base tail).isAbsolute = base.isAbsolute := by
  unfold concat isAbsolute
  split
  · rfl
  · obtain ⟨b, bs, hbytes⟩ := List.exists_cons_of_ne_nil hbase
    rw [hbytes]
    rfl

omit hbase in
theorem endsWithSlash_concat :
    (concat base tail).endsWithSlash =
      if tail.bytes = [] then base.endsWithSlash else tail.endsWithSlash := by
  unfold concat
  split
  · rfl
  · next htail =>
    unfold endsWithSlash
    rcases List.eq_nil_or_concat tail.bytes with hnil | ⟨bs, b, hbytes⟩
    · exact absurd hnil htail
    · rw [List.concat_eq_append] at hbytes
      rw [hbytes, ← List.cons_append, ← List.append_assoc, List.getLast?_concat,
        List.getLast?_concat]

end

/-- Its names are those of the base and then those of the tail. -/
theorem names_concat (base tail : Path) :
    (concat base tail).segments.filter (!isVoid ·) = base.names ++ tail.names := by
  rw [names_eq_filter, names_eq_filter]
  unfold concat segments
  split
  · next htail =>
    rw [htail, List.splitOn_nil]
    exact (List.append_nil _).symm
  · rw [List.splitOn_append_cons_self, List.filter_append]

theorem bytes_ofSegments_ne_nil (h : ∀ s ∈ ns, IsNaming s) (hne : ns ≠ []) :
    (ofSegments ns).bytes ≠ [] := by
  intro hnil
  have hroot : ((slash :: (ofSegments ns).bytes).getLast? == some slash) = false :=
    endsWithSlash_ofBody_root h hne
  rw [hnil] at hroot
  cases hroot

/-- Names between slashes end with no slash. -/
theorem endsWithSlash_ofSegments (h : ∀ s ∈ ns, IsNaming s) (hne : ns ≠ []) :
    (ofSegments ns).endsWithSlash = false := by
  have hroot : ((slash :: (ofSegments ns).bytes).getLast? == some slash) = false :=
    endsWithSlash_ofBody_root h hne
  rwa [List.getLast?_cons_of_ne_nil (bytes_ofSegments_ne_nil h hne)] at hroot

/-- One more segment comes after a slash. -/
theorem bytes_ofSegments_concat (hne : ns ≠ []) (s : Segment) :
    (ofSegments (ns ++ [s])).bytes = (ofSegments ns).bytes ++ slash :: s := by
  have hlong : slash :: (ofSegments (ns ++ [s])).bytes = (ns ++ [s]).flatMap (slash :: ·) :=
    bytes_ofBody_root (by simp)
  have hshort : slash :: (ofSegments ns).bytes = ns.flatMap (slash :: ·) := bytes_ofBody_root hne
  rw [List.flatMap_append, ← hshort, List.flatMap_singleton] at hlong
  exact (List.cons.inj hlong).2

theorem written_eq (h : ∀ s ∈ ns, IsNaming s) (absolute closed : Bool) :
    written absolute closed ns =
      (if closed then (ofSettled absolute ns).closeWithSlash else ofSettled absolute ns).bytes := by
  rcases ns with _ | ⟨n, ns⟩
  · cases absolute <;> cases closed <;> rfl
  · have hne : n :: ns ≠ [] := List.cons_ne_nil n ns
    have hclose : ∀ p : Path, p.endsWithSlash = false →
        p.closeWithSlash.bytes = p.bytes ++ [slash] :=
      fun p hp => by rw [closeWithSlash, hp]; rfl
    cases absolute with
    | true =>
      have hends := hclose _ (endsWithSlash_ofBody_root h hne)
      cases closed with
      | true => exact hends.symm
      | false => exact List.append_nil _
    | false =>
      have hends := hclose _ (endsWithSlash_ofSegments h hne)
      cases closed with
      | true => exact hends.symm
      | false => exact List.append_nil _

/-- Joining is the walk through the segments. -/
theorem bytes_joinNormalized {base : Path} (hbase : base.bytes ≠ []) (tail : Path) :
    (base.joinNormalized tail).bytes = joinSegments base tail := by
  have hnaming := isNaming_of_mem_append_names base tail
  unfold joinSegments joinNormalized
  simp only [isAbsolute_concat hbase, endsWithSlash_concat, foldl_follow, names_concat]
  exact (written_eq (isNaming_of_mem_settle hnaming) _ _).symm

/-! ## The path and the stack -/

section

variable {a : Anchor} (ha : a ≠ .here) (h : ∀ s ∈ ns, IsNaming s)
include h

theorem names_ofBody_of_isNaming : (ofBody a ns).names = ns := by
  rw [names_ofBody a fun s hs => (h s hs).1, List.filter_eq_self]
  exact fun s hs => by simp [(h s hs).2]

include ha

/-- A path of names starts where it is said to start. -/
theorem anchor_ofBody (hne : ns ≠ []) : (ofBody a ns).anchor = a ∧ (ofBody a ns).body = ns := by
  cases a with
  | root => exact ⟨rfl, body_ofBody_root (fun s hs => (h s hs).1) hne⟩
  | here => exact absurd rfl ha
  | floating =>
    have hsegments : (ofSegments ns).segments = ns :=
      List.splitOn_intercalate slash (fun s hs => (h s hs).1) hne
    obtain ⟨n, rest, rfl⟩ := List.exists_cons_of_ne_nil hne
    obtain ⟨hn, -⟩ := List.forall_mem_cons.mp h
    have hanchor : (ofSegments (n :: rest)).anchor = .floating := by
      cases hanchor : (ofSegments (n :: rest)).anchor with
      | floating => rfl
      | root =>
        rw [segments_eq_cons_body hanchor] at hsegments
        exact absurd (List.cons.inj hsegments).1.symm hn.ne_nil
      | here =>
        rw [segments_eq_dot_cons_body hanchor] at hsegments
        have hvoid := hn.2
        rw [← (List.cons.inj hsegments).1] at hvoid
        cases hvoid
    refine ⟨hanchor, ?_⟩
    show (ofSegments (n :: rest)).body = _
    rw [body, hanchor]
    exact hsegments

/-- A name joined to a path of names comes after these. -/
theorem join_ofBody (hs : IsNaming s) : (ofBody a ns).join ⟨s⟩ = ofBody a (ns ++ [s]) := by
  have hrelative : isAbsolute ⟨s⟩ = false := hs.isAbsolute_eq
  cases a with
  | root => exact join_ofBody_root h hrelative
  | here => exact absurd rfl ha
  | floating =>
    rcases ns with _ | ⟨n, rest⟩
    · show (ofSegments []).join ⟨s⟩ = ofSegments [s]
      simp [join, hrelative, ofSegments]
    · have hne : n :: rest ≠ [] := List.cons_ne_nil n rest
      show (ofSegments (n :: rest)).join ⟨s⟩ = ofSegments (n :: rest ++ [s])
      simp only [join, hrelative, bytes_ofSegments_ne_nil h hne, endsWithSlash_ofSegments h hne,
        Bool.false_eq_true, decide_false, Bool.or_self, if_false]
      exact congrArg Path.mk (bytes_ofSegments_concat hne s).symm

/-- Without the last name a path of names is that of the others. -/
theorem parent?_ofBody_concat (hs : IsNaming s) :
    (ofBody a (ns ++ [s])).parent? = some (ofBody a ns) := by
  have hall : ∀ x ∈ ns ++ [s], IsNaming x :=
    List.forall_mem_append.mpr ⟨h, by simpa using hs⟩
  obtain ⟨hanchor, hbody⟩ := anchor_ofBody ha hall (by simp)
  unfold parent?
  rw [hanchor, hbody, trimVoid_eq_self fun x hx => (hall x hx).2]
  rcases hconcat : ns ++ [s] with _ | ⟨n, rest⟩
  · simp at hconcat
  · show some (ofBody a (trimVoid (n :: rest).dropLast)) = _
    rw [← hconcat, List.dropLast_concat, trimVoid_eq_self fun x hx => (h x hx).2]

end

/-- Where a path starts that is grown from nothing. -/
def startOf (absolute : Bool) : Anchor :=
  if absolute then .root else .floating

theorem startOf_ne_here (absolute : Bool) : startOf absolute ≠ .here := by
  cases absolute <;> decide

/-- Growing the path is pushing on the stack. -/
theorem grow_ofBody (hstack : ∀ x ∈ stack, IsNaming x) (hs : IsNaming s) :
    grow (ofBody (startOf absolute) stack.reverse) s =
      ofBody (startOf absolute) (push absolute stack s).reverse := by
  have hstart := startOf_ne_here absolute
  have hreverse : ∀ x ∈ stack.reverse, IsNaming x := fun x hx => hstack x (List.mem_reverse.mp hx)
  have hjoin := join_ofBody hstart hreverse hs
  unfold grow push
  by_cases hdotDot : s = dotDot
  · rw [if_pos hdotDot, if_pos hdotDot, names_ofBody_of_isNaming hreverse, List.getLast?_reverse]
    subst hdotDot
    rcases stack with _ | ⟨top, rest⟩
    · cases absolute with
      | true => rfl
      | false => exact hjoin
    · rw [List.forall_mem_cons] at hstack
      rw [List.reverse_cons] at hjoin ⊢
      by_cases htop : top = dotDot
      · simp only [List.head?_cons, htop, if_true] at hjoin ⊢
        rw [hjoin]
        simp
      · have hrest : ∀ x ∈ rest.reverse, IsNaming x :=
          fun x hx => hstack.2 x (List.mem_reverse.mp hx)
        simp only [List.head?_cons, htop, if_false]
        rw [parent?_ofBody_concat hstart hrest hstack.1, Option.getD_some]
  · rw [if_neg hdotDot, if_neg hdotDot, hjoin, List.reverse_cons]

/-- So the path that is grown is that of the settled names. -/
theorem foldl_grow (hs : ∀ s ∈ ss, IsNaming s) (absolute : Bool) :
    ss.foldl grow (ofBody (startOf absolute) []) =
      ofBody (startOf absolute) (settle absolute ss) := by
  have hgrown : ∀ stack : List Segment, (∀ x ∈ stack, IsNaming x) →
      ss.foldl grow (ofBody (startOf absolute) stack.reverse) =
        ofBody (startOf absolute) (ss.foldl (push absolute) stack).reverse := by
    induction ss with
    | nil => exact fun stack _ => rfl
    | cons s ss ih =>
      intro stack hstack
      rw [List.forall_mem_cons] at hs
      rw [List.foldl_cons, List.foldl_cons, grow_ofBody hstack hs.1]
      refine ih hs.2 _ fun x hx => ?_
      rcases mem_or_eq_of_mem_push hx with hx | rfl
      · exact hstack x hx
      · exact hs.1
  exact hgrown [] (by simp)

/-- An empty tail closes a path with a slash. -/
theorem join_empty {p : Path} (hp : p.bytes ≠ []) : p.join empty = p.closeWithSlash := by
  have hrelative : empty.isAbsolute = false := rfl
  unfold join closeWithSlash
  rw [hrelative]
  cases p.endsWithSlash <;> simp [hp, empty]

/-- Joining is growing the path. -/
theorem joinNormalized_eq_grown (base tail : Path) :
    base.joinNormalized tail = grown base tail := by
  have hnaming := isNaming_of_mem_append_names base tail
  have hstart :
      (if base.isAbsolute then root else empty) = ofBody (startOf base.isAbsolute) [] := by
    cases base.isAbsolute <;> rfl
  have hsettled : ∀ ns : List Segment, (∀ s ∈ ns, IsNaming s) →
      (if (ofBody (startOf base.isAbsolute) ns).bytes = [] then here
        else ofBody (startOf base.isAbsolute) ns) = ofSettled base.isAbsolute ns := by
    intro ns hns
    cases base.isAbsolute with
    | true => exact if_neg (List.cons_ne_nil _ _)
    | false =>
      rcases ns with _ | ⟨n, ns⟩
      · rfl
      · exact if_neg (bytes_ofSegments_ne_nil hns (List.cons_ne_nil n ns))
  have hne : ∀ ns : List Segment, (∀ s ∈ ns, IsNaming s) →
      (ofSettled base.isAbsolute ns).bytes ≠ [] := by
    intro ns hns
    cases base.isAbsolute with
    | true => exact List.cons_ne_nil _ _
    | false =>
      rcases ns with _ | ⟨n, ns⟩
      · exact List.cons_ne_nil _ _
      · exact bytes_ofSegments_ne_nil hns (List.cons_ne_nil n ns)
  have hleft : ∀ s ∈ settle base.isAbsolute (base.names ++ tail.names), IsNaming s :=
    isNaming_of_mem_settle hnaming
  unfold joinNormalized grown
  rw [hstart, foldl_grow hnaming]
  simp only [hsettled _ hleft, join_empty (hne _ hleft)]

/-- **Joining goes through the segments.**  For a base that is not empty, the bytes of the joined
path are those of the walk through the segments of base and tail, and the path is the one that is
grown name by name.  So an absolute tail is joined as the relative one after its slash, and what is
joined to an absolute base never leads out of the root. -/
theorem joinNormalized_eq_joinSegments {base : Path} (hbase : base.bytes ≠ []) (tail : Path) :
    (base.joinNormalized tail).bytes = joinSegments base tail ∧
      base.joinNormalized tail = grown base tail ∧
      (∀ rest, rest ≠ [] → tail.bytes = slash :: rest →
        base.joinNormalized tail = base.joinNormalized ⟨rest⟩) ∧
      (base.isAbsolute = true → (base.joinNormalized tail).IsNormal) := by
  refine ⟨bytes_joinNormalized hbase tail, joinNormalized_eq_grown base tail, ?_,
    fun habsolute => isNormal_joinNormalized habsolute tail⟩
  intro rest hrest htail
  obtain ⟨bytes⟩ := tail
  subst htail
  have hnames : names ⟨slash :: rest⟩ = names ⟨rest⟩ := by
    rw [names_eq_filter, names_eq_filter, segments_cons_slash]
    exact List.filter_cons_of_neg (by decide)
  have hends : endsWithSlash ⟨slash :: rest⟩ = endsWithSlash ⟨rest⟩ := by
    unfold endsWithSlash
    rw [List.getLast?_cons_of_ne_nil hrest]
  unfold joinNormalized
  rw [hnames, hends, if_neg (List.cons_ne_nil slash rest), if_neg hrest]

/-- A relative base with a byte that is not UTF-8, and an absolute tail that leads out of it. -/
theorem joinNormalized_eq_joinSegments_climbing :
    let base : Path := ⟨[dot, slash, slash, 0xFF, slash, dot]⟩
    let tail := Path.ofText "/../b//../.././c/"
    base.bytes ≠ [] ∧ (base.joinNormalized tail).bytes = joinSegments base tail ∧
      joinSegments base tail = Text.encode "../c/".toList := by
  intro base tail
  have hbase : base.bytes ≠ [] := List.cons_ne_nil _ _
  exact ⟨hbase, (joinNormalized_eq_joinSegments hbase tail).1, by decide +kernel⟩

end ModuleMap.Path
