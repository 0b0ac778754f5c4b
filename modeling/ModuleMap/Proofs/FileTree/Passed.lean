import ModuleMap.Proofs.FileTree.Files

/-!
# Places on the way

Following segments leads through one place after the other.  All but the last are directories, since
something was followed from them; so it does not matter whether there are void segments in between.

* `FileTree.walk_append`, `FileTree.exists_of_walk_concat`: a walk in two parts.
* `FileTree.IsOpen`: a place that segments can be followed from, and `IsOpen.walk_of_walk_filter`
  for void segments on the way to one.
* `FileTree.passed`: the places that segments lead through, with `passed_concat` for one more.
-/

namespace ModuleMap.FileTree

variable {t : FileTree} {place last next : Place} {ss : List Segment} {s : Segment}

/-! ## Walks in steps -/

theorem walk_append (t : FileTree) (place : Place) (ss rest : List Segment) :
    t.walk place (ss ++ rest) = (t.walk place ss).bind (t.walk · rest) := by
  induction ss generalizing place with
  | nil => rfl
  | cons s ss ih =>
    rw [List.cons_append, walk_cons, walk_cons]
    cases t.step place s with
    | error e => rfl
    | ok next => exact ih next

theorem walk_singleton (t : FileTree) (place : Place) (s : Segment) :
    t.walk place [s] = t.step place s := by
  rw [walk_cons]
  cases t.step place s <;> rfl

/-- A place that segments can be followed from: a directory, be it one that has been removed. -/
def IsOpen (t : FileTree) (place : Place) : Prop :=
  place.removed = 0 → t.hasDirectory place.location = true

/-- What has something in it is a directory. -/
theorem hasDirectory_of_node?_concat {loc : Location} {n : Node}
    (h : t.node? (loc ++ [s]) = some n) : t.hasDirectory loc = true := by
  unfold node? at h
  rw [Node.get?_concat, Option.bind_eq_some_iff] at h
  obtain ⟨parent, hparent, hchild⟩ := h
  cases parent with
  | file bytes => cases hchild
  | directory es => simp [hasDirectory, node?, hparent, Node.isDirectory]

theorem isOpen_of_step (h : t.step place s = .ok next) : t.IsOpen place := by
  intro hremoved
  unfold step enter at h
  cases hdirectory : t.hasDirectory place.location with
  | true => rfl
  | false =>
    simp only [hremoved, hdirectory] at h
    cases h

/-- From an open place a void segment leads nowhere else. -/
theorem IsOpen.step_of_isVoid (h : t.IsOpen place) (hs : Path.isVoid s = true) :
    t.step place s = .ok place := by
  obtain ⟨loc, removed⟩ := place
  unfold step enter
  cases removed with
  | succ n => simp [hs]
  | zero => simp [h rfl, hs, Except.map]

/-- All places on the way to an open one are open. -/
theorem IsOpen.of_walk (h : t.IsOpen last) (hwalk : t.walk place ss = .ok last) :
    t.IsOpen place := by
  rcases ss with _ | ⟨s, ss⟩
  · cases hwalk
    exact h
  · rw [walk_cons] at hwalk
    cases hstep : t.step place s with
    | ok next => exact isOpen_of_step hstep
    | error e =>
      rw [hstep] at hwalk
      cases hwalk

/-- Where the names lead to an open place, the segments between them change nothing. -/
theorem IsOpen.walk_of_walk_filter (h : t.IsOpen last)
    (hwalk : t.walk place (ss.filter (!Path.isVoid ·)) = .ok last) :
    t.walk place ss = .ok last := by
  induction ss generalizing place with
  | nil => exact hwalk
  | cons s ss ih =>
    cases hs : Path.isVoid s with
    | true =>
      rw [List.filter_cons_of_neg (by simp [hs])] at hwalk
      rw [walk_cons, (h.of_walk hwalk).step_of_isVoid hs]
      exact ih hwalk
    | false =>
      rw [List.filter_cons_of_pos (by simp [hs]), walk_cons] at hwalk
      rw [walk_cons]
      cases hstep : t.step place s with
      | error e =>
        rw [hstep] at hwalk
        cases hwalk
      | ok next =>
        rw [hstep] at hwalk
        exact ih hwalk

/-! ## Places passed -/

/-- The places that segments lead through, the last one first. -/
def passed (t : FileTree) : Place → List Segment → List Place
  | place, [] => [place]
  | place, s :: ss =>
    match t.step place s with
    | .ok next => t.passed next ss ++ [place]
    | .error _ => [place]

@[simp] theorem passed_nil (t : FileTree) (place : Place) : t.passed place [] = [place] := rfl

/-- One more segment leads to one more place. -/
theorem passed_concat (hss : t.walk place ss = .ok last) (hs : t.step last s = .ok next) :
    t.passed place (ss ++ [s]) = next :: t.passed place ss := by
  induction ss generalizing place with
  | nil =>
    cases hss
    simp [passed, hs]
  | cons s' ss ih =>
    rw [walk_cons] at hss
    rw [List.cons_append, passed, passed]
    cases hstep : t.step place s' with
    | error e =>
      rw [hstep] at hss
      cases hss
    | ok mid =>
      rw [hstep] at hss
      simp only [ih hss, List.cons_append]

/-- The last segment of a walk is a step from where the others lead. -/
theorem exists_of_walk_concat (h : t.walk place (ss ++ [s]) = .ok next) :
    ∃ last, t.walk place ss = .ok last ∧ t.step last s = .ok next := by
  rw [walk_append] at h
  cases hss : t.walk place ss with
  | error e =>
    rw [hss] at h
    cases h
  | ok last =>
    rw [hss] at h
    exact ⟨last, rfl, (walk_singleton t last s).symm.trans h⟩

/-- The first of the places passed is the one that the segments lead to. -/
theorem exists_passed_eq_cons (h : t.walk place ss = .ok last) :
    ∃ rest, t.passed place ss = last :: rest := by
  rcases List.eq_nil_or_concat ss with rfl | ⟨init, s, rfl⟩
  · cases h
    exact ⟨[], rfl⟩
  · rw [List.concat_eq_append] at h ⊢
    obtain ⟨mid, hmid, hstep⟩ := exists_of_walk_concat h
    exact ⟨_, passed_concat hmid hstep⟩

end ModuleMap.FileTree
