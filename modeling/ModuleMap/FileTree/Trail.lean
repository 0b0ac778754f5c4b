import ModuleMap.FileTree.Basic

/-!
# Trails

Following names from location to location goes back to the root for each name.  A trail keeps the
nodes that were passed, so that each step looks into one directory only.

* `Trail`, `Trail.Leads`: the nodes passed, and that each was found in the one before.
* `FileTree.follow`: names followed along a trail.
* `FileTree.walk_of_follow`: this leads where following from location to location leads.
* `FileTree.travel`, `FileTree.travel_eq`: so names can be followed from any place.
-/

namespace ModuleMap

/-- The nodes passed below a root, the last one first, each with its name. -/
abbrev Trail := List (Segment × Node)

namespace Trail

/-- The node that a trail leads to. -/
def node (root : Node) : Trail → Node
  | [] => root
  | (_, n) :: _ => n

/-- The location that a trail leads to. -/
def location (trail : Trail) : Location :=
  (trail.map (·.1)).reverse

@[simp] theorem location_nil : location [] = [] := rfl

@[simp] theorem location_cons (entry : Segment × Node) (trail : Trail) :
    location (entry :: trail) = location trail ++ [entry.1] := by
  simp [location]

/-- Each node of the trail is in the one that was passed before. -/
def Leads (root : Node) : Trail → Prop
  | [] => True
  | (s, n) :: trail => (node root trail).child? s = some n ∧ Leads root trail

/-- A trail leads to the node at its location. -/
theorem Leads.get?_location {root : Node} {trail : Trail} (h : trail.Leads root) :
    root.get? trail.location = some (trail.node root) := by
  induction trail with
  | nil => rfl
  | cons entry trail ih =>
    rw [location_cons, Node.get?_concat, ih h.2]
    exact h.1

theorem Leads.tail {root : Node} {trail : Trail} (h : trail.Leads root) :
    Leads root trail.tail := by
  cases trail with
  | nil => exact h
  | cons entry trail => exact h.2

theorem location_tail (trail : Trail) : location trail.tail = (location trail).dropLast := by
  cases trail with
  | nil => rfl
  | cons entry trail => rw [location_cons, List.dropLast_concat, List.tail_cons]

/-- The trail extended down to a location below the node that it leads to. -/
def extend? (root : Node) : Trail → Location → Option Trail
  | trail, [] => some trail
  | trail, s :: ss =>
    match (node root trail).child? s with
    | some n => extend? root ((s, n) :: trail) ss
    | none => none

theorem Leads.extend? {root : Node} {trail last : Trail} {loc : Location}
    (h : trail.Leads root) (hlast : extend? root trail loc = some last) :
    last.Leads root ∧ last.location = trail.location ++ loc := by
  induction loc generalizing trail with
  | nil =>
    cases hlast
    exact ⟨h, (List.append_nil _).symm⟩
  | cons s ss ih =>
    rw [Trail.extend?] at hlast
    split at hlast
    · next n hn =>
      have hnext : Leads root ((s, n) :: trail) := ⟨hn, h⟩
      obtain ⟨hleads, hloc⟩ := ih hnext hlast
      refine ⟨hleads, ?_⟩
      rw [hloc, location_cons, List.append_assoc, List.singleton_append]
    · cases hlast

end Trail

namespace FileTree

/-- One segment followed along a trail. -/
def advance (t : FileTree) (trail : Trail) (s : Segment) : Except PathError Trail :=
  if !(trail.node t.root).isDirectory then .error .notDirectory
  else if Path.isVoid s then .ok trail
  else if s = Path.dotDot then .ok trail.tail
  else if exceeds t.nameLimit s then .error .tooLong
  else
    match (trail.node t.root).child? s with
    | some n => .ok ((s, n) :: trail)
    | none => .error .notFound

/-- The segments followed along a trail. -/
def follow (t : FileTree) : Trail → List Segment → Except PathError Trail
  | trail, [] => .ok trail
  | trail, s :: ss =>
    match t.advance trail s with
    | .ok next => t.follow next ss
    | .error e => .error e

/-- The trail to a place, unless that has been removed. -/
def trailTo? (t : FileTree) (place : Place) : Option Trail :=
  if place.removed = 0 then Trail.extend? t.root [] place.location else none

/-- The trail to a place leads there. -/
theorem leads_trailTo? {t : FileTree} {place : Place} {trail : Trail}
    (h : t.trailTo? place = some trail) :
    trail.Leads t.root ∧ ⟨trail.location, 0⟩ = place := by
  rw [trailTo?] at h
  split at h
  · next hremoved =>
    have hnil : Trail.Leads t.root [] := trivial
    obtain ⟨hleads, hloc⟩ := Trail.Leads.extend? hnil h
    refine ⟨hleads, ?_⟩
    cases place with
    | mk location removed =>
      cases hremoved
      rw [hloc, Trail.location_nil, List.nil_append]
  · cases h

/-- A step along a trail is a step from its location. -/
theorem enter_of_advance {t : FileTree} {trail : Trail} (h : trail.Leads t.root) (s : Segment) :
    t.enter trail.location s = (t.advance trail s).map Trail.location ∧
      ∀ next, t.advance trail s = .ok next → next.Leads t.root := by
  have hnode : t.node? trail.location = some (trail.node t.root) := h.get?_location
  have hchild : t.node? (trail.location ++ [s]) = (trail.node t.root).child? s := by
    rw [node?, Node.get?_concat, ← node?, hnode, Option.bind_some]
  have hdirectory : t.hasDirectory trail.location = (trail.node t.root).isDirectory := by
    rw [hasDirectory, hnode, Option.any_some]
  rw [enter, advance, hdirectory, hchild]
  split
  · exact ⟨rfl, fun _ hnext => nomatch hnext⟩
  split
  · refine ⟨rfl, fun next hnext => ?_⟩
    cases hnext
    exact h
  split
  · refine ⟨?_, fun next hnext => ?_⟩
    · rw [← Trail.location_tail]
      rfl
    · cases hnext
      exact h.tail
  split
  · exact ⟨rfl, fun _ hnext => nomatch hnext⟩
  cases hc : (trail.node t.root).child? s with
  | none => exact ⟨rfl, fun _ hnext => nomatch hnext⟩
  | some n =>
    refine ⟨?_, fun next hnext => ?_⟩
    · simp [Except.map]
    · cases hnext
      exact ⟨hc, h⟩

/-- Along a trail one gets to where the names lead from its location. -/
theorem walk_of_follow {t : FileTree} {trail : Trail} (h : trail.Leads t.root)
    (ss : List Segment) :
    t.walk ⟨trail.location, 0⟩ ss =
        (t.follow trail ss).map (fun last => ⟨last.location, 0⟩) ∧
      ∀ last, t.follow trail ss = .ok last → last.Leads t.root := by
  induction ss generalizing trail with
  | nil =>
    refine ⟨rfl, fun last hlast => ?_⟩
    cases hlast
    exact h
  | cons s ss ih =>
    obtain ⟨henter, hleads⟩ := enter_of_advance h s
    rw [walk_cons, follow]
    simp only [step, henter]
    cases hnext : t.advance trail s with
    | error e =>
      refine ⟨rfl, fun last hlast => ?_⟩
      cases hlast
    | ok next => exact ih (hleads next hnext)

/-- The segments followed from a place, along a trail where there is one. -/
def travel (t : FileTree) (place : Place) (ss : List Segment) : Except PathError Place :=
  match t.trailTo? place with
  | some trail => (t.follow trail ss).map fun last => ⟨last.location, 0⟩
  | none => t.walk place ss

/-- Travelling leads where the names lead. -/
theorem travel_eq (t : FileTree) (place : Place) (ss : List Segment) :
    t.travel place ss = t.walk place ss := by
  rw [travel]
  cases htrail : t.trailTo? place with
  | none => rfl
  | some trail =>
    obtain ⟨hleads, hplace⟩ := leads_trailTo? htrail
    rw [← hplace, (walk_of_follow hleads ss).1]

end FileTree

end ModuleMap
