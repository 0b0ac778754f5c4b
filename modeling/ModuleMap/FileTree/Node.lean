import ModuleMap.Path.Basic
import ModuleMap.Table

/-!
# Nodes of a file tree

A node is a file or a directory with the nodes in it.  A location says which names lead from a node
to another one below it.

* `Node.child?`, `Node.get?`: the node in a directory, and the node at a location.
* `Node.set`, `Node.erase`: a node put at a location, and the one there taken away.
* `Node.get?_set_append`, `Node.get?_set_of_not_prefix`, `Node.get?_erase_append`,
  `Node.get?_erase_of_not_prefix`: what is seen afterwards at the location and below it, and at the
  locations that lie aside from it.
-/

namespace ModuleMap

/-- A location: the names that lead to it, from the outermost in. -/
abbrev Location := List Segment

/-- A file, or a directory.  Of two entries of one name in a directory the first counts. -/
inductive Node where
  | file (bytes : List UInt8)
  | directory (entries : List (Segment × Node))
  deriving Repr, BEq

namespace Node

/-- Whether a node is a directory. -/
def isDirectory : Node → Bool
  | file _ => false
  | directory _ => true

mutual

/-- The number of nodes at a node and below. -/
def size : Node → Nat
  | file _ => 1
  | directory es => 1 + sizeIn es

/-- The number of nodes at entries and below. -/
def sizeIn : List (Segment × Node) → Nat
  | [] => 0
  | (_, n) :: es => n.size + sizeIn es

end

/-- What is in a directory; in a file there is nothing. -/
def entries : Node → List (Segment × Node)
  | file _ => []
  | directory es => es

theorem directory_entries {n : Node} (h : n.isDirectory = true) : directory n.entries = n := by
  cases n with
  | file bytes => cases h
  | directory es => rfl

/-- The node of a name in a directory. -/
def child? (n : Node) (s : Segment) : Option Node :=
  n.entries.lookup s

/-- The node at a location. -/
def get? : Node → Location → Option Node
  | n, [] => some n
  | n, s :: ss => (n.child? s).bind (·.get? ss)

@[simp] theorem get?_nil (n : Node) : n.get? [] = some n := rfl

theorem get?_cons (n : Node) (s : Segment) (ss : Location) :
    n.get? (s :: ss) = (n.child? s).bind (·.get? ss) := rfl

theorem get?_append (n : Node) (l r : Location) :
    n.get? (l ++ r) = (n.get? l).bind (·.get? r) := by
  induction l generalizing n with
  | nil => rfl
  | cons s ss ih =>
    rw [List.cons_append, get?_cons, get?_cons]
    cases n.child? s with
    | none => rfl
    | some c => exact ih c

/-- One more name leads to a node in the one before. -/
theorem get?_concat (n : Node) (l : Location) (s : Segment) :
    n.get? (l ++ [s]) = (n.get? l).bind (·.child? s) := by
  rw [get?_append]
  cases n.get? l with
  | none => rfl
  | some c =>
    rw [Option.bind_some, Option.bind_some, get?_cons]
    cases c.child? s <;> rfl

/-! ## Setting -/

/-- The node with another one put at a location, in the stead of what was there.  What is no
directory on the way becomes one. -/
def set (x : Node) : Location → Node → Node
  | [], _ => x
  | s :: ss, n => directory (Table.set s (set x ss ((n.child? s).getD (directory []))) n.entries)

theorem isDirectory_set {l : Location} (hl : l ≠ []) (x n : Node) :
    (set x l n).isDirectory = true := by
  cases l with
  | nil => exact absurd rfl hl
  | cons s ss => rfl

theorem child?_set_cons (x : Node) (s : Segment) (ss : Location) (n : Node) (c : Segment) :
    (set x (s :: ss) n).child? c =
      if c == s then some (set x ss ((n.child? s).getD (directory []))) else n.child? c :=
  Table.lookup_set s _ n.entries c

/-- At the location and below, the new node is seen. -/
theorem get?_set_append (x : Node) (l r : Location) (n : Node) :
    (set x l n).get? (l ++ r) = x.get? r := by
  induction l generalizing n with
  | nil => rfl
  | cons s ss ih =>
    rw [List.cons_append, get?_cons, child?_set_cons, if_pos (beq_self_eq_true s)]
    exact ih _

/-- What lies aside from the location stays. -/
theorem get?_set_of_not_prefix {x : Node} {l m : Location} {n : Node} (hl : ¬l <+: m)
    (hm : ¬m <+: l) : (set x l n).get? m = n.get? m := by
  induction l generalizing m n with
  | nil => exact absurd List.nil_prefix hl
  | cons s ss ih =>
    cases m with
    | nil => exact absurd List.nil_prefix hm
    | cons c cs =>
      rw [get?_cons, get?_cons, child?_set_cons]
      by_cases hc : c = s
      · subst hc
        rw [List.cons_prefix_cons] at hl hm
        have hl' : ¬ss <+: cs := fun h => hl ⟨rfl, h⟩
        have hm' : ¬cs <+: ss := fun h => hm ⟨rfl, h⟩
        rw [if_pos (beq_self_eq_true c), Option.bind_some, ih hl' hm']
        cases n.child? c with
        | none =>
          cases cs with
          | nil => exact absurd List.nil_prefix hm'
          | cons d ds => rfl
        | some k => rfl
      · rw [if_neg (by simpa using hc)]

/-! ## Erasing -/

/-- The node without the one at a location.  The node itself cannot be taken away. -/
def erase : Location → Node → Node
  | [], n => n
  | [_], file bytes => file bytes
  | [s], directory es => directory (es.filter fun entry => !(entry.1 == s))
  | s :: c :: ss, n =>
    match n.child? s with
    | none => n
    | some k => directory (Table.set s (erase (c :: ss) k) n.entries)

/-- A directory stays one, and a file stays a file. -/
theorem isDirectory_erase (l : Location) (n : Node) : (erase l n).isDirectory = n.isDirectory := by
  cases l with
  | nil => rfl
  | cons s ss =>
    cases n with
    | file bytes => cases ss <;> rfl
    | directory es =>
      cases ss with
      | nil => rfl
      | cons c cs =>
        rw [erase]
        split <;> rfl

theorem child?_erase_singleton (s : Segment) (n : Node) (c : Segment) :
    (erase [s] n).child? c = if c == s then none else n.child? c := by
  cases n with
  | file bytes => simp [erase, child?, entries]
  | directory es =>
    have h := Table.lookup_filter (fun k => !(k == s)) es c
    cases hc : c == s <;> simpa [erase, child?, entries, hc] using h

theorem child?_erase_cons_cons (s c : Segment) (ss : Location) (n : Node) (d : Segment) :
    (erase (s :: c :: ss) n).child? d =
      if d == s then (n.child? s).map (erase (c :: ss)) else n.child? d := by
  cases hs : n.child? s with
  | none =>
    rw [erase, hs]
    by_cases hd : d = s
    · simp [hd, hs]
    · simp [hd]
  | some k =>
    rw [erase, hs]
    exact Table.lookup_set s _ n.entries d

/-- At the location and below, nothing is seen any more. -/
theorem get?_erase_append {l : Location} (hl : l ≠ []) (r : Location) (n : Node) :
    (erase l n).get? (l ++ r) = none := by
  induction l generalizing n with
  | nil => exact absurd rfl hl
  | cons s ss ih =>
    rw [List.cons_append, get?_cons]
    cases ss with
    | nil => simp [child?_erase_singleton]
    | cons c cs =>
      rw [child?_erase_cons_cons, if_pos (beq_self_eq_true s)]
      cases n.child? s with
      | none => rfl
      | some k => exact ih (List.cons_ne_nil c cs) k

/-- What lies aside from the location stays. -/
theorem get?_erase_of_not_prefix {l m : Location} {n : Node} (hl : ¬l <+: m) (hm : ¬m <+: l) :
    (erase l n).get? m = n.get? m := by
  induction l generalizing m n with
  | nil => exact absurd List.nil_prefix hl
  | cons s ss ih =>
    cases m with
    | nil => exact absurd List.nil_prefix hm
    | cons d ds =>
      rw [get?_cons, get?_cons]
      rw [List.cons_prefix_cons] at hl hm
      cases ss with
      | nil =>
        have hd : d ≠ s := fun h => hl ⟨h.symm, List.nil_prefix⟩
        rw [child?_erase_singleton, if_neg (by simpa using hd)]
      | cons c cs =>
        rw [child?_erase_cons_cons]
        by_cases hd : d = s
        · subst hd
          rw [if_pos (beq_self_eq_true d)]
          cases n.child? d with
          | none => rfl
          | some k => exact ih (fun h => hl ⟨rfl, h⟩) (fun h => hm ⟨rfl, h⟩)
        · rw [if_neg (by simpa using hd)]

end Node

end ModuleMap
