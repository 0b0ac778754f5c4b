/-!
# JSON values

* `Json.Number`, `Json.Value`: the values.  Whole numbers of 64 bits stay whole; every other number
  is a double, kept as its bits.
* `Json.insert`, `Json.Value.ofMembers`: objects in canonical form, each key once and the keys in
  order; of two members with one key the later one counts (`lookup_insert`).
* `Json.Value.get?`, `Json.Value.string?`: looking into a value.
-/

namespace ModuleMap.Json

/-- A number as it is kept. -/
inductive Number where
  /-- A whole number below `2 ^ 64`. -/
  | natural (n : Nat)
  /-- The whole number `-n`, where `0 < n ≤ 2 ^ 63`. -/
  | negated (n : Nat)
  /-- A double, as its 64 bits. -/
  | double (bits : UInt64)
  deriving DecidableEq, Repr

/-- A JSON value.  The members of an object are in the order in which they are written. -/
inductive Value where
  | null
  | bool (b : Bool)
  | number (n : Number)
  | string (s : String)
  | array (items : List Value)
  | object (members : List (String × Value))
  deriving Repr, BEq

/-- Members with one more, in the place that the order of keys gives it.  It replaces one of the
same key. -/
def insert {α : Type} (key : String) (value : α) : List (String × α) → List (String × α)
  | [] => [(key, value)]
  | (k, v) :: rest =>
    if key = k then (key, value) :: rest
    else if key < k then (key, value) :: (k, v) :: rest
    else (k, v) :: insert key value rest

@[simp] theorem insert_nil {α : Type} (key : String) (value : α) :
    insert key value [] = [(key, value)] := rfl

/-- Inserting changes what is found under the key, and under no other. -/
theorem lookup_insert {α : Type} (key : String) (value : α) (members : List (String × α))
    (k : String) :
    (insert key value members).lookup k =
      if k == key then some value else members.lookup k := by
  induction members with
  | nil => cases hk : k == key <;> simp [List.lookup_cons, hk]
  | cons m members ih =>
    obtain ⟨j, v⟩ := m
    rw [insert]
    by_cases hj : key = j
    · subst hj
      cases hk : k == key <;> simp [List.lookup_cons, hk]
    · rw [if_neg hj]
      by_cases hlt : key < j
      · cases hk : k == key <;> simp [List.lookup_cons, hlt, hk]
      · cases hk : k == key
        · cases hkj : k == j <;> simp [List.lookup_cons, hlt, hkj, hk, ih]
        · have hkj : (k == j) = false := by
            rw [eq_of_beq hk]
            exact beq_eq_false_iff_ne.mpr hj
          simp [List.lookup_cons, hlt, hkj, hk, ih]

/-- The object of the given members, each key once and the keys in order. -/
def Value.ofMembers (members : List (String × Value)) : Value :=
  .object (members.foldl (fun sorted m => insert m.1 m.2 sorted) [])

/-- The member of an object with the given key. -/
def Value.get? (key : String) : Value → Option Value
  | .object members => members.lookup key
  | _ => none

/-- The text of a string value. -/
def Value.string? : Value → Option String
  | .string s => some s
  | _ => none

end ModuleMap.Json
