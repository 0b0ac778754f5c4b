import Mathlib.Data.List.Forall2

/-!
# Steps that are gone through up to the first failure

A result that is computed in steps is there if each step has one.  `List.mapM` over results answers
for a whole list, or gives the error of the first member that fails.

* `bind_eq_ok_iff`, `bind_eq_error_iff`, `map_eq_ok_iff`, `map_eq_error_iff`, `mapError_eq_ok_iff`:
  one step after another.
* `map_map_eq_ok_iff`, `map_map_eq_error_iff`: a step after one that may come to no end.
* `mapM_eq_ok_iff`, `exists_of_mem_mapM`: when there is an answer, and what it is.
* `mapM_eq_error_iff`, `mapM_eq_error_iff_find?`: when there is none, and whose error is given.
* `exists_mapM_eq_ok_iff`: when there is one, member by member.
* `mapError_mapM`: results that correspond to each other, member by member.
-/

namespace ModuleMap

variable {ε ε' α β : Type}

/-- A step after another has a result if both have. -/
theorem bind_eq_ok_iff {r : Except ε α} {f : α → Except ε β} {b : β} :
    (r >>= f) = .ok b ↔ ∃ a, r = .ok a ∧ f a = .ok b := by
  cases r <;> simp [bind, Except.bind]

/-- It fails if one of them does. -/
theorem bind_eq_error_iff {r : Except ε α} {f : α → Except ε β} {e : ε} :
    r >>= f = .error e ↔ r = .error e ∨ ∃ a, r = .ok a ∧ f a = .error e := by
  cases r <;> simp [bind, Except.bind]

theorem map_eq_ok_iff {r : Except ε α} {f : α → β} {b : β} :
    r.map f = .ok b ↔ ∃ a, r = .ok a ∧ f a = b := by
  cases r <;> simp [Except.map]

theorem map_eq_error_iff {r : Except ε α} {f : α → β} {e : ε} :
    r.map f = .error e ↔ r = .error e := by
  cases r <;> simp [Except.map]

theorem map_map_eq_ok_iff {r : Option (Except ε α)} {f : α → β} {b : β} :
    r.map (·.map f) = some (.ok b) ↔ ∃ a, r = some (.ok a) ∧ f a = b := by
  rcases r with _ | (e | a) <;> simp [Except.map]

theorem map_map_eq_error_iff {r : Option (Except ε α)} {f : α → β} {e : ε} :
    r.map (·.map f) = some (.error e) ↔ r = some (.error e) := by
  rcases r with _ | (e | a) <;> simp [Except.map]

theorem mapError_eq_ok_iff {f : ε → ε'} {r : Except ε α} {a : α} :
    r.mapError f = .ok a ↔ r = .ok a := by
  cases r <;> simp [Except.mapError]

variable {f : α → Except ε β}

/-- A list is mapped without failure if and only if each of its members is. -/
theorem mapM_eq_ok_iff {xs : List α} {ys : List β} :
    xs.mapM f = .ok ys ↔ List.Forall₂ (fun x y => f x = .ok y) xs ys := by
  induction xs generalizing ys with
  | nil => cases ys <;> simp [pure, Except.pure]
  | cons x xs ih =>
    rw [List.mapM_cons]
    cases hx : f x with
    | error e => cases ys <;> simp [bind, Except.bind, hx]
    | ok y =>
      cases hxs : xs.mapM f with
      | error e => cases ys <;> simp [bind, Except.bind, hx, ← ih, hxs]
      | ok rest => cases ys <;> simp [bind, Except.bind, pure, Except.pure, hx, ← ih, hxs]

/-- What is in the list of results is the result for something in the list. -/
theorem exists_of_mem_mapM {xs : List α} {ys : List β} {y : β} (h : xs.mapM f = .ok ys)
    (hy : y ∈ ys) : ∃ x ∈ xs, f x = .ok y := by
  induction mapM_eq_ok_iff.mp h with
  | nil => cases hy
  | @cons x y' xs ys hx hrest ih =>
    rcases List.mem_cons.mp hy with rfl | hy
    · exact ⟨x, List.mem_cons_self, hx⟩
    · obtain ⟨x', hx', hfx'⟩ := ih (mapM_eq_ok_iff.mpr hrest) hy
      exact ⟨x', List.mem_cons_of_mem x hx', hfx'⟩

/-- Mapping gives the error of a member that fails after members that do not. -/
theorem mapM_eq_error_iff {xs : List α} {e : ε} :
    xs.mapM f = .error e ↔
      ∃ earlier x later, xs = earlier ++ x :: later ∧ (∀ y ∈ earlier, ∃ b, f y = .ok b) ∧
        f x = .error e := by
  induction xs with
  | nil => simp [pure, Except.pure]
  | cons x xs ih =>
    rw [List.mapM_cons]
    cases hx : f x with
    | error e' =>
      constructor
      · intro h
        obtain rfl : e' = e := by simpa [bind, Except.bind] using h
        exact ⟨[], x, xs, rfl, by simp, hx⟩
      · rintro ⟨earlier, y, later, hsplit, hok, hy⟩
        rcases earlier with _ | ⟨z, earlier⟩
        · obtain ⟨rfl, rfl⟩ := List.cons.inj hsplit
          rw [hx] at hy
          simpa [bind, Except.bind] using hy
        · obtain ⟨rfl, -⟩ := List.cons.inj hsplit
          obtain ⟨b, hb⟩ := hok x List.mem_cons_self
          cases hx.symm.trans hb
    | ok b =>
      have htail : (do let y ← Except.ok b; let ys ← xs.mapM f; pure (y :: ys)) = .error e ↔
          xs.mapM f = .error e := by
        cases xs.mapM f <;> simp [bind, Except.bind, pure, Except.pure]
      rw [htail, ih]
      constructor
      · rintro ⟨earlier, y, later, rfl, hok, hy⟩
        exact ⟨x :: earlier, y, later, rfl, List.forall_mem_cons.mpr ⟨⟨b, hx⟩, hok⟩, hy⟩
      · rintro ⟨earlier, y, later, hsplit, hok, hy⟩
        rcases earlier with _ | ⟨z, earlier⟩
        · obtain ⟨rfl, -⟩ := List.cons.inj hsplit
          cases hx.symm.trans hy
        · obtain ⟨rfl, rfl⟩ := List.cons.inj hsplit
          exact ⟨earlier, y, later, rfl, (List.forall_mem_cons.mp hok).2, hy⟩

/-- If a test says which members fail, mapping gives the error of the first that it finds. -/
theorem mapM_eq_error_iff_find? {fails : α → Bool} {error : α → ε}
    (h : ∀ x e, f x = .error e ↔ fails x = true ∧ e = error x) {xs : List α} {e : ε} :
    xs.mapM f = .error e ↔ ∃ x, xs.find? fails = some x ∧ e = error x := by
  have hok : ∀ x, (∃ y, f x = .ok y) ↔ (!fails x) = true := by
    intro x
    have hx := h x
    cases hfx : f x with
    | ok y => simpa [hfx] using hx (error x)
    | error e' => simp [((h x e').mp hfx).1]
  rw [mapM_eq_error_iff]
  simp only [h, hok, List.find?_eq_some_iff_append]
  constructor
  · rintro ⟨earlier, x, later, hsplit, hearlier, hx, he⟩
    exact ⟨x, ⟨hx, earlier, later, hsplit, hearlier⟩, he⟩
  · rintro ⟨x, ⟨hx, earlier, later, hsplit, hearlier⟩, he⟩
    exact ⟨earlier, x, later, hsplit, hearlier, hx, he⟩

/-- There is an answer for a list if and only if there is one for each of its members. -/
theorem exists_mapM_eq_ok_iff {xs : List α} :
    (∃ ys, xs.mapM f = .ok ys) ↔ ∀ x ∈ xs, ∃ y, f x = .ok y := by
  constructor
  · rintro ⟨ys, hys⟩
    induction mapM_eq_ok_iff.mp hys with
    | nil => simp
    | cons hx hrest ih => exact List.forall_mem_cons.mpr ⟨⟨_, hx⟩, ih (mapM_eq_ok_iff.mpr hrest)⟩
  · intro h
    cases hys : xs.mapM f with
    | ok ys => exact ⟨ys, rfl⟩
    | error e =>
      obtain ⟨earlier, x, later, rfl, -, hx⟩ := mapM_eq_error_iff.mp hys
      obtain ⟨y, hy⟩ := h x (by simp)
      cases hx.symm.trans hy

/-- If two ways to map a member correspond to each other, then so do those to map a list. -/
theorem mapError_mapM {ε' γ δ : Type} {g : α → Except ε' δ} {k : δ → β} {h : ε → γ} {h' : ε' → γ}
    (hfg : ∀ x, (f x).mapError h = ((g x).map k).mapError h') (xs : List α) :
    (xs.mapM f).mapError h = ((xs.mapM g).map (List.map k)).mapError h' := by
  induction xs with
  | nil => rfl
  | cons x xs ih =>
    rw [List.mapM_cons, List.mapM_cons]
    have hx := hfg x
    generalize f x = fx, g x = gx at hx ⊢
    generalize xs.mapM f = fxs, xs.mapM g = gxs at ih ⊢
    rcases fx with e | y <;> rcases gx with e' | z
    · exact congrArg Except.error (Except.error.inj hx)
    · cases hx
    · cases hx
    · obtain rfl : y = k z := Except.ok.inj hx
      rcases fxs with e | ys <;> rcases gxs with e' | zs
      · exact congrArg Except.error (Except.error.inj ih)
      · cases ih
      · cases ih
      · obtain rfl : ys = zs.map k := Except.ok.inj ih
        rfl

end ModuleMap
