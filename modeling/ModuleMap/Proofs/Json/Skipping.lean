import ModuleMap.Json.Reader
import ModuleMap.Proofs.Json.Forms

/-!
# Values that are passed over

A value that is passed over is taken token by token, and the brackets that are open are kept in a
list.  What one token does is said once, and by induction on the tokens those that are still taken
close all of these brackets, each after the rest of its items or members.

* `Json.SkipStep`, `Json.exists_skipStep`: what one token does.
* `Json.Closes`, `Json.Completes`: the tokens that close all open brackets.
* `Json.exists_of_skipFrom`, `Json.exists_of_skipValue`: the tokens that are taken.
-/

namespace ModuleMap.Json

/-! ## Stops -/

section

variable {α : Type} {ts : List Token}

theorem stop_ne_ok {category : Category} {a : α} : stop category ts ≠ .ok a := by
  simp [stop]

theorem unexpected_ne_ok {a : α} : unexpected ts ≠ .ok a := by
  cases ts <;> simp [unexpected, stop]

theorem stopFlawed_ne_ok {flaw : Flaw} {a : α} : stopFlawed flaw ts ≠ .ok a := by
  cases flaw <;> simp [stopFlawed, stop]

theorem stopBrokenString_ne_ok {pieces : List Piece} {flaw : Flaw} {a : α} :
    stopBrokenString pieces flaw ts ≠ .ok a := by
  unfold stopBrokenString
  split
  · exact stopFlawed_ne_ok
  · exact stop_ne_ok

theorem stopMistyped_ne_ok {a : α} : stopMistyped ts ≠ .ok a := by
  unfold stopMistyped
  split
  case h_1 | h_2 => split <;> exact stop_ne_ok
  case h_3 => exact stopBrokenString_ne_ok
  case h_4 | h_5 => exact stopFlawed_ne_ok
  case h_6 | h_7 | h_8 | h_9 => exact stop_ne_ok
  case h_10 => exact unexpected_ne_ok

end

/-! ## Brackets -/

namespace Bracket

def opening : Bracket → Token
  | brace => .openBrace
  | bracket => .openBracket

def closing : Bracket → Token
  | brace => .closeBrace
  | bracket => .closeBracket

def part : Bracket → Part
  | brace => .members
  | bracket => .items

theorem forms {b : Bracket} {us : List Token} (h : Remainder b.part true us) :
    Forms .value (b.opening :: (us ++ [b.closing])) := by
  cases b with
  | brace => exact h.object
  | bracket => exact h.array

end Bracket

/-! ## One token -/

variable {ts rest : List Token}

/-- Where a value may come next. -/
def AwaitsValue (opened : List Bracket) (awaiting : Awaiting) : Prop :=
  awaiting = .value ∨ awaiting = .first ∧ opened.head? ≠ some .brace

/-- Where nothing else may come next a value may. -/
theorem awaitsValue_of_ne {opened : List Bracket} {awaiting : Awaiting}
    (hseparator : awaiting ≠ .separator) (hcolon : awaiting ≠ .colon) (hkey : awaiting ≠ .key)
    (hfirst : ∀ outer, awaiting = .first → opened ≠ .brace :: outer) :
    AwaitsValue opened awaiting := by
  cases awaiting with
  | value => exact Or.inl rfl
  | first =>
    refine Or.inr ⟨rfl, fun hbrace => ?_⟩
    obtain ⟨outer, rfl⟩ := List.head?_eq_some_iff.mp hbrace
    exact hfirst outer rfl rfl
  | key => exact absurd rfl hkey
  | colon => exact absurd rfl hcolon
  | separator => exact absurd rfl hseparator

/-- What one token does when a value is passed over. -/
inductive SkipStep : List Bracket → Awaiting → Token → List Bracket → Awaiting → Prop
  | close (b : Bracket) (outer : List Bracket) {awaiting : Awaiting}
      (h : awaiting = .first ∨ awaiting = .separator) :
      SkipStep (b :: outer) awaiting b.closing outer .separator
  | comma (b : Bracket) (outer : List Bracket) :
      SkipStep (b :: outer) .separator .comma (b :: outer) b.element
  | colon (opened : List Bracket) : SkipStep opened .colon .colon opened .value
  | key (opened : List Bracket) (pieces : List Piece) :
      SkipStep opened .key (.string pieces) opened .colon
  | firstKey (outer : List Bracket) (pieces : List Piece) :
      SkipStep (.brace :: outer) .first (.string pieces) (.brace :: outer) .colon
  | opens {opened : List Bracket} {awaiting : Awaiting} (h : AwaitsValue opened awaiting)
      (b : Bracket) : SkipStep opened awaiting b.opening (b :: opened) .first
  | scalar {opened : List Bracket} {awaiting : Awaiting} {t : Token}
      (h : AwaitsValue opened awaiting) (ht : t.isScalar = true) :
      SkipStep opened awaiting t opened .separator

/-- A value that is passed over ends before a token, or goes on after it. -/
theorem exists_skipStep {opened : List Bracket} {awaiting : Awaiting} {t : Token}
    (h : skipFrom opened awaiting (t :: ts) = .ok rest) :
    (opened = [] ∧ awaiting = .separator ∧ rest = t :: ts) ∨
      ∃ opened' awaiting', SkipStep opened awaiting t opened' awaiting' ∧
        skipFrom opened' awaiting' ts = .ok rest := by
  rw [skipFrom.eq_def] at h
  split at h
  · cases h
    exact Or.inl ⟨rfl, rfl, rfl⟩
  · next heq => cases heq
  · next heq =>
    obtain ⟨rfl, rfl⟩ := List.cons.inj heq
    split at h
    case h_1 | h_2 => exact Or.inr ⟨_, _, .close _ _ (Or.inl rfl), h⟩
    case h_3 | h_4 => exact Or.inr ⟨_, _, .close _ _ (Or.inr rfl), h⟩
    case h_5 => exact Or.inr ⟨_, _, .comma _ _, h⟩
    case h_7 => exact Or.inr ⟨_, _, .colon _, h⟩
    case h_9 => exact Or.inr ⟨_, _, .key _ _, h⟩
    case h_12 => exact Or.inr ⟨_, _, .firstKey _ _, h⟩
    case h_15 hseparator hcolon hkey hfirst =>
      exact Or.inr ⟨_, _, .opens (awaitsValue_of_ne hseparator hcolon hkey hfirst) .brace, h⟩
    case h_16 hseparator hcolon hkey hfirst =>
      exact Or.inr ⟨_, _, .opens (awaitsValue_of_ne hseparator hcolon hkey hfirst) .bracket, h⟩
    case h_17 hseparator hcolon hkey hfirst | h_18 hseparator hcolon hkey hfirst
        | h_19 hseparator hcolon hkey hfirst | h_20 hseparator hcolon hkey hfirst =>
      exact Or.inr ⟨_, _, .scalar (awaitsValue_of_ne hseparator hcolon hkey hfirst) rfl, h⟩
    case h_10 | h_13 | h_21 | h_22 | h_23 => exact absurd h stopFlawed_ne_ok
    case h_6 | h_8 | h_11 | h_14 | h_24 | h_25 => exact absurd h stop_ne_ok

/-! ## All tokens -/

/-- The tokens that close all open brackets, each after the rest of its items or members. -/
def Closes : List Bracket → List Token → Prop
  | [], us => us = []
  | b :: outer, us => ∃ more us', us = more ++ b.closing :: us' ∧
      Remainder b.part false more ∧ Closes outer us'

/-- The tokens that close all open brackets after a value. -/
def ClosesAfterValue (opened : List Bracket) (us : List Token) : Prop :=
  ∃ vs us', us = vs ++ us' ∧ Forms .value vs ∧ Closes opened us'

/-- The tokens that close all open brackets from where the next token has the given place. -/
def Completes : List Bracket → Awaiting → List Token → Prop
  | opened, .separator, us => Closes opened us
  | opened, .value, us => ClosesAfterValue opened us
  | opened, .colon, us => ∃ us', us = .colon :: us' ∧ ClosesAfterValue opened us'
  | opened, .key, us => ∃ pieces us', us = .string pieces :: .colon :: us' ∧
      ClosesAfterValue opened us'
  | [], .first, us => ClosesAfterValue [] us
  | b :: outer, .first, us => ∃ more us', us = more ++ b.closing :: us' ∧
      Remainder b.part true more ∧ Closes outer us'

theorem completes_of_awaitsValue {opened : List Bracket} {awaiting : Awaiting} {vs us : List Token}
    (h : AwaitsValue opened awaiting) (hvs : Forms .value vs) (hus : Closes opened us) :
    Completes opened awaiting (vs ++ us) := by
  rcases h with rfl | ⟨rfl, hbrace⟩
  · exact ⟨vs, us, rfl, hvs, hus⟩
  · rcases opened with _ | ⟨_ | _, outer⟩
    · exact ⟨vs, us, rfl, hvs, hus⟩
    · exact absurd rfl hbrace
    · obtain ⟨more, us', rfl, hmore, hus'⟩ := hus
      exact ⟨vs ++ more, us', by simp, .all (hmore.items hvs), hus'⟩

/-- What is left after a token is left before it, with the token. -/
theorem Completes.step {opened opened' : List Bracket} {awaiting awaiting' : Awaiting} {t : Token}
    {us : List Token} (hstep : SkipStep opened awaiting t opened' awaiting')
    (h : Completes opened' awaiting' us) : Completes opened awaiting (t :: us) := by
  cases hstep with
  | close b outer hawaiting =>
    rcases hawaiting with rfl | rfl
    · exact ⟨[], us, rfl, .none, h⟩
    · exact ⟨[], us, rfl, .none, h⟩
  | comma b outer =>
    cases b with
    | brace =>
      obtain ⟨pieces, _, rfl, vs, _, rfl, hvs, more, us', rfl, hmore, hus'⟩ := h
      exact ⟨.comma :: .string pieces :: .colon :: (vs ++ more), us', by simp,
        .more (hmore.members hvs), hus'⟩
    | bracket =>
      obtain ⟨vs, _, rfl, hvs, more, us', rfl, hmore, hus'⟩ := h
      exact ⟨.comma :: (vs ++ more), us', by simp, .more (hmore.items hvs), hus'⟩
  | colon => exact ⟨us, rfl, h⟩
  | key _ pieces =>
    obtain ⟨us', rfl, hus'⟩ := h
    exact ⟨pieces, us', rfl, hus'⟩
  | firstKey outer pieces =>
    obtain ⟨_, rfl, vs, _, rfl, hvs, more, us', rfl, hmore, hus'⟩ := h
    exact ⟨.string pieces :: .colon :: (vs ++ more), us', by simp, .all (hmore.members hvs), hus'⟩
  | opens hawaiting b =>
    obtain ⟨more, us', rfl, hmore, hus'⟩ := h
    have hvalue := completes_of_awaitsValue hawaiting (Bracket.forms hmore) hus'
    simpa using hvalue
  | scalar hawaiting ht => exact completes_of_awaitsValue hawaiting (.scalar ht) h

/-- What is taken of a value that is passed over closes all open brackets. -/
theorem exists_of_skipFrom {opened : List Bracket} {awaiting : Awaiting}
    (h : skipFrom opened awaiting ts = .ok rest) :
    ∃ us, ts = us ++ rest ∧ Completes opened awaiting us := by
  induction ts generalizing opened awaiting with
  | nil =>
    rw [skipFrom.eq_def] at h
    split at h
    · cases h
      exact ⟨[], rfl, rfl⟩
    · exact absurd h stop_ne_ok
    · next heq => cases heq
  | cons t ts ih =>
    rcases exists_skipStep h with ⟨rfl, rfl, rfl⟩ | ⟨opened', awaiting', hstep, hrest⟩
    · exact ⟨[], rfl, rfl⟩
    · obtain ⟨us, rfl, hus⟩ := ih hrest
      exact ⟨t :: us, rfl, hus.step hstep⟩

theorem exists_of_skipValue (h : skipValue ts = .ok rest) :
    ∃ us, ts = us ++ rest ∧ Forms .value us := by
  obtain ⟨_, rfl, us, _, rfl, hus, rfl⟩ := exists_of_skipFrom h
  exact ⟨us, by simp, hus⟩

end ModuleMap.Json
