import ModuleMap.Proofs.Json.Scanning

/-!
# The tokens of a value

The grammar of values over tokens, without regard to how each is spelled.  Readers take a value from
its first token on, so that at any time some of its items or members may be left.

* `Json.Forms`: the tokens of a value, with `Json.Forms.relaxes` for their lexemes.
* `Json.Remainder`: what is left of the items of an array or the members of an object.
-/

namespace ModuleMap.Json

/-! ## Whole values -/

/-- Whether a token is a value by itself. -/
def Token.isScalar : Token → Bool
  | .null | .bool _ | .number _ | .string _ => true
  | _ => false

/-- The tokens of a part of a value. -/
inductive Forms : Part → List Token → Prop
  | scalar {t : Token} (h : t.isScalar = true) : Forms .value [t]
  | emptyArray : Forms .value [.openBracket, .closeBracket]
  | array {ts : List Token} (h : Forms .items ts) :
      Forms .value (.openBracket :: (ts ++ [.closeBracket]))
  | emptyObject : Forms .value [.openBrace, .closeBrace]
  | object {ts : List Token} (h : Forms .members ts) :
      Forms .value (.openBrace :: (ts ++ [.closeBrace]))
  | item {ts : List Token} (h : Forms .value ts) : Forms .items ts
  | moreItems {ts us : List Token} (h : Forms .value ts) (h' : Forms .items us) :
      Forms .items (ts ++ .comma :: us)
  | member {pieces : List Piece} {ts : List Token} (h : Forms .value ts) :
      Forms .members (.string pieces :: .colon :: ts)
  | moreMembers {pieces : List Piece} {ts us : List Token} (h : Forms .value ts)
      (h' : Forms .members us) : Forms .members (.string pieces :: .colon :: (ts ++ .comma :: us))

theorem Forms.isWhole {p : Part} {ts : List Token} (h : Forms p ts) :
    ∀ t ∈ ts, t.isWhole = true := by
  have hbracket : ∀ {o c : Token} (ts : List Token), o.isWhole = true → c.isWhole = true →
      (∀ t ∈ ts, t.isWhole = true) → ∀ t ∈ o :: (ts ++ [c]), t.isWhole = true := by
    intro o c ts ho hc hts
    rw [List.forall_mem_cons, List.forall_mem_append, List.forall_mem_singleton]
    exact ⟨ho, hts, hc⟩
  induction h with
  | @scalar t h =>
    rw [List.forall_mem_singleton]
    cases t <;> first | rfl | cases h
  | emptyArray | emptyObject => exact hbracket [] rfl rfl (by simp)
  | array _ ih | object _ ih => exact hbracket _ rfl rfl ih
  | item _ ih => exact ih
  | moreItems _ _ ih ih' =>
    rw [List.forall_mem_append, List.forall_mem_cons]
    exact ⟨ih, rfl, ih'⟩
  | member _ ih =>
    rw [List.forall_mem_cons, List.forall_mem_cons]
    exact ⟨rfl, rfl, ih⟩
  | moreMembers _ _ ih ih' =>
    rw [List.forall_mem_cons, List.forall_mem_cons, List.forall_mem_append, List.forall_mem_cons]
    exact ⟨rfl, rfl, ih, rfl, ih'⟩

theorem Spells.isScalar {l : Lexeme} {t : Token} (h : Spells l t) (ht : t.isScalar = true) :
    IsScalar l := by
  cases t with
  | null =>
    obtain rfl := h
    exact .word (by decide)
  | bool b =>
    obtain rfl := h
    cases b <;> exact .word (by decide)
  | number n => exact .number h
  | string pieces => exact .string h
  | _ => cases ht

/-- The lexemes of tokens between two others. -/
theorem exists_of_spells_bracketed {o c : Token} {ls : List Lexeme} (ts : List Token)
    (h : List.Forall₂ Spells ls (o :: (ts ++ [c]))) :
    ∃ l ms m, ls = l :: (ms ++ [m]) ∧ Spells l o ∧ List.Forall₂ Spells ms ts ∧ Spells m c := by
  obtain ⟨l, ls, hl, hls, rfl⟩ := List.forall₂_cons_right_iff.mp h
  have hms := List.forall₂_take_append ls ts [c] hls
  obtain ⟨m, _, hm, hnil, hdrop⟩ :=
    List.forall₂_cons_right_iff.mp (List.forall₂_drop_append ls ts [c] hls)
  obtain rfl := List.forall₂_nil_right_iff.mp hnil
  refine ⟨l, ls.take ts.length, m, ?_, hl, hms, hm⟩
  rw [← hdrop, List.take_append_drop]

/-- The lexemes of tokens before and after a comma. -/
theorem exists_of_spells_comma {ts us : List Token} {ls : List Lexeme}
    (h : List.Forall₂ Spells ls (ts ++ .comma :: us)) :
    ∃ ms ns, ls = ms ++ [','] :: ns ∧ List.Forall₂ Spells ms ts ∧ List.Forall₂ Spells ns us := by
  have hms := List.forall₂_take_append ls ts (.comma :: us) h
  obtain ⟨_, ns, rfl, hns, hdrop⟩ :=
    List.forall₂_cons_right_iff.mp (List.forall₂_drop_append ls ts (.comma :: us) h)
  refine ⟨ls.take ts.length, ns, ?_, hms, hns⟩
  rw [← hdrop, List.take_append_drop]

/-- The lexemes of a key, its colon and what comes after it. -/
theorem exists_of_spells_member {pieces : List Piece} {ts : List Token} {ls : List Lexeme}
    (h : List.Forall₂ Spells ls (.string pieces :: .colon :: ts)) :
    ∃ key ms, ls = key :: [':'] :: ms ∧ IsString key ∧ List.Forall₂ Spells ms ts := by
  obtain ⟨key, _, hkey, hrest, rfl⟩ := List.forall₂_cons_right_iff.mp h
  obtain ⟨_, ms, rfl, hms, rfl⟩ := List.forall₂_cons_right_iff.mp hrest
  exact ⟨key, ms, rfl, hkey, hms⟩

/-- The lexemes of the tokens of a value are those of a value. -/
theorem Forms.relaxes {p : Part} {ts : List Token} (h : Forms p ts) {ls : List Lexeme}
    (hls : List.Forall₂ Spells ls ts) : Relaxes p ls ls := by
  induction h generalizing ls with
  | scalar h =>
    obtain ⟨l, _, hl, hnil, rfl⟩ := List.forall₂_cons_right_iff.mp hls
    obtain rfl := List.forall₂_nil_right_iff.mp hnil
    exact .scalar (hl.isScalar h)
  | emptyArray =>
    obtain ⟨_, ms, _, rfl, rfl, hms, rfl⟩ := exists_of_spells_bracketed [] hls
    obtain rfl := List.forall₂_nil_right_iff.mp hms
    exact .emptyArray
  | array _ ih =>
    obtain ⟨_, ms, _, rfl, rfl, hms, rfl⟩ := exists_of_spells_bracketed _ hls
    exact .array (ih hms) (Or.inl rfl)
  | emptyObject =>
    obtain ⟨_, ms, _, rfl, rfl, hms, rfl⟩ := exists_of_spells_bracketed [] hls
    obtain rfl := List.forall₂_nil_right_iff.mp hms
    exact .emptyObject
  | object _ ih =>
    obtain ⟨_, ms, _, rfl, rfl, hms, rfl⟩ := exists_of_spells_bracketed _ hls
    exact .object (ih hms) (Or.inl rfl)
  | item _ ih => exact .item (ih hls)
  | moreItems _ _ ih ih' =>
    obtain ⟨ms, ns, rfl, hms, hns⟩ := exists_of_spells_comma hls
    exact .moreItems (ih hms) (ih' hns)
  | member _ ih =>
    obtain ⟨key, ms, rfl, hkey, hms⟩ := exists_of_spells_member hls
    exact .member hkey (ih hms)
  | moreMembers _ _ ih ih' =>
    obtain ⟨key, _, rfl, hkey, hls⟩ := exists_of_spells_member hls
    obtain ⟨ms, ns, rfl, hms, hns⟩ := exists_of_spells_comma hls
    exact .moreMembers hkey (ih hms) (ih' hns)

/-! ## Items and members that are left -/

variable {ts : List Token}

/-- What is left of the items of an array or the members of an object before the closing bracket,
from the first of them on or after one of them. -/
inductive Remainder (p : Part) : (first : Bool) → List Token → Prop
  | none {first : Bool} : Remainder p first []
  | all {ts : List Token} (h : Forms p ts) : Remainder p true ts
  | more {ts : List Token} (h : Forms p ts) : Remainder p false (.comma :: ts)

/-- Tokens with a comma before them, but for the first ones. -/
def following (first : Bool) (ts : List Token) : List Token :=
  if first then ts else .comma :: ts

theorem Remainder.following {p : Part} {first : Bool} (h : Forms p ts) :
    Remainder p first (following first ts) := by
  cases first with
  | false => exact .more h
  | true => exact .all h

theorem Remainder.items {us vs : List Token} (hvs : Forms .value vs)
    (h : Remainder .items false us) : Forms .items (vs ++ us) := by
  cases h with
  | none => exact (List.append_nil vs).symm ▸ .item hvs
  | more h => exact .moreItems hvs h

theorem Remainder.members {pieces : List Piece} {us vs : List Token} (hvs : Forms .value vs)
    (h : Remainder .members false us) :
    Forms .members (.string pieces :: .colon :: (vs ++ us)) := by
  cases h with
  | none => exact (List.append_nil vs).symm ▸ .member hvs
  | more h => exact .moreMembers hvs h

theorem Remainder.array {us : List Token} (h : Remainder .items true us) :
    Forms .value (.openBracket :: (us ++ [.closeBracket])) := by
  cases h with
  | none => exact .emptyArray
  | all h => exact .array h

theorem Remainder.object {us : List Token} (h : Remainder .members true us) :
    Forms .value (.openBrace :: (us ++ [.closeBrace])) := by
  cases h with
  | none => exact .emptyObject
  | all h => exact .object h

end ModuleMap.Json
