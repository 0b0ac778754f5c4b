import Mathlib.Tactic.SplitIfs
import ModuleMap.Glob.Parser

/-!
# Globs below a text

A glob that is spelled by an escaped text and a key after it matches the text and then what the key
matches.  The escaped text stands for itself, whatever characters it has: each of its characters is
one part.  And as long as it ends with a slash, the key is read as it is read by itself, since all
that the reader knows of what came before is whether a component starts.

* `Glob.nextPart`, `Glob.spelled`: reading part by part, without the positions of faults;
  `Glob.mapError_parseFrom` says that this is what the parser does.
* `Glob.exactly`: the parts of an escaped text, which match this text alone
  (`Glob.accepts_exactly_append_iff`), as they do for a text that is `Glob.IsPlain`.
* `Glob.mapError_parse_escape_append`: a key after an escaped text.
-/

namespace ModuleMap.Glob

variable {text cs rest : List Char} {c : Char} {part : Part} {startsComponent : Bool}

/-! ## Part by part -/

/-- Whether a path component starts after a part. -/
def Part.endsComponent (part : Part) : Bool :=
  part = .anyComponents || part = .literal '/'

/-- The part that starts with a character, and the text after it. -/
def nextPart (startsComponent : Bool) (c : Char) (cs : List Char) :
    Except Fault (Part × List Char) :=
  if c = '?' then .ok (.anyOne, cs)
  else if c = '*' then (parseStars 0 startsComponent cs).mapError Error.fault
  else if c = '[' then
    match parseClass? cs with
    | some found => .ok found
    | none => .error .unclosedClass
  else .ok (.literal c, cs)

/-- The position of stars does not matter for what they spell. -/
theorem mapError_parseStars (index index' : Nat) (startsComponent : Bool) (cs : List Char) :
    (parseStars index startsComponent cs).mapError Error.fault =
      (parseStars index' startsComponent cs).mapError Error.fault := by
  unfold parseStars
  split
  · rfl
  · cases startsComponent
    · rfl
    · simp only [if_true]
      split <;> rfl
  · rfl

theorem length_le_of_parseStars {index : Nat}
    (h : parseStars index startsComponent cs = .ok (part, rest)) : rest.length ≤ cs.length := by
  unfold parseStars at h
  split at h
  · cases h
  · cases startsComponent
    · cases h
    · simp only [if_true] at h
      split at h
      · cases h
        simp
      · cases h
        simp only [List.length_cons]
        omega
      · cases h
  · cases h
    exact Nat.le_refl _

/-- Stars spell a name or components. -/
theorem endsComponent_of_parseStars {index : Nat}
    (h : parseStars index startsComponent cs = .ok (part, rest)) :
    part.endsComponent = decide (part = .anyComponents) := by
  unfold parseStars at h
  split at h
  · cases h
  · cases startsComponent
    · cases h
    · simp only [if_true] at h
      split at h <;> cases h <;> rfl
  · cases h
    rfl

theorem length_le_of_splitClass? {listed : List Char}
    (h : splitClass? cs = some (listed, rest)) : rest.length ≤ cs.length := by
  induction cs generalizing listed with
  | nil => cases h
  | cons c cs ih =>
    rw [splitClass?] at h
    split at h
    · cases h
      simp
    · obtain ⟨found, hfound, hsplit⟩ := Option.map_eq_some_iff.mp h
      cases hsplit
      have hle := ih hfound
      rw [List.length_cons]
      omega

/-- A class takes characters off the text, and no component starts after it. -/
theorem parseClass?_spec (h : parseClass? cs = some (part, rest)) :
    rest.length ≤ cs.length ∧ part.endsComponent = false := by
  unfold parseClass? at h
  split at h
  · obtain ⟨⟨listed, rest'⟩, hsplit, hpart⟩ := Option.map_eq_some_iff.mp h
    cases hpart
    have hle := length_le_of_splitClass? hsplit
    refine ⟨?_, rfl⟩
    simp only [List.length_cons]
    omega
  · cases h
  · obtain ⟨⟨listed, rest'⟩, hsplit, hpart⟩ := Option.map_eq_some_iff.mp h
    cases hpart
    have hle := length_le_of_splitClass? hsplit
    refine ⟨?_, rfl⟩
    simp only [List.length_cons]
    omega
  · cases h

/-- Each part takes characters off the text. -/
theorem length_le_of_nextPart (h : nextPart startsComponent c cs = .ok (part, rest)) :
    rest.length ≤ cs.length := by
  unfold nextPart at h
  split_ifs at h with hone hstar hclass
  · cases h
    exact Nat.le_refl _
  · cases hstars : parseStars 0 startsComponent cs with
    | error e =>
      rw [hstars] at h
      cases h
    | ok found =>
      rw [hstars] at h
      cases h
      exact length_le_of_parseStars hstars
  · cases hfound : parseClass? cs with
    | none =>
      rw [hfound] at h
      cases h
    | some found =>
      rw [hfound] at h
      cases h
      exact (parseClass?_spec hfound).1
  · cases h
    exact Nat.le_refl _

/-- Without positions, the parser reads one part after the other. -/
theorem mapError_parseFrom_succ (total fuel : Nat) (startsComponent : Bool) (c : Char)
    (cs : List Char) :
    (parseFrom total (fuel + 1) startsComponent (c :: cs)).mapError Error.fault =
      (nextPart startsComponent c cs).bind fun (part, rest) =>
        ((parseFrom total fuel part.endsComponent rest).mapError Error.fault).map (part :: ·) := by
  have hparts : ∀ (part : Part) (parsed : Except Error Glob),
      (do return part :: (← parsed)).mapError Error.fault =
        (parsed.mapError Error.fault).map (part :: ·) := by
    intro part parsed
    cases parsed <;> rfl
  rw [parseFrom, nextPart]
  split_ifs with hone hstar hclass
  · exact hparts _ _
  · rw [mapError_parseStars 0 (total - (cs.length + 1))]
    cases hstars : parseStars (total - (cs.length + 1)) startsComponent cs with
    | error e => rfl
    | ok found =>
      obtain ⟨part, rest⟩ := found
      have hends := endsComponent_of_parseStars hstars
      show Except.mapError Error.fault (do
        return part :: (← parseFrom total fuel (decide (part = .anyComponents)) rest)) = _
      rw [hparts, ← hends]
      rfl
  · cases hfound : parseClass? cs with
    | none => rfl
    | some found =>
      obtain ⟨part, rest⟩ := found
      have hends := (parseClass?_spec hfound).2
      show Except.mapError Error.fault (do return part :: (← parseFrom total fuel false rest)) = _
      rw [hparts, ← hends]
      rfl
  · rw [hparts]
    have hends : (Part.literal c).endsComponent = decide (c = '/') := by
      simp [Part.endsComponent]
    simp only [Except.bind, hends]

/-- Positions and spare fuel do not matter for what is read. -/
theorem mapError_parseFrom_congr (total total' : Nat) {fuel fuel' : Nat}
    (h : text.length ≤ fuel) (h' : text.length ≤ fuel') :
    (parseFrom total fuel startsComponent text).mapError Error.fault =
      (parseFrom total' fuel' startsComponent text).mapError Error.fault := by
  have hnil : ∀ total fuel startsComponent, parseFrom total fuel startsComponent [] = .ok [] := by
    intro total fuel startsComponent
    cases fuel <;> rfl
  induction fuel generalizing fuel' startsComponent text with
  | zero =>
    obtain rfl : text = [] := List.length_eq_zero_iff.mp (Nat.le_zero.mp h)
    rw [hnil, hnil]
  | succ fuel ih =>
    rcases text with _ | ⟨c, cs⟩
    · rw [hnil, hnil]
    · rw [List.length_cons] at h h'
      cases fuel' with
      | zero => omega
      | succ fuel' =>
        rw [mapError_parseFrom_succ, mapError_parseFrom_succ]
        cases hpart : nextPart startsComponent c cs with
        | error f => rfl
        | ok found =>
          obtain ⟨part, rest⟩ := found
          have hle := length_le_of_nextPart hpart
          exact congrArg (Except.map (part :: ·)) (ih (by omega) (by omega))

/-- The glob that a text spells where a component starts, or does not. -/
def spelled (startsComponent : Bool) (text : List Char) : Except Fault Glob :=
  (parseFrom text.length text.length startsComponent text).mapError Error.fault

theorem spelled_cons (startsComponent : Bool) (c : Char) (cs : List Char) :
    spelled startsComponent (c :: cs) =
      (nextPart startsComponent c cs).bind fun (part, rest) =>
        (spelled part.endsComponent rest).map (part :: ·) := by
  unfold spelled
  rw [List.length_cons, mapError_parseFrom_succ]
  cases hpart : nextPart startsComponent c cs with
  | error f => rfl
  | ok found =>
    obtain ⟨part, rest⟩ := found
    have hle := length_le_of_nextPart hpart
    exact congrArg (Except.map (part :: ·)) (mapError_parseFrom_congr _ _ hle (Nat.le_refl _))

/-! ## Escaped texts -/

/-- The part that an escaped character spells. -/
def exactlyOne (c : Char) : Part :=
  if isSpecial c then .oneOf [.one c] else .literal c

/-- The parts that an escaped text spells. -/
def exactly (cs : List Char) : Glob :=
  cs.map exactlyOne

/-- An escaped character is one part, whatever comes before it and after it. -/
theorem spelled_escape_cons (startsComponent : Bool) (c : Char) (rest : List Char) :
    spelled startsComponent ((if isSpecial c then ['[', c, ']'] else [c]) ++ rest) =
      (spelled (c = '/') rest).map (exactlyOne c :: ·) := by
  unfold exactlyOne
  cases hc : isSpecial c with
  | true =>
    have hbang : c ≠ '!' := by
      rintro rfl
      cases hc
    have hslash : c ≠ '/' := by
      rintro rfl
      cases hc
    have hclass : parseClass? (c :: ']' :: rest) = some (.oneOf [.one c], rest) := by
      unfold parseClass?
      split
      · next heq => exact absurd (List.cons.inj heq).1 hbang
      · next heq => exact absurd (List.cons.inj heq).1 hbang
      · next heq =>
        obtain ⟨rfl, rfl⟩ := List.cons.inj heq
        rfl
      · next heq => cases heq
    show spelled startsComponent ('[' :: c :: ']' :: rest) = _
    rw [spelled_cons]
    simp [nextPart, hclass, Except.bind, Part.endsComponent, hslash]
  | false =>
    have hspecial : c ≠ '?' ∧ c ≠ '*' ∧ c ≠ '[' := by
      refine ⟨?_, ?_, ?_⟩ <;> rintro rfl <;> cases hc
    show spelled startsComponent (c :: rest) = _
    rw [spelled_cons]
    simp [nextPart, hspecial, Except.bind, Part.endsComponent]

/-- After an escaped text that ends with a slash, a key is read as it is by itself. -/
theorem spelled_escape_append (startsComponent : Bool) (cs key : List Char) :
    spelled startsComponent (escape (cs ++ ['/']) ++ key) =
      (spelled true key).map (exactly (cs ++ ['/']) ++ ·) := by
  induction cs generalizing startsComponent with
  | nil =>
    rw [List.nil_append, escape_cons, escape_nil, List.append_nil, spelled_escape_cons]
    rfl
  | cons c cs ih =>
    rw [List.cons_append, escape_cons, List.append_assoc, spelled_escape_cons, ih]
    cases spelled true key <;> rfl

/-- An escaped text spells its parts. -/
theorem spelled_escape (startsComponent : Bool) (cs : List Char) :
    spelled startsComponent (escape cs) = .ok (exactly cs) := by
  induction cs generalizing startsComponent with
  | nil => rfl
  | cons c cs ih =>
    rw [escape_cons, spelled_escape_cons, ih]
    rfl

theorem parse_escape (cs : List Char) : parse (escape cs) = .ok (exactly cs) := by
  have hspelled : (parse (escape cs)).mapError Error.fault = .ok (exactly cs) :=
    spelled_escape true cs
  cases hparse : parse (escape cs) with
  | error e =>
    rw [hparse] at hspelled
    cases hspelled
  | ok g =>
    rw [hparse] at hspelled
    exact congrArg Except.ok (Except.ok.inj hspelled)

/-- No character of the text has a meaning of its own in the spelling of globs. -/
def IsPlain (cs : List Char) : Prop :=
  ∀ c ∈ cs, isSpecial c = false

instance (cs : List Char) : Decidable (IsPlain cs) :=
  List.decidableBAll (isSpecial · = false) cs

/-- Such a text is spelled as it is. -/
theorem IsPlain.escape_eq_self (h : IsPlain cs) : escape cs = cs := by
  induction cs with
  | nil => rfl
  | cons c cs ih =>
    obtain ⟨hc, hcs⟩ := List.forall_mem_cons.mp h
    rw [escape_cons, hc, ih hcs]
    rfl

theorem IsPlain.parse_eq (h : IsPlain cs) : parse cs = .ok (exactly cs) := by
  rw [← parse_escape, h.escape_eq_self]

/-- **A key after an escaped text that ends with a slash.** -/
theorem mapError_parse_escape_append (cs key : List Char) :
    (parse (escape (cs ++ ['/']) ++ key)).mapError Error.fault =
      ((parse key).mapError Error.fault).map (exactly (cs ++ ['/']) ++ ·) :=
  spelled_escape_append true cs key

theorem admits_exactlyOne_iff {d : Char} : (exactlyOne c).admits d = true ↔ d = c := by
  unfold exactlyOne
  cases hc : isSpecial c with
  | false => simp [Part.admits]
  | true =>
    have hslash : c ≠ '/' := by
      rintro rfl
      cases hc
    simp only [if_true, Part.admits, ClassEntry.lists, List.any_cons, List.any_nil, Bool.or_false,
      Bool.and_eq_true, bne_iff_ne, beq_iff_eq]
    exact ⟨And.right, fun h => ⟨h ▸ hslash, h⟩⟩

theorem accepts_exactlyOne_nil (c : Char) (g : Glob) : accepts (exactlyOne c :: g) [] = false := by
  unfold exactlyOne
  split <;> rfl

theorem accepts_exactlyOne_cons (c d : Char) (g : Glob) (ds : List Char) :
    accepts (exactlyOne c :: g) (d :: ds) = ((exactlyOne c).admits d && accepts g ds) := by
  unfold exactlyOne
  split <;> rfl

/-- **An escaped text matches itself alone**, and what follows matches as it does by itself. -/
theorem accepts_exactly_append_iff {g : Glob} :
    accepts (exactly cs ++ g) text = true ↔ ∃ rest, text = cs ++ rest ∧ accepts g rest = true := by
  induction cs generalizing text with
  | nil => simp [exactly]
  | cons c cs ih =>
    show accepts (exactlyOne c :: (exactly cs ++ g)) text = true ↔ _
    rcases text with _ | ⟨d, ds⟩
    · simp [accepts_exactlyOne_nil]
    · rw [accepts_exactlyOne_cons, Bool.and_eq_true, admits_exactlyOne_iff, ih]
      constructor
      · rintro ⟨rfl, rest, rfl, hrest⟩
        exact ⟨rest, rfl, hrest⟩
      · rintro ⟨rest, heq, hrest⟩
        obtain ⟨rfl, rfl⟩ := List.cons.inj heq
        exact ⟨rfl, rest, rfl, hrest⟩

theorem accepts_exactly_iff : accepts (exactly cs) text = true ↔ text = cs := by
  rw [← List.append_nil (exactly cs), accepts_exactly_append_iff]
  constructor
  · rintro ⟨rest, rfl, hrest⟩
    rw [List.isEmpty_iff.mp hrest, List.append_nil]
  · rintro rfl
    exact ⟨[], (List.append_nil _).symm, rfl⟩

/-- What is spelled with an escaped text and a slash before it matches only what has these before
it. -/
theorem exists_eq_append_of_accepts {key : List Char} {g : Glob}
    (hg : parse (escape (cs ++ ['/']) ++ key) = .ok g) (h : g.accepts text = true) :
    ∃ rest, text = cs ++ '/' :: rest := by
  have hparsed := mapError_parse_escape_append cs key
  rw [hg] at hparsed
  cases hkey : parse key with
  | error e =>
    rw [hkey] at hparsed
    cases hparsed
  | ok g' =>
    rw [hkey] at hparsed
    obtain rfl : g = exactly (cs ++ ['/']) ++ g' := Except.ok.inj hparsed
    obtain ⟨rest, rfl, -⟩ := accepts_exactly_append_iff.mp h
    exact ⟨rest, by simp⟩

/-- Below an escaped text a glob matches what it matches by itself. -/
theorem matchesText_exactly_append (cs : List Char) (g : Glob) (rest : List Char) :
    matchesText (exactly cs ++ g) (cs ++ rest) = matchesText g rest := by
  rw [matchesText_eq, matchesText_eq, Bool.eq_iff_iff, accepts_exactly_append_iff]
  constructor
  · rintro ⟨rest', heq, hrest⟩
    rwa [List.append_cancel_left heq]
  · exact fun h => ⟨rest, rfl, h⟩

end ModuleMap.Glob
