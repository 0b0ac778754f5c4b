import ModuleMap.Json.Document
import ModuleMap.Proofs.Json.FaultLines

/-!
# Where readers stop

A reader takes tokens from the left, so what it leaves is among those that it was given.  If it
stops, line ends have been passed within one of these at most, and only up to a flaw of it.  So the
line that is reported for a text is one of its lines.

* `Json.StaysWithin`: what is left of the given tokens, or passed within one of them.
* `Json.Careful`: readers that stay within the tokens they are given, with `Json.careful_readRecord`
  and `Json.careful_readValue`.
* `Json.Careful.line`: the line that is reported for a text.
-/

namespace ModuleMap.Json

section

variable {α β σ : Type} {left : α → List Token} {left' : β → List Token} {ts us : List Token}
  {r : Except Stop α}

/-! ## Steps of reading -/

/-- The tokens that are left after a step are among the given ones, and a stop has passed line ends
only as a flaw of one of these says. -/
def StaysWithin (left : α → List Token) (ts : List Token) : Except Stop α → Prop
  | .ok a => left a ⊆ ts
  | .error s => Flagged ts s.passed

theorem StaysWithin.mono (h : StaysWithin left us r) (hsub : us ⊆ ts) : StaysWithin left ts r := by
  cases r with
  | ok a => exact List.Subset.trans h hsub
  | error s => exact h.imp_right fun ⟨t, ht, hflaw⟩ => ⟨t, hsub ht, hflaw⟩

theorem StaysWithin.tail {t : Token} (h : StaysWithin left ts r) : StaysWithin left (t :: ts) r :=
  h.mono (List.subset_cons_self t ts)

/-- A step after another reads what that one has left. -/
theorem StaysWithin.bind {f : α → Except Stop β} (h : StaysWithin left ts r)
    (hf : ∀ a, StaysWithin left' (left a) (f a)) : StaysWithin left' ts (r >>= f) := by
  cases r with
  | ok a => exact (hf a).mono h
  | error s => exact h

theorem StaysWithin.map {f : α → β} (h : StaysWithin left ts r) (hf : ∀ a, left' (f a) = left a) :
    StaysWithin left' ts (r.map f) := by
  cases r with
  | ok a =>
    show left' (f a) ⊆ ts
    rw [hf]
    exact h
  | error s => exact h

theorem staysWithin_stop (category : Category) (us : List Token) :
    StaysWithin left ts (stop category us) :=
  Or.inl rfl

theorem staysWithin_unexpected (us : List Token) : StaysWithin left ts (unexpected us) := by
  cases us <;> exact staysWithin_stop _ _

theorem staysWithin_stopFlawed {t : Token} {flaw : Flaw} (ht : t ∈ ts) (hflaw : flaw ∈ t.flaws)
    (us : List Token) : StaysWithin left ts (stopFlawed flaw us) := by
  cases flaw with
  | cutOff => exact staysWithin_stop _ _
  | misfit passed => exact Or.inr ⟨t, ht, hflaw⟩

theorem staysWithin_stopBrokenString {t : Token} {flaw : Flaw} (ht : t ∈ ts)
    (hflaw : flaw ∈ t.flaws) (pieces : List Piece) (us : List Token) :
    StaysWithin left ts (stopBrokenString pieces flaw us) := by
  unfold stopBrokenString
  split
  · exact staysWithin_stopFlawed ht hflaw us
  · exact staysWithin_stop _ _

theorem staysWithin_stopMistyped (ts : List Token) : StaysWithin left ts (stopMistyped ts) := by
  unfold stopMistyped
  split
  case h_1 | h_2 => split <;> exact staysWithin_stop _ _
  case h_3 =>
    exact staysWithin_stopBrokenString List.mem_cons_self (by simp [Token.flaws]) _ _
  case h_4 | h_5 => exact staysWithin_stopFlawed List.mem_cons_self (by simp [Token.flaws]) _
  case h_6 | h_7 | h_8 | h_9 => exact staysWithin_stop _ _
  case h_10 => exact staysWithin_unexpected _

theorem staysWithin_readColon (ts : List Token) : StaysWithin id ts (readColon ts) := by
  unfold readColon
  split
  · exact List.subset_cons_self _ _
  · exact staysWithin_unexpected _

theorem staysWithin_skipFrom (opened : List Bracket) (awaiting : Awaiting) (ts : List Token) :
    StaysWithin id ts (skipFrom opened awaiting ts) := by
  induction ts generalizing opened awaiting with
  | nil =>
    rw [skipFrom.eq_def]
    split
    · exact List.Subset.refl _
    · exact staysWithin_stop _ _
    · next heq => cases heq
  | cons t ts ih =>
    rw [skipFrom.eq_def]
    split
    · exact List.Subset.refl _
    · next heq => cases heq
    · next heq =>
      obtain ⟨rfl, rfl⟩ := List.cons.inj heq
      split
      case h_1 | h_2 | h_3 | h_4 | h_5 | h_7 | h_9 | h_12 | h_15 | h_16 | h_17 | h_18 | h_19
          | h_20 => exact (ih _ _).tail
      case h_10 | h_13 | h_21 | h_22 | h_23 =>
        exact staysWithin_stopFlawed List.mem_cons_self (by simp [Token.flaws]) _
      case h_6 | h_8 | h_11 | h_14 | h_24 | h_25 => exact staysWithin_stop _ _

/-! ## Readers -/

/-- A reader stays within the tokens it is given. -/
def Careful (read : Reader α) : Prop :=
  ∀ ts, StaysWithin Prod.snd ts (read ts)

theorem careful_readString : Careful readString := by
  intro ts
  unfold readString
  split
  · split
    · exact List.subset_cons_self _ _
    · exact staysWithin_stop _ _
  · exact staysWithin_stopMistyped _

/-- What is made of a value does not matter. -/
theorem Careful.bind_ok {read : Reader α} (hread : Careful read) (f : α → β) :
    Careful (fun ts => do
      let (a, rest) ← read ts
      .ok (f a, rest)) :=
  fun ts => (hread ts).bind fun _ => List.Subset.refl _

theorem careful_readNullable {read : Reader α} (hread : Careful read) :
    Careful (readNullable read) := by
  intro ts
  unfold readNullable
  split
  · exact List.subset_cons_self _ _
  · exact (hread _).map fun _ => rfl

/-! ## Items and members -/

theorem careful_moreItems (first : Bool) : Careful (moreItems first) := by
  intro ts
  unfold moreItems
  split
  · exact List.Subset.refl _
  · exact staysWithin_stop _ _
  · split
    · exact List.Subset.refl _
    · split
      · exact staysWithin_stop _ _
      · exact staysWithin_stop _ _
      · exact List.subset_cons_self _ _
  · split
    · exact List.Subset.refl _
    · exact staysWithin_stop _ _

theorem careful_foldItems {item : σ → Reader σ} (hitem : ∀ s, Careful (item s)) (fuel : ℕ)
    (first : Bool) (s : σ) : Careful (foldItems item fuel first s) := by
  induction fuel generalizing first s with
  | zero => exact fun ts => staysWithin_unexpected ts
  | succ fuel ih =>
    intro ts
    rw [foldItems]
    refine (careful_moreItems first ts).bind fun ⟨more, rest⟩ => ?_
    cases more with
    | false => exact (List.tail_suffix rest).subset
    | true => exact (hitem s rest).bind fun ⟨s', rest'⟩ => ih false s' rest'

theorem careful_nextKey (first : Bool) : Careful (nextKey first) := by
  intro ts
  unfold nextKey
  split
  · exact List.Subset.refl _
  · exact staysWithin_stop _ _
  · extract_lets readKey
    -- The key is read from where the comma has been taken.
    have hkey : Careful readKey := by
      intro us
      dsimp only [readKey]
      split
      · exact (careful_readString _).map fun _ => rfl
      · exact staysWithin_stopBrokenString List.mem_cons_self (by simp [Token.flaws]) _ _
      · exact staysWithin_unexpected _
    split
    · exact hkey _
    · split
      · exact (hkey _).tail
      · exact staysWithin_stop _ _

theorem careful_foldMembers {member : String → σ → Reader σ}
    (hmember : ∀ key s, Careful (member key s)) (fuel : ℕ) (first : Bool) (s : σ) :
    Careful (foldMembers member fuel first s) := by
  induction fuel generalizing first s with
  | zero => exact fun ts => staysWithin_unexpected ts
  | succ fuel ih =>
    intro ts
    rw [foldMembers]
    refine (careful_nextKey first ts).bind fun ⟨key?, rest⟩ => ?_
    cases key? with
    | none => exact (List.tail_suffix rest).subset
    | some key => exact (hmember key s rest).bind fun ⟨s', rest'⟩ => ih false s' rest'

theorem careful_readItems {read : Reader α} (hread : Careful read) : Careful (readItems read) := by
  intro ts
  unfold readItems
  split
  · refine StaysWithin.tail ?_
    have hitems := careful_foldItems fun found => hread.bind_ok fun a => a :: found
    exact (hitems _ true [] _).bind fun _ => List.Subset.refl _
  · exact staysWithin_stopMistyped _

theorem careful_readEntries {read : Reader α} (hread : Careful read) :
    Careful (readEntries read) := by
  intro ts
  unfold readEntries
  split
  · refine StaysWithin.tail ?_
    refine (careful_foldMembers (fun key found ts => ?_) _ true [] _).bind fun _ =>
      List.Subset.refl _
    refine (staysWithin_readColon ts).bind fun rest => ?_
    exact (hread rest).bind fun _ => List.Subset.refl _
  · exact staysWithin_stopMistyped _

/-! ## Records and words -/

/-- Placing a fault changes the token it concerns, not what was passed. -/
theorem passed_settle (s : Stop) (inArray : Bool) (ts : List Token) :
    (s.settle inArray ts).passed = s.passed := by
  unfold Stop.settle
  split
  · split <;> rfl
  · rfl

theorem Careful.settled {read : Reader α} (hread : Careful read) (inArray : Bool) :
    Careful (settled inArray read) := by
  intro ts
  have hts := hread ts
  unfold Json.settled
  cases hr : read ts with
  | ok a =>
    rw [hr] at hts
    exact hts
  | error s =>
    rw [hr] at hts
    show Flagged ts (s.settle inArray ts).passed
    rw [passed_settle]
    exact hts

theorem careful_readRecordMembers {fields : List (Field σ)}
    (hfields : ∀ field ∈ fields, ∀ s, Careful (field.read s)) (presence : Presence) (s : σ) :
    Careful (readRecordMembers fields presence s) := by
  intro ts
  unfold readRecordMembers
  refine (careful_foldMembers (fun key state ts => ?_) _ true _ _).bind
    fun ⟨⟨given, s'⟩, rest⟩ => ?_
  · dsimp only
    split
    · refine (staysWithin_readColon ts).bind fun rest => ?_
      exact (staysWithin_skipFrom [] .value rest).bind fun _ => List.Subset.refl _
    · next field hfield =>
      split
      · exact staysWithin_stop _ _
      · have hread := (hfields field (List.mem_of_find?_eq_some hfield) state.2).settled false
        refine (staysWithin_readColon ts).bind fun rest => ?_
        exact (hread rest).bind fun _ => List.Subset.refl _
  · dsimp only
    split
    · exact List.Subset.refl _
    · exact Or.inl rfl

theorem staysWithin_closeRecord (ts : List Token) : StaysWithin id ts (closeRecord ts) := by
  unfold closeRecord
  split
  · exact List.subset_cons_self _ _
  · exact staysWithin_stop _ _
  · exact staysWithin_unexpected _

theorem careful_readRecordItems {fields : List (Field σ)}
    (hfields : ∀ field ∈ fields, ∀ s, Careful (field.read s)) (presence : Presence) (first : Bool)
    (s : σ) : Careful (readRecordItems presence first fields s) := by
  induction fields generalizing first s with
  | nil =>
    intro ts
    rw [readRecordItems]
    exact (staysWithin_closeRecord ts).bind fun _ => List.Subset.refl _
  | cons field fields ih =>
    rw [List.forall_mem_cons] at hfields
    intro ts
    rw [readRecordItems]
    refine (careful_moreItems first ts).bind fun ⟨more, rest⟩ => ?_
    cases more with
    | false =>
      dsimp only
      split
      · exact (List.tail_suffix rest).subset
      · exact staysWithin_stop _ _
    | true =>
      refine ((hfields.1 s).settled true rest).bind fun ⟨s', rest'⟩ => ?_
      exact ih hfields.2 false s' rest'

theorem careful_readRecord {fields : List (Field σ)}
    (hfields : ∀ field ∈ fields, ∀ s, Careful (field.read s)) (presence : Presence) (s : σ) :
    Careful (readRecord fields presence s) := by
  intro ts
  unfold readRecord
  split
  · exact (careful_readRecordMembers hfields presence s _).tail
  · exact (careful_readRecordItems hfields presence true s _).tail
  · exact staysWithin_stopMistyped _

theorem careful_word (choices : List (String × α)) :
    Careful (fun ts => do
      let (s, rest) ← readString ts
      match choices.lookup s with
      | some a => .ok (a, rest)
      | none => stop .mistyped ts) := by
  intro ts
  refine (careful_readString ts).bind fun ⟨s, rest⟩ => ?_
  dsimp only
  split
  · exact List.Subset.refl _
  · exact staysWithin_stop _ _

theorem careful_readChoice {choices : List (String × α)} : Careful (readChoice choices) := by
  intro ts
  unfold readChoice
  extract_lets afterWord
  have hafter : ∀ a rest, StaysWithin Prod.snd rest (afterWord (a, rest)) := by
    intro a rest
    refine (staysWithin_readColon rest).bind fun rest => ?_
    split
    · exact (List.suffix_append [Token.null, Token.closeBrace] _).subset
    · exact (staysWithin_unexpected _).tail
    · exact staysWithin_stopMistyped _
  split
  case h_1 | h_2 => exact careful_word choices _
  case h_3 =>
    refine StaysWithin.tail ?_
    split
    case h_1 | h_2 => exact (careful_word choices _).bind fun ⟨a, rest⟩ => hafter a rest
    case h_3 =>
      have hunexpected : Careful (unexpected : Reader α) := fun ts => staysWithin_unexpected ts
      exact (hunexpected _).bind fun ⟨a, rest⟩ => hafter a rest
  case h_4 => exact staysWithin_unexpected _

/-! ## Any value -/

theorem careful_readLevel {inner : Option (Reader Value)} (hinner : ∀ read ∈ inner, Careful read) :
    Careful (readLevel inner) := by
  intro ts
  unfold readLevel
  split
  case h_1 | h_2 => exact List.subset_cons_self _ _
  case h_3 =>
    split
    · exact List.subset_cons_self _ _
    · exact staysWithin_stop _ _
  case h_4 => exact (careful_readString _).map fun _ => rfl
  case h_5 =>
    split
    · exact staysWithin_stop _ _
    · exact (careful_readItems (hinner _ rfl) _).map fun _ => rfl
  case h_6 =>
    split
    · exact staysWithin_stop _ _
    · exact (careful_readEntries (hinner _ rfl) _).map fun _ => rfl
  case h_7 => exact staysWithin_stopMistyped _

theorem careful_readValue (depth : ℕ) : Careful (readValue depth) := by
  induction depth with
  | zero => exact careful_readLevel (by simp)
  | succ depth ih => exact careful_readLevel (by simpa using ih)

/-! ## Whole texts -/

/-- **A fault is on a line of the text.** -/
theorem Careful.line {read : Reader α} (hread : Careful read) {text : List Char} {e : Error}
    (h : readDocument read text = .error e) : 1 ≤ e.line ∧ e.line ≤ lineCount text := by
  have hall : StaysWithin (fun _ => []) ((tokens text).map (·.token))
      (readAll read ((tokens text).map (·.token))) := by
    refine (hread _).bind fun ⟨a, rest⟩ => ?_
    cases rest with
    | nil => exact List.nil_subset _
    | cons t rest => exact staysWithin_stop _ _
  simp only [readDocument] at h
  cases hresult : readAll read ((tokens text).map (·.token)) with
  | ok a =>
    rw [hresult] at h
    cases h
  | error s =>
    rw [hresult] at h hall
    cases h
    exact Flagged.line hall

end

end ModuleMap.Json
