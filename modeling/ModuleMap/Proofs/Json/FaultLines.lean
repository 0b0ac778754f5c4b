import ModuleMap.Json.Reader
import ModuleMap.Proofs.Json.Scanning

/-!
# The lines of faults

A fault is reported with a line: that of the token it concerns, or a later one if line ends have
been passed in that token.  A token that has line ends in it is one of a fault itself, and nothing
is cut off after it.  So what has been passed in it are line ends of the text, and none of them
comes before a token.

* `Json.Token.flaws`, `Json.Flaw.IsWithin`: what is wrong with a token, and the line ends of it.
* `Json.isLastWithin_scan`: the flaws of one token, and what is left after it.
* `Json.line_of_mem_tokensFrom`, `Json.line_add_le_of_mem_tokensFrom`: the lines of tokens, and of
  what is passed in the last one.
* `Json.Flagged`, `Json.Flagged.line`: the line of a fault.
-/

namespace ModuleMap.Json

variable {cs rest text : List Char} {f : Flaw}

/-! ## Flaws -/

/-- What is wrong with a token, for one who reads it or for one who skips it. -/
def Token.flaws : Token → List Flaw
  | .brokenWord f | .brokenNumber f => [f]
  | .brokenString _ f g => [f, g]
  | _ => []

/-- The line ends that were passed up to a flaw are some of a text. -/
def Flaw.IsWithin (f : Flaw) (text : List Char) : Prop :=
  ∀ n, f = .misfit n → n ≤ text.count '\n'

theorem Flaw.isWithin_cutOff (text : List Char) : Flaw.cutOff.IsWithin text :=
  fun _ h => nomatch h

theorem Flaw.isWithin_misfit {n : ℕ} (h : n ≤ text.count '\n') :
    (Flaw.misfit n).IsWithin text := by
  rintro _ ⟨⟩
  exact h

theorem Flaw.IsWithin.mono (h : f.IsWithin rest) (hrest : rest.Sublist text) : f.IsWithin text :=
  fun n hn => (h n hn).trans (hrest.count_le '\n')

theorem isWithin_flawAt (rest : List Char) : (flawAt rest).IsWithin rest := by
  rcases rest with _ | ⟨c, cs⟩
  · exact Flaw.isWithin_cutOff []
  · refine Flaw.isWithin_misfit ?_
    split
    · next hc => simp [hc]
    · exact Nat.zero_le _

theorem isPrefix_of_charsInBytes? {n : ℕ} {bad : List Char} (h : charsInBytes? n cs = some bad) :
    bad <+: cs := by
  induction cs generalizing n bad with
  | nil =>
    cases n with
    | zero => cases h; exact List.nil_prefix
    | succ n => cases h
  | cons c cs ih =>
    cases n with
    | zero => cases h; exact List.nil_prefix
    | succ n =>
      obtain ⟨bad, hbad, rfl⟩ := Option.map_eq_some_iff.mp h
      exact List.cons_prefix_cons.mpr ⟨rfl, ih hbad⟩

theorem isWithin_hexFlaw (rest : List Char) : (hexFlaw rest).IsWithin rest := by
  unfold hexFlaw
  split
  · exact Flaw.isWithin_cutOff rest
  · next bad hbad =>
    exact Flaw.isWithin_misfit ((isPrefix_of_charsInBytes? hbad).sublist.count_le '\n')

/-! ## Numbers -/

theorem isWithin_of_scanDigits (cs : List Char) : (flawAt (scanDigits cs).2).IsWithin cs := by
  obtain ⟨digits, hcs, -⟩ := exists_of_scanDigits cs
  have hsublist : (scanDigits cs).2.Sublist cs := by
    conv_rhs => rw [hcs]
    exact List.sublist_append_right digits _
  exact (isWithin_flawAt _).mono hsublist

theorem isWithin_of_scanWhole (h : scanWhole cs = .error f) : f.IsWithin cs := by
  have hdigits := isWithin_of_scanDigits cs
  unfold scanWhole at h
  split at h
  · next hscan =>
    rw [hscan] at hdigits
    cases h
    exact hdigits
  · cases h
    exact Flaw.isWithin_misfit (Nat.zero_le _)
  · cases h

theorem isWithin_of_scanFraction (h : scanFraction cs = .error f) : f.IsWithin cs := by
  unfold scanFraction at h
  split at h
  · next cs =>
    have hdigits := isWithin_of_scanDigits cs
    split at h
    · next hscan =>
      rw [hscan] at hdigits
      cases h
      exact hdigits.mono (List.sublist_cons_self '.' cs)
    · cases h
  · cases h

theorem isWithin_of_scanExponent (h : scanExponent cs = .error f) : f.IsWithin cs := by
  unfold scanExponent at h
  split at h
  · next c cs =>
    split at h
    · split at h
      next negative after hsign =>
      have hafter : after.Sublist (c :: cs) := by
        split at hsign <;> cases hsign
        · exact (List.sublist_cons_self _ _).trans (List.sublist_cons_self c _)
        · exact (List.sublist_cons_self _ _).trans (List.sublist_cons_self c _)
        · exact List.sublist_cons_self c _
      have hdigits := isWithin_of_scanDigits after
      split at h
      · next hscan =>
        rw [hscan] at hdigits
        cases h
        exact hdigits.mono hafter
      · cases h
    · cases h
  · cases h

/-- A token that is no whole one is the last, and its flaws pass line ends of a text. -/
def IsLastWithin (answer : Token × List Char) (text : List Char) : Prop :=
  answer.1.isWhole = true ∨ answer.2 = [] ∧ ∀ f ∈ answer.1.flaws, f.IsWithin text

theorem IsLastWithin.mono {answer : Token × List Char} (h : IsLastWithin answer rest)
    (hrest : rest.Sublist text) : IsLastWithin answer text :=
  h.imp_right fun ⟨hlast, hflaws⟩ => ⟨hlast, fun f hf => (hflaws f hf).mono hrest⟩

theorem isLastWithin_brokenString (pieces : List Piece) {f g : Flaw} (hf : f.IsWithin text)
    (hg : g.IsWithin text) : IsLastWithin (.brokenString pieces f g, []) text :=
  Or.inr ⟨rfl, List.forall_mem_cons.mpr ⟨hf, List.forall_mem_singleton.mpr hg⟩⟩

theorem isLastWithin_scanNumber (negative : Bool) (cs : List Char) :
    IsLastWithin (scanNumber negative cs) cs := by
  simp only [scanNumber]
  split
  · exact Or.inl rfl
  · next flaw hliteral =>
    refine Or.inr ⟨rfl, List.forall_mem_singleton.mpr ?_⟩
    rcases bind_eq_error_iff.mp hliteral with hwhole | ⟨⟨whole, cs₁⟩, hwhole, hthen⟩
    · exact isWithin_of_scanWhole hwhole
    obtain ⟨w, -, rfl⟩ := exists_of_scanWhole hwhole
    refine Flaw.IsWithin.mono ?_ (List.sublist_append_right w cs₁)
    rcases bind_eq_error_iff.mp hthen with hfraction | ⟨⟨fraction, cs₂⟩, hfraction, hlast⟩
    · exact isWithin_of_scanFraction hfraction
    obtain ⟨f, -, rfl⟩ := exists_of_scanFraction hfraction
    refine Flaw.IsWithin.mono ?_ (List.sublist_append_right f cs₂)
    rcases bind_eq_error_iff.mp hlast with hexponent | ⟨_, -, hnone⟩
    · exact isWithin_of_scanExponent hexponent
    · cases hnone

/-! ## Words and strings -/

theorem isLastWithin_scanWord {whole : Token} (hwhole : whole.isWhole = true) (ws cs : List Char) :
    IsLastWithin (scanWord whole ws cs) cs := by
  induction ws generalizing cs with
  | nil => exact Or.inl hwhole
  | cons w ws ih =>
    rcases cs with _ | ⟨c, cs⟩
    · exact Or.inr ⟨rfl, List.forall_mem_singleton.mpr (Flaw.isWithin_cutOff [])⟩
    rw [scanWord]
    split
    · exact (ih cs).mono (List.sublist_cons_self c cs)
    · exact Or.inr ⟨rfl, List.forall_mem_singleton.mpr (isWithin_flawAt (c :: cs))⟩

theorem isLastWithin_scanString (pieces : List Piece) (cs : List Char) :
    IsLastWithin (scanString pieces cs) cs := by
  fun_induction scanString pieces cs with
  | case1 pieces =>
    exact isLastWithin_brokenString _ (Flaw.isWithin_cutOff _) (Flaw.isWithin_cutOff _)
  | case2 pieces rest => exact Or.inl rfl
  | case3 pieces =>
    exact isLastWithin_brokenString _ (Flaw.isWithin_cutOff _) (Flaw.isWithin_cutOff _)
  | case4 pieces a b c d rest n _ ih =>
    exact ih.mono (List.sublist_append_right ['\\', 'u', a, b, c, d] rest)
  | case5 pieces a b c d rest _ flaw =>
    have hflaw : flaw.IsWithin ('\\' :: 'u' :: a :: b :: c :: d :: rest) :=
      (isWithin_hexFlaw _).mono (List.sublist_append_right ['\\', 'u'] _)
    exact isLastWithin_brokenString _ hflaw hflaw
  | case6 pieces rest _ flaw =>
    have hflaw : flaw.IsWithin ('\\' :: 'u' :: rest) :=
      (isWithin_hexFlaw rest).mono (List.sublist_append_right ['\\', 'u'] rest)
    exact isLastWithin_brokenString _ hflaw hflaw
  | case7 pieces e rest _ _ c _ ih =>
    exact ih.mono (List.sublist_append_right ['\\', e] rest)
  | case8 pieces e rest _ _ _ flaw =>
    have hflaw : flaw.IsWithin ('\\' :: e :: rest) :=
      (isWithin_flawAt _).mono (List.sublist_cons_self '\\' _)
    exact isLastWithin_brokenString _ hflaw hflaw
  | case9 pieces c rest _ _ _ _ _ _ =>
    exact isLastWithin_brokenString _ (isWithin_flawAt _) (Flaw.isWithin_misfit (Nat.zero_le _))
  | case10 pieces c rest _ _ _ _ _ _ ih =>
    exact ih.mono (List.sublist_cons_self c rest)

/-! ## Any token -/

theorem isLastWithin_scan (c : Char) (cs : List Char) : IsLastWithin (scan c cs) (c :: cs) := by
  have hrest : cs.Sublist (c :: cs) := List.sublist_cons_self c cs
  unfold scan
  split
  case h_1 | h_2 | h_3 | h_4 | h_5 | h_6 => exact Or.inl rfl
  case h_7 | h_8 | h_9 => exact (isLastWithin_scanWord rfl _ _).mono hrest
  case h_10 => exact (isLastWithin_scanString [] _).mono hrest
  case h_11 => exact (isLastWithin_scanNumber true _).mono hrest
  case h_12 =>
    split
    · exact isLastWithin_scanNumber false _
    · exact Or.inr ⟨rfl, by simp [Token.flaws]⟩

/-- What is left after a token is left of the text. -/
theorem sublist_of_scan {c : Char} {t : Token} (h : scan c cs = (t, rest)) :
    rest.Sublist (c :: cs) := by
  have hlast := isLastWithin_scan c cs
  rw [h] at hlast
  rcases hlast with hwhole | ⟨hnone, -⟩
  · obtain ⟨l, -, hcs⟩ := exists_of_scan h hwhole
    rw [hcs]
    exact List.sublist_append_right l rest
  · obtain rfl : rest = [] := hnone
    exact List.nil_sublist _

/-! ## All tokens -/

/-- The lines after a character and those before it. -/
theorem lineAfter_add_count (line : ℕ) (c : Char) (cs : List Char) :
    (if c = '\n' then line + 1 else line) + cs.count '\n' = line + (c :: cs).count '\n' := by
  split
  · next hc =>
    rw [hc, List.count_cons_self]
    omega
  · next hc => rw [List.count_cons_of_ne hc]

/-- A token starts on a line of the text. -/
theorem line_of_mem_tokensFrom {fuel line : ℕ} {p : Placed} (hp : p ∈ tokensFrom fuel line text) :
    line ≤ p.line ∧ p.line ≤ line + text.count '\n' := by
  induction fuel generalizing line text with
  | zero => cases hp
  | succ fuel ih =>
    rcases text with _ | ⟨c, cs⟩
    · cases hp
    rw [tokensFrom] at hp
    split at hp
    · obtain ⟨hlow, hhigh⟩ := ih hp
      rw [lineAfter_add_count] at hhigh
      refine ⟨le_trans ?_ hlow, hhigh⟩
      split <;> omega
    · rcases hscan : scan c cs with ⟨t, rest⟩
      simp only [hscan, List.mem_cons] at hp
      rcases hp with rfl | hp
      · exact ⟨le_rfl, Nat.le_add_right line _⟩
      · have hcount := (sublist_of_scan hscan).count_le '\n'
        obtain ⟨hlow, hhigh⟩ := ih hp
        omega

theorem flaws_eq_nil_of_isWhole {t : Token} (h : t.isWhole = true) : t.flaws = [] := by
  cases t with
  | stray | brokenWord | brokenNumber | brokenString => cases h
  | _ => rfl

/-- What was passed in a token comes after the start of each token. -/
theorem line_add_le_of_mem_tokensFrom {fuel line n : ℕ} {p q : Placed}
    (hp : p ∈ tokensFrom fuel line text) (hq : q ∈ tokensFrom fuel line text)
    (hn : .misfit n ∈ q.token.flaws) : p.line + n ≤ line + text.count '\n' := by
  induction fuel generalizing line text p q with
  | zero => cases hp
  | succ fuel ih =>
    rcases text with _ | ⟨c, cs⟩
    · cases hp
    rw [tokensFrom] at hp hq
    split at hp
    · next hc =>
      rw [if_pos hc] at hq
      rw [← lineAfter_add_count]
      exact ih hp hq hn
    · next hc =>
      rw [if_neg hc] at hq
      have hlast := isLastWithin_scan c cs
      rcases hscan : scan c cs with ⟨t, rest⟩
      rw [hscan] at hlast
      simp only [hscan, List.mem_cons] at hp hq
      rcases hq with rfl | hq
      · -- A token with a flaw is the last one.
        rcases hlast with hwhole | ⟨hnone, hflaws⟩
        · rw [flaws_eq_nil_of_isWhole hwhole] at hn
          cases hn
        obtain rfl : rest = [] := hnone
        have hempty : tokensFrom fuel line [] = [] := by cases fuel <;> rfl
        rw [hempty] at hp
        obtain rfl : p = ⟨line, t⟩ := by simpa using hp
        exact Nat.add_le_add_left (hflaws _ hn n rfl) line
      · have hcount := (sublist_of_scan hscan).count_le '\n'
        have hlater := ih hq hq hn
        rcases hp with rfl | hp
        · have hlow := (line_of_mem_tokensFrom hq).1
          show line + n ≤ _
          omega
        · have hearlier := ih hp hq hn
          omega

/-! ## Faults -/

/-- As many line ends have been passed as in a flaw of one of the tokens, or none. -/
def Flagged (ts : List Token) (passed : ℕ) : Prop :=
  passed = 0 ∨ ∃ t ∈ ts, .misfit passed ∈ t.flaws

/-- A fault that has passed no other line ends than those of its token is on a line of the text. -/
theorem Flagged.line {s : Stop} (h : Flagged ((tokens text).map (·.token)) s.passed) :
    1 ≤ s.line (tokens text) (lineCount text) ∧
      s.line (tokens text) (lineCount text) ≤ lineCount text := by
  have hlines : 1 ≤ lineCount text := Nat.le_add_right 1 _
  unfold Stop.line
  split
  · exact ⟨hlines, le_rfl⟩
  · next p hhead _ =>
    have hp : p ∈ tokens text := List.mem_of_mem_drop (List.mem_of_mem_head? hhead)
    obtain ⟨hlow, hhigh⟩ := line_of_mem_tokensFrom hp
    refine ⟨hlow.trans (Nat.le_add_right _ _), ?_⟩
    rcases h with hnone | ⟨t, ht, hflaw⟩
    · rw [hnone]
      exact hhigh
    · obtain ⟨q, hq, rfl⟩ := List.mem_map.mp ht
      exact line_add_le_of_mem_tokensFrom hp hq hflaw
  · exact ⟨hlines, le_rfl⟩

end ModuleMap.Json
