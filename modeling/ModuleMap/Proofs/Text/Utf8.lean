import Mathlib.Tactic.IntervalCases
import Mathlib.Tactic.SplitIfs
import ModuleMap.Text.Utf8

/-!
# Reading back what was written

The bytes of a text are read as that text.  Each character is one piece: its first byte says how
many more there are and in which range the second lies, and the bits that the bytes carry are those
of the character.

* `Text.lead_two`, `Text.lead_three`, `Text.lead_four`: the first byte of a character of several
  bytes.
* `Text.piecesFrom_more`, `Text.piecesFrom_last`: each further byte.
* `Text.piecesFrom_utf8EncodeChar`, `Text.decodeLossy_encode`, `Text.decode?_encode`: one character,
  and a whole text.
* `Text.head?_of_decode?`: nothing but its own byte is read as a slash.
-/

namespace ModuleMap.Text

/-! ## First bytes -/

theorem lead_one {v : ℕ} (h : v ≤ 127) : lead (UInt8.ofNat v) = .whole (Char.ofNat v) := by
  have hlt : UInt8.ofNat v < 0x80 := by
    rw [UInt8.lt_iff_toNat_lt, UInt8.toNat_ofNat']
    show v % 2 ^ 8 < 128
    omega
  have hvalue : (UInt8.ofNat v).toNat = v := by
    rw [UInt8.toNat_ofNat']
    omega
  rw [lead, if_pos hlt, hvalue]

theorem lead_two {k : ℕ} (hlow : 2 ≤ k) (hhigh : k < 32) :
    lead (UInt8.ofNat (k + 192)) = .begins ⟨k, 1, 0x80, 0xBF⟩ := by
  interval_cases k <;> rfl

theorem lead_three {k : ℕ} (h : k < 16) :
    lead (UInt8.ofNat (k + 224)) =
      .begins ⟨k, 2, if k = 0 then 0xA0 else 0x80, if k = 13 then 0x9F else 0xBF⟩ := by
  interval_cases k <;> rfl

theorem lead_four {k : ℕ} (h : k < 5) :
    lead (UInt8.ofNat (k + 240)) =
      .begins ⟨k, 3, if k = 0 then 0x90 else 0x80, if k = 4 then 0x8F else 0xBF⟩ := by
  interval_cases k <;> rfl

/-! ## Further bytes -/

theorem toNat_ofNat_add {m : ℕ} (hm : m < 64) : (UInt8.ofNat (m + 128)).toNat = m + 128 := by
  rw [UInt8.toNat_ofNat']
  omega

/-- A byte in the range that is asked for adds its six bits. -/
theorem piecesFrom_more {bits missing m : ℕ} {low high : UInt8} (hm : m < 64)
    (hlow : low.toNat ≤ m + 128) (hhigh : m + 128 ≤ high.toNat) (bs : List UInt8) :
    piecesFrom (some ⟨bits, missing + 2, low, high⟩) (UInt8.ofNat (m + 128) :: bs) =
      piecesFrom (some ⟨bits * 64 + m, missing + 1, 0x80, 0xBF⟩) bs := by
  have hrange : low ≤ UInt8.ofNat (m + 128) ∧ UInt8.ofNat (m + 128) ≤ high := by
    rw [UInt8.le_iff_toNat_le, UInt8.le_iff_toNat_le, toNat_ofNat_add hm]
    exact ⟨hlow, hhigh⟩
  have hmissing : ¬missing + 2 ≤ 1 := by omega
  simp only [piecesFrom, if_pos hrange, if_neg hmissing, toNat_ofNat_add hm, Nat.add_sub_cancel]
  rfl

/-- The last byte completes the character. -/
theorem piecesFrom_last {bits m : ℕ} (hm : m < 64) (bs : List UInt8) :
    piecesFrom (some ⟨bits, 1, 0x80, 0xBF⟩) (UInt8.ofNat (m + 128) :: bs) =
      some (Char.ofNat (bits * 64 + m)) :: piecesFrom none bs := by
  have hrange : 0x80 ≤ UInt8.ofNat (m + 128) ∧ UInt8.ofNat (m + 128) ≤ 0xBF := by
    rw [UInt8.le_iff_toNat_le, UInt8.le_iff_toNat_le, toNat_ofNat_add hm]
    show 128 ≤ m + 128 ∧ m + 128 ≤ 191
    omega
  simp only [piecesFrom, if_pos hrange, le_refl, if_true, toNat_ofNat_add hm, Nat.add_sub_cancel]

/-- Six bits are in the widest range. -/
theorem le_of_lt_64 {m : ℕ} (hm : m < 64) :
    (0x80 : UInt8).toNat ≤ m + 128 ∧ m + 128 ≤ (0xBF : UInt8).toNat := by
  show 128 ≤ m + 128 ∧ m + 128 ≤ 191
  omega

/-! ## Characters -/

theorem piecesFrom_two {v : ℕ} (hlow : 127 < v) (hhigh : v ≤ 2047) (bs : List UInt8) :
    piecesFrom none (UInt8.ofNat (v / 64 % 32 + 192) :: UInt8.ofNat (v % 64 + 128) :: bs) =
      some (Char.ofNat v) :: piecesFrom none bs := by
  have hfirst : v / 64 % 32 = v / 64 := by omega
  have hbits : v / 64 * 64 + v % 64 = v := by omega
  rw [piecesFrom, hfirst, lead_two (by omega) (by omega)]
  show piecesFrom (some ⟨v / 64, 1, 0x80, 0xBF⟩) _ = _
  rw [piecesFrom_last (by omega), hbits]

/-- The second byte of three excludes shorter forms at its low end, and surrogates at its high
end. -/
theorem piecesFrom_three {v : ℕ} (hlow : 2047 < v) (hhigh : v ≤ 65535)
    (hvalid : v < 55296 ∨ 57343 < v) (bs : List UInt8) :
    piecesFrom none (UInt8.ofNat (v / 4096 % 16 + 224) :: UInt8.ofNat (v / 64 % 64 + 128) ::
        UInt8.ofNat (v % 64 + 128) :: bs) = some (Char.ofNat v) :: piecesFrom none bs := by
  have hfirst : v / 4096 % 16 = v / 4096 := by omega
  have hbits : (v / 4096 * 64 + v / 64 % 64) * 64 + v % 64 = v := by omega
  have hbottom : (if v / 4096 = 0 then 0xA0 else 0x80 : UInt8).toNat ≤ v / 64 % 64 + 128 := by
    split_ifs
    · show 160 ≤ v / 64 % 64 + 128
      omega
    · exact (le_of_lt_64 (by omega)).1
  have htop : v / 64 % 64 + 128 ≤ (if v / 4096 = 13 then 0x9F else 0xBF : UInt8).toNat := by
    split_ifs
    · show v / 64 % 64 + 128 ≤ 159
      omega
    · exact (le_of_lt_64 (by omega)).2
  rw [piecesFrom, hfirst, lead_three (by omega)]
  show piecesFrom (some ⟨v / 4096, 2, _, _⟩) _ = _
  rw [piecesFrom_more (by omega) hbottom htop, piecesFrom_last (by omega), hbits]

/-- The second byte of four excludes shorter forms and what is no character. -/
theorem piecesFrom_four {v : ℕ} (hlow : 65535 < v) (hhigh : v < 1114112) (bs : List UInt8) :
    piecesFrom none (UInt8.ofNat (v / 262144 % 8 + 240) :: UInt8.ofNat (v / 4096 % 64 + 128) ::
        UInt8.ofNat (v / 64 % 64 + 128) :: UInt8.ofNat (v % 64 + 128) :: bs) =
      some (Char.ofNat v) :: piecesFrom none bs := by
  have hfirst : v / 262144 % 8 = v / 262144 := by omega
  have hbits : ((v / 262144 * 64 + v / 4096 % 64) * 64 + v / 64 % 64) * 64 + v % 64 = v := by omega
  have hbottom : (if v / 262144 = 0 then 0x90 else 0x80 : UInt8).toNat ≤ v / 4096 % 64 + 128 := by
    split_ifs
    · show 144 ≤ v / 4096 % 64 + 128
      omega
    · exact (le_of_lt_64 (by omega)).1
  have htop : v / 4096 % 64 + 128 ≤ (if v / 262144 = 4 then 0x8F else 0xBF : UInt8).toNat := by
    split_ifs
    · show v / 4096 % 64 + 128 ≤ 143
      omega
    · exact (le_of_lt_64 (by omega)).2
  have hthird : v / 64 % 64 < 64 := by omega
  rw [piecesFrom, hfirst, lead_four (by omega)]
  show piecesFrom (some ⟨v / 262144, 3, _, _⟩) _ = _
  rw [piecesFrom_more (by omega) hbottom htop,
    piecesFrom_more hthird (le_of_lt_64 hthird).1 (le_of_lt_64 hthird).2,
    piecesFrom_last (by omega), hbits]

/-- The bytes of a character are one piece. -/
theorem piecesFrom_utf8EncodeChar (c : Char) (bs : List UInt8) :
    piecesFrom none (String.utf8EncodeChar c ++ bs) = some c :: piecesFrom none bs := by
  have hvalid : c.val.toNat < 55296 ∨ 57343 < c.val.toNat ∧ c.val.toNat < 1114112 := c.valid
  have hchar : Char.ofNat c.val.toNat = c := Char.ofNat_toNat c
  unfold String.utf8EncodeChar
  simp only
  generalize c.val.toNat = v at hvalid hchar
  subst hchar
  split_ifs with hone htwo hthree
  · rw [List.singleton_append, piecesFrom, lead_one hone]
  · exact piecesFrom_two (by omega) htwo bs
  · exact piecesFrom_three (by omega) hthree (by omega) bs
  · exact piecesFrom_four (by omega) (by omega) bs

theorem pieces_encode (cs : List Char) : pieces (encode cs) = cs.map some := by
  unfold pieces
  induction cs with
  | nil => rfl
  | cons c cs ih => rw [encode_cons, piecesFrom_utf8EncodeChar, ih, List.map_cons]

/-- The bytes of a text are read as that text. -/
theorem decodeLossy_encode (cs : List Char) : decodeLossy (encode cs) = cs := by
  unfold decodeLossy
  rw [pieces_encode, List.map_map]
  exact List.map_id cs

/-- They are well-formed. -/
theorem decode?_encode (cs : List Char) : decode? (encode cs) = some cs := by
  unfold decode?
  rw [pieces_encode, List.mapM_map]
  induction cs with
  | nil => rfl
  | cons c cs ih =>
    rw [List.mapM_cons, ih]
    rfl

/-- Texts with the same bytes are the same. -/
theorem encode_inj {cs ds : List Char} : encode cs = encode ds ↔ cs = ds := by
  refine ⟨fun h => ?_, congrArg encode⟩
  rw [← decodeLossy_encode cs, h, decodeLossy_encode]

/-! ## Slashes -/

/-- A character that has begun has a code that takes more than one byte. -/
def Begun.IsLong (s : Begun) : Prop :=
  128 ≤ s.low.toNat ∧ 128 ≤ (s.bits * 64 + (s.low.toNat - 128)) * 64 ^ (s.missing - 1)

theorem isLong_of_lead {b : UInt8} {s : Begun} (h : lead b = .begins s) : s.IsLong := by
  have hconst : ∀ bits missing low high, Lead.begins ⟨bits, missing, low, high⟩ = .begins s →
      128 ≤ low.toNat → 128 ≤ (bits * 64 + (low.toNat - 128)) * 64 ^ (missing - 1) →
      s.IsLong := by
    rintro bits missing low high heq hlow hcode
    cases heq
    exact ⟨hlow, hcode⟩
  unfold lead at h
  split at h
  · cases h
  split at h
  · cases h
  next h2 =>
  split at h
  · have hlow : 0xC2 ≤ b := UInt8.not_lt.mp h2
    rw [UInt8.le_iff_toNat_le] at hlow
    change 194 ≤ b.toNat at hlow
    refine hconst _ _ _ _ h (by decide) ?_
    change 128 ≤ ((b.toNat - 192) * 64 + 0) * 64 ^ 0
    omega
  next h3 =>
  split at h
  · exact hconst _ _ _ _ h (by decide) (by decide)
  next h4 =>
  split at h
  · exact hconst _ _ _ _ h (by decide) (by decide)
  split at h
  · have hlow : 0xE0 ≤ b := UInt8.not_lt.mp h3
    rw [UInt8.le_iff_toNat_le] at hlow
    change 224 ≤ b.toNat at hlow
    have hne : b.toNat ≠ 224 := fun heq => h4 (UInt8.toNat_inj.mp heq)
    refine hconst _ _ _ _ h (by decide) ?_
    change 128 ≤ ((b.toNat - 224) * 64 + 0) * 64 ^ 1
    omega
  next h6 =>
  split at h
  · exact hconst _ _ _ _ h (by decide) (by decide)
  next h7 =>
  split at h
  · have hlow : 0xF0 ≤ b := UInt8.not_lt.mp h6
    rw [UInt8.le_iff_toNat_le] at hlow
    change 240 ≤ b.toNat at hlow
    have hne : b.toNat ≠ 240 := fun heq => h7 (UInt8.toNat_inj.mp heq)
    refine hconst _ _ _ _ h (by decide) ?_
    change 128 ≤ ((b.toNat - 240) * 64 + 0) * 64 ^ 2
    omega
  split at h
  · exact hconst _ _ _ _ h (by decide) (by decide)
  · cases h

/-- The slash has one number, also among those that are no number of a character. -/
theorem eq_of_ofNat_eq_slash {n : Nat} (h : Char.ofNat n = '/') : n = 47 := by
  by_cases hvalid : n.isValidChar
  · have hchar : Char.ofNat n = Char.ofNatAux n hvalid := dif_pos hvalid
    exact congrArg Char.toNat (hchar.symm.trans h)
  · have hchar : Char.ofNat n = _ := dif_neg hvalid
    exact absurd (hchar.symm.trans h) (by decide)

theorem ofNat_ne_slash {n : Nat} (h : 128 ≤ n) : Char.ofNat n ≠ '/' := by
  intro heq
  have hvalue := eq_of_ofNat_eq_slash heq
  omega

/-- Bytes that go on with a long character do not spell a slash. -/
theorem head?_piecesFrom_some {s : Begun} (hs : s.IsLong) (bs : List UInt8) :
    (piecesFrom (some s) bs).head? ≠ some (some '/') := by
  induction bs generalizing s with
  | nil => simp [piecesFrom]
  | cons b bs ih =>
    obtain ⟨hlow, hcode⟩ := hs
    rw [piecesFrom]
    split
    · next hrange =>
      have hb : s.low.toNat ≤ b.toNat := UInt8.le_iff_toNat_le.mp hrange.1
      dsimp only
      have hmore : 128 ≤ (s.bits * 64 + (b.toNat - 128)) * 64 ^ (s.missing - 1) := by
        refine hcode.trans (Nat.mul_le_mul_right _ ?_)
        omega
      split
      · next hmissing =>
        have hlast : s.missing - 1 = 0 := by omega
        rw [hlast, pow_zero, mul_one] at hmore
        simpa using ofNat_ne_slash hmore
      · next hmissing =>
        refine ih ⟨Nat.le_refl 128, ?_⟩
        have hlowest : (0x80 : UInt8).toNat - 128 = 0 := rfl
        dsimp only
        rw [hlowest]
        obtain ⟨m, hm⟩ : ∃ m, s.missing - 1 = m + 1 := ⟨s.missing - 2, by omega⟩
        rw [hm] at hmore ⊢
        rw [Nat.add_sub_cancel, Nat.add_zero, Nat.mul_assoc, ← Nat.pow_succ']
        exact hmore
    · split <;> simp

theorem eq_slash_of_lead {b : UInt8} (h : lead b = .whole '/') : b = 0x2F := by
  unfold lead at h
  split at h
  · exact UInt8.toNat_inj.mp (eq_of_ofNat_eq_slash (Lead.whole.inj h))
  · repeat' split at h
    all_goals cases h

/-- A text starts with a slash only if its bytes do. -/
theorem head?_of_decode? {bs : List UInt8} {cs : List Char} (h : decode? bs = some ('/' :: cs)) :
    bs.head? = some 0x2F := by
  have hpieces : (pieces bs).head? = some (some '/') := by
    unfold decode? at h
    cases hbs : pieces bs with
    | nil =>
      rw [hbs] at h
      cases h
    | cons piece rest =>
      rw [hbs, List.mapM_cons] at h
      obtain ⟨c, hc, h⟩ := Option.bind_eq_some_iff.mp h
      obtain ⟨ds, -, h⟩ := Option.bind_eq_some_iff.mp h
      cases h
      exact congrArg some hc
  unfold pieces at hpieces
  rcases bs with _ | ⟨b, bs⟩
  · cases hpieces
  rw [piecesFrom] at hpieces
  split at hpieces
  · next c hlead =>
    rw [List.head?_cons, Option.some_inj, Option.some_inj] at hpieces
    subst hpieces
    rw [List.head?_cons, eq_slash_of_lead hlead]
  · next s hlead => exact absurd hpieces (head?_piecesFrom_some (isLong_of_lead hlead) bs)
  · cases hpieces

end ModuleMap.Text
