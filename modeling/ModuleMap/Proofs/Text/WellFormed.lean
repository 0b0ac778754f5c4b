import ModuleMap.Proofs.Path.Text

/-!
# Well-formed bytes

The byte strings that are read strictly are those that texts are written as.  So a byte string
cannot be read as a text whose bytes are others, and what comes before a slash in the bytes of a
text is the bytes of a text.

* `Text.eq_of_lead_eq_begins`: the bytes that begin a character of several bytes.
* `Text.exists_of_piecesFrom_more`, `Text.exists_of_piecesFrom_last`: the bytes that go on with one.
* `Text.piecesFrom_eq_cons_some_iff`, `Text.decode?_eq_some_iff`: one character, and a whole text.
* `Text.exists_eq_encode_of_slash`: bytes before a slash.
-/

namespace ModuleMap.Text

variable {bs : List UInt8} {ps : List (Option Char)} {c : Char}

/-! ## First bytes -/

theorem eq_of_lead_eq_whole {b : UInt8} (h : lead b = .whole c) :
    b.toNat ≤ 127 ∧ c = Char.ofNat b.toNat := by
  unfold lead at h
  split at h
  · next hlt =>
    have hbyte : b.toNat < 128 := UInt8.lt_iff_toNat_lt.mp hlt
    exact ⟨by omega, (Lead.whole.inj h).symm⟩
  · repeat' split at h
    all_goals cases h

/-- What begins a character of two, three or four bytes. -/
theorem eq_of_lead_eq_begins {b : UInt8} {s : Begun} (h : lead b = .begins s) :
    (∃ k, 2 ≤ k ∧ k < 32 ∧ b = UInt8.ofNat (k + 192) ∧ s = ⟨k, 1, 0x80, 0xBF⟩) ∨
      (∃ k < 16, b = UInt8.ofNat (k + 224) ∧
        s = ⟨k, 2, if k = 0 then 0xA0 else 0x80, if k = 13 then 0x9F else 0xBF⟩) ∨
      ∃ k < 5, b = UInt8.ofNat (k + 240) ∧
        s = ⟨k, 3, if k = 0 then 0x90 else 0x80, if k = 4 then 0x8F else 0xBF⟩ := by
  have hbyte : b.toNat < 256 := b.toNat_lt
  rw [← UInt8.ofNat_toNat (x := b)] at h ⊢
  generalize b.toNat = n at h hbyte ⊢
  rcases lt_or_ge n 194 with hlow | hlow
  · interval_cases n <;> cases h
  rcases lt_or_ge n 224 with htwo | htwo
  · obtain ⟨k, rfl⟩ := Nat.exists_eq_add_of_le' (show 192 ≤ n by omega)
    rw [lead_two (by omega) (by omega)] at h
    exact Or.inl ⟨k, by omega, by omega, rfl, (Lead.begins.inj h).symm⟩
  rcases lt_or_ge n 240 with hthree | hthree
  · obtain ⟨k, rfl⟩ := Nat.exists_eq_add_of_le' htwo
    rw [lead_three (by omega)] at h
    exact Or.inr (Or.inl ⟨k, by omega, rfl, (Lead.begins.inj h).symm⟩)
  rcases lt_or_ge n 245 with hfour | hfour
  · obtain ⟨k, rfl⟩ := Nat.exists_eq_add_of_le' hthree
    rw [lead_four (by omega)] at h
    exact Or.inr (Or.inr ⟨k, by omega, rfl, (Lead.begins.inj h).symm⟩)
  · interval_cases n <;> cases h

/-! ## Further bytes -/

/-- A character that has begun goes on with a byte in the range that is asked for. -/
theorem exists_of_piecesFrom_some {s : Begun} (hlow : 128 ≤ s.low.toNat)
    (hhigh : s.high.toNat ≤ 191) (h : piecesFrom (some s) bs = some c :: ps) :
    ∃ m < 64, ∃ rest, bs = UInt8.ofNat (m + 128) :: rest ∧ s.low.toNat ≤ m + 128 ∧
      m + 128 ≤ s.high.toNat ∧
      (if s.missing ≤ 1 then some (Char.ofNat (s.bits * 64 + m)) :: piecesFrom none rest
        else piecesFrom (some ⟨s.bits * 64 + m, s.missing - 1, 0x80, 0xBF⟩) rest) =
        some c :: ps := by
  rcases bs with _ | ⟨b, rest⟩
  · cases h
  rw [piecesFrom] at h
  split at h
  · next hrange =>
    rw [UInt8.le_iff_toNat_le, UInt8.le_iff_toNat_le] at hrange
    obtain ⟨m, hm⟩ := Nat.exists_eq_add_of_le' (hlow.trans hrange.1)
    have hb : b = UInt8.ofNat (m + 128) := by rw [← hm, UInt8.ofNat_toNat]
    rw [hm] at h hrange
    simp only [Nat.add_sub_cancel] at h
    exact ⟨m, by omega, rest, hb ▸ rfl, hrange.1, hrange.2, h⟩
  · split at h <;> cases h

theorem exists_of_piecesFrom_more {bits missing : ℕ} {low high : UInt8} (hlow : 128 ≤ low.toNat)
    (hhigh : high.toNat ≤ 191)
    (h : piecesFrom (some ⟨bits, missing + 2, low, high⟩) bs = some c :: ps) :
    ∃ m < 64, ∃ rest, bs = UInt8.ofNat (m + 128) :: rest ∧ low.toNat ≤ m + 128 ∧
      m + 128 ≤ high.toNat ∧
      piecesFrom (some ⟨bits * 64 + m, missing + 1, 0x80, 0xBF⟩) rest = some c :: ps := by
  obtain ⟨m, hm, rest, hbs, hfrom, hto, h⟩ := exists_of_piecesFrom_some hlow hhigh h
  have hmissing : ¬missing + 2 ≤ 1 := by omega
  rw [if_neg hmissing] at h
  exact ⟨m, hm, rest, hbs, hfrom, hto, h⟩

theorem exists_of_piecesFrom_last {bits : ℕ}
    (h : piecesFrom (some ⟨bits, 1, 0x80, 0xBF⟩) bs = some c :: ps) :
    ∃ m < 64, ∃ rest, bs = UInt8.ofNat (m + 128) :: rest ∧ c = Char.ofNat (bits * 64 + m) ∧
      piecesFrom none rest = ps := by
  have hlow : 128 ≤ (0x80 : UInt8).toNat := by decide
  have hhigh : (0xBF : UInt8).toNat ≤ 191 := by decide
  obtain ⟨m, hm, rest, hbs, -, -, h⟩ := exists_of_piecesFrom_some hlow hhigh h
  rw [if_pos (Nat.le_refl 1)] at h
  obtain ⟨hc, hrest⟩ := List.cons.inj h
  exact ⟨m, hm, rest, hbs, (Option.some_inj.mp hc).symm, hrest⟩

/-! ## Characters -/

theorem utf8EncodeChar_ofNat {v : ℕ} (h : v.isValidChar) :
    String.utf8EncodeChar (Char.ofNat v) =
      if v ≤ 127 then [UInt8.ofNat v]
      else if v ≤ 2047 then [UInt8.ofNat (v / 64 % 32 + 192), UInt8.ofNat (v % 64 + 128)]
      else if v ≤ 65535 then
        [UInt8.ofNat (v / 4096 % 16 + 224), UInt8.ofNat (v / 64 % 64 + 128),
          UInt8.ofNat (v % 64 + 128)]
      else
        [UInt8.ofNat (v / 262144 % 8 + 240), UInt8.ofNat (v / 4096 % 64 + 128),
          UInt8.ofNat (v / 64 % 64 + 128), UInt8.ofNat (v % 64 + 128)] := by
  have hval : (Char.ofNat v).val.toNat = v := by
    rw [Char.ofNat, dif_pos h]
    rfl
  rw [String.utf8EncodeChar]
  simp only [hval]

theorem exists_of_piecesFrom_two {k : ℕ} (hlow : 2 ≤ k) (hhigh : k < 32)
    (h : piecesFrom (some ⟨k, 1, 0x80, 0xBF⟩) bs = some c :: ps) :
    ∃ rest, UInt8.ofNat (k + 192) :: bs = String.utf8EncodeChar c ++ rest ∧
      piecesFrom none rest = ps := by
  obtain ⟨m, hm, rest, rfl, rfl, hrest⟩ := exists_of_piecesFrom_last h
  have hvalid : (k * 64 + m).isValidChar := by
    left
    omega
  have hfirst : (k * 64 + m) / 64 % 32 = k := by omega
  have hlast : (k * 64 + m) % 64 = m := by omega
  refine ⟨rest, ?_, hrest⟩
  rw [utf8EncodeChar_ofNat hvalid, if_neg (by omega), if_pos (by omega), hfirst, hlast]
  rfl

/-- The ends of the range of the second byte keep out shorter forms and surrogates. -/
theorem exists_of_piecesFrom_three {k : ℕ} (hk : k < 16)
    (h : piecesFrom (some ⟨k, 2, if k = 0 then 0xA0 else 0x80, if k = 13 then 0x9F else 0xBF⟩) bs =
      some c :: ps) :
    ∃ rest, UInt8.ofNat (k + 224) :: bs = String.utf8EncodeChar c ++ rest ∧
      piecesFrom none rest = ps := by
  have hbottom : (if k = 0 then 0xA0 else 0x80 : UInt8).toNat = if k = 0 then 160 else 128 := by
    split_ifs <;> rfl
  have htop : (if k = 13 then 0x9F else 0xBF : UInt8).toNat = if k = 13 then 159 else 191 := by
    split_ifs <;> rfl
  obtain ⟨m, hm, bs, rfl, hfrom, hto, h⟩ :=
    exists_of_piecesFrom_more (by rw [hbottom]; split_ifs <;> omega)
      (by rw [htop]; split_ifs <;> omega) h
  obtain ⟨n, hn, rest, rfl, rfl, hrest⟩ := exists_of_piecesFrom_last h
  rw [hbottom] at hfrom
  rw [htop] at hto
  have hlow : 2047 < (k * 64 + m) * 64 + n := by
    split_ifs at hfrom <;> omega
  have hvalid : ((k * 64 + m) * 64 + n).isValidChar := by
    unfold Nat.isValidChar
    split_ifs at hto <;> omega
  have hfirst : ((k * 64 + m) * 64 + n) / 4096 % 16 = k := by omega
  have hsecond : ((k * 64 + m) * 64 + n) / 64 % 64 = m := by omega
  have hlast : ((k * 64 + m) * 64 + n) % 64 = n := by omega
  refine ⟨rest, ?_, hrest⟩
  rw [utf8EncodeChar_ofNat hvalid, if_neg (by omega), if_neg (by omega), if_pos (by omega), hfirst,
    hsecond, hlast]
  rfl

/-- The ends of the range of the second byte keep out shorter forms and what is no character. -/
theorem exists_of_piecesFrom_four {k : ℕ} (hk : k < 5)
    (h : piecesFrom
      (some ⟨k, 3, if k = 0 then 0x90 else 0x80, if k = 4 then 0x8F else 0xBF⟩) bs = some c :: ps) :
    ∃ rest, UInt8.ofNat (k + 240) :: bs = String.utf8EncodeChar c ++ rest ∧
      piecesFrom none rest = ps := by
  have hbottom : (if k = 0 then 0x90 else 0x80 : UInt8).toNat = if k = 0 then 144 else 128 := by
    split_ifs <;> rfl
  have htop : (if k = 4 then 0x8F else 0xBF : UInt8).toNat = if k = 4 then 143 else 191 := by
    split_ifs <;> rfl
  obtain ⟨m, hm, bs, rfl, hfrom, hto, h⟩ :=
    exists_of_piecesFrom_more (by rw [hbottom]; split_ifs <;> omega)
      (by rw [htop]; split_ifs <;> omega) h
  obtain ⟨n, hn, bs, rfl, -, -, h⟩ := exists_of_piecesFrom_more (by decide) (by decide) h
  obtain ⟨l, hl, rest, rfl, rfl, hrest⟩ := exists_of_piecesFrom_last h
  rw [hbottom] at hfrom
  rw [htop] at hto
  have hlow : 65535 < ((k * 64 + m) * 64 + n) * 64 + l := by
    split_ifs at hfrom <;> omega
  have hvalid : (((k * 64 + m) * 64 + n) * 64 + l).isValidChar := by
    unfold Nat.isValidChar
    split_ifs at hto <;> omega
  have hfirst : (((k * 64 + m) * 64 + n) * 64 + l) / 262144 % 8 = k := by omega
  have hsecond : (((k * 64 + m) * 64 + n) * 64 + l) / 4096 % 64 = m := by omega
  have hthird : (((k * 64 + m) * 64 + n) * 64 + l) / 64 % 64 = n := by omega
  have hlast : (((k * 64 + m) * 64 + n) * 64 + l) % 64 = l := by omega
  refine ⟨rest, ?_, hrest⟩
  rw [utf8EncodeChar_ofNat hvalid, if_neg (by omega), if_neg (by omega), if_neg (by omega), hfirst,
    hsecond, hthird, hlast]
  rfl

/-- A piece is a character if and only if it is the bytes of that character. -/
theorem piecesFrom_eq_cons_some_iff :
    piecesFrom none bs = some c :: ps ↔
      ∃ rest, bs = String.utf8EncodeChar c ++ rest ∧ piecesFrom none rest = ps := by
  constructor
  · intro h
    rcases bs with _ | ⟨b, bs⟩
    · cases h
    rw [piecesFrom] at h
    cases hlead : lead b with
    | malformed =>
      rw [hlead] at h
      cases h
    | whole d =>
      rw [hlead] at h
      cases h
      obtain ⟨hbyte, rfl⟩ := eq_of_lead_eq_whole hlead
      have hvalid : b.toNat.isValidChar := by
        left
        omega
      refine ⟨bs, ?_, rfl⟩
      rw [utf8EncodeChar_ofNat hvalid, if_pos hbyte, UInt8.ofNat_toNat]
      rfl
    | begins s =>
      rw [hlead] at h
      rcases eq_of_lead_eq_begins hlead with
        ⟨k, hlow, hhigh, rfl, rfl⟩ | ⟨k, hk, rfl, rfl⟩ | ⟨k, hk, rfl, rfl⟩
      · exact exists_of_piecesFrom_two hlow hhigh h
      · exact exists_of_piecesFrom_three hk h
      · exact exists_of_piecesFrom_four hk h
  · rintro ⟨rest, rfl, rfl⟩
    exact piecesFrom_utf8EncodeChar c rest

/-! ## Texts -/

theorem piecesFrom_some_ne_nil (s : Begun) (bs : List UInt8) : piecesFrom (some s) bs ≠ [] := by
  induction bs generalizing s with
  | nil => exact List.cons_ne_nil _ _
  | cons b bs ih =>
    rw [piecesFrom]
    split
    · dsimp only
      split
      · exact List.cons_ne_nil _ _
      · exact ih _
    · split <;> exact List.cons_ne_nil _ _

/-- Any bytes have a piece. -/
theorem piecesFrom_none_eq_nil_iff : piecesFrom none bs = [] ↔ bs = [] := by
  rcases bs with _ | ⟨b, bs⟩
  · exact iff_of_true rfl rfl
  · refine iff_of_false ?_ (List.cons_ne_nil _ _)
    rw [piecesFrom]
    split
    · exact List.cons_ne_nil _ _
    · exact piecesFrom_some_ne_nil _ bs
    · exact List.cons_ne_nil _ _

theorem mapM_id_eq_some_iff {cs : List Char} : ps.mapM id = some cs ↔ ps = cs.map some := by
  induction ps generalizing cs with
  | nil => cases cs <;> simp
  | cons p ps ih =>
    cases p with
    | none => cases cs <;> simp
    | some d => cases cs <;> simp [Option.bind_eq_some_iff, ih, and_comm]

/-- Bytes are read as a text if and only if they are the bytes of that text. -/
theorem decode?_eq_some_iff {cs : List Char} : decode? bs = some cs ↔ bs = encode cs := by
  refine ⟨fun h => ?_, fun h => h ▸ decode?_encode cs⟩
  rw [decode?, mapM_id_eq_some_iff] at h
  unfold pieces at h
  induction cs generalizing bs with
  | nil => exact piecesFrom_none_eq_nil_iff.mp h
  | cons c cs ih =>
    obtain ⟨rest, rfl, hrest⟩ := piecesFrom_eq_cons_some_iff.mp h
    rw [ih hrest, encode_cons]

/-- Bytes before a slash in the bytes of a text are the bytes of a text. -/
theorem exists_eq_encode_of_slash {cs : List Char} {front rest : List UInt8}
    (h : encode cs = front ++ slash :: rest) : ∃ ds, front = encode ds := by
  induction cs generalizing front with
  | nil => simp at h
  | cons c cs ih =>
    rw [encode_cons, List.append_eq_append_iff] at h
    rcases h with ⟨more, rfl, hmore⟩ | ⟨more, hc, hmore⟩
    · obtain ⟨ds, rfl⟩ := ih hmore
      exact ⟨c :: ds, rfl⟩
    · rcases more with _ | ⟨b, more⟩
      · exact ⟨[c], by simp [hc]⟩
      · -- The slash is a byte of the character, which then has no other.
        obtain ⟨rfl, -⟩ := List.cons.inj hmore
        have hslash : slash ∈ String.utf8EncodeChar c := hc ▸ by simp
        obtain rfl := slash_mem_utf8EncodeChar_iff.mp hslash
        have hfront : front = [] := by
          have hlength := congrArg List.length hc
          rw [List.length_append, List.length_cons] at hlength
          change 1 = _ at hlength
          exact List.length_eq_zero_iff.mp (by omega)
        exact ⟨[], hfront⟩

end ModuleMap.Text
