import ModuleMap.Proofs.Path.Plain
import ModuleMap.Proofs.Text.Utf8

/-!
# Paths that are spelled by texts

Cutting the bytes of a text at the slashes is cutting the text there, since no other character has
the byte of a slash.  So the names of such a path are texts again, and its normal form is a slash
before each of the texts that are left.

* `Path.segments_ofText`, `Path.exists_text_of_mem_names`: segments and names as texts.
* `Path.settle_append`, `Path.bytes_normalize`, `Path.normalize_ofBody_root`: normal forms of
  absolute paths.
-/

namespace ModuleMap

/-! ## Bytes of a slash -/

/-- Only a slash has the byte of a slash. -/
theorem Text.slash_mem_utf8EncodeChar_iff {c : Char} :
    slash ∈ String.utf8EncodeChar c ↔ c = '/' := by
  have hbyte : ∀ k : ℕ, slash = UInt8.ofNat k ↔ k % 256 = 47 := by
    intro k
    rw [← UInt8.toNat_inj, UInt8.toNat_ofNat']
    exact eq_comm
  constructor
  · intro h
    have hvalue : c.val.toNat = 47 := by
      unfold String.utf8EncodeChar at h
      simp only at h
      split_ifs at h <;>
        · simp only [List.mem_cons, List.not_mem_nil, or_false, hbyte] at h
          omega
    rw [← Char.ofNat_toNat c]
    exact congrArg Char.ofNat hvalue
  · rintro rfl
    decide

namespace Path

/-- Bytes without a slash come before the first segment. -/
theorem splitOn_append_of_slash_notMem {front bytes : List UInt8} (h : slash ∉ front) :
    (front ++ bytes).splitOn slash = (bytes.splitOn slash).modifyHead (front ++ ·) := by
  induction front with
  | nil =>
    rw [List.nil_append]
    cases bytes.splitOn slash <;> rfl
  | cons b front ih =>
    rw [List.mem_cons, not_or] at h
    rw [List.cons_append, List.splitOn_cons_eq_if_modifyHead,
      if_neg (fun hb => h.1 (beq_iff_eq.mp hb).symm), ih h.2, List.modifyHead_modifyHead]
    rfl

/-- Cutting the bytes of a text is cutting the text. -/
theorem splitOn_encode (cs : List Char) :
    (Text.encode cs).splitOn slash = (cs.splitOn '/').map Text.encode := by
  induction cs with
  | nil => rfl
  | cons c cs ih =>
    rw [Text.encode_cons, List.splitOn_cons_eq_if_modifyHead]
    by_cases hc : c = '/'
    · rw [hc, if_pos (by decide), List.map_cons, ← ih]
      show List.splitOn slash ([] ++ slash :: Text.encode cs) = _
      rw [List.splitOn_append_cons_self]
      rfl
    · rw [splitOn_append_of_slash_notMem (fun h => hc (Text.slash_mem_utf8EncodeChar_iff.mp h)), ih,
        if_neg (by simpa using hc)]
      rcases cs.splitOn '/' with _ | ⟨s, ss⟩ <;> rfl

theorem segments_ofText (s : String) :
    (ofText s).segments = (s.toList.splitOn '/').map Text.encode :=
  splitOn_encode s.toList

/-- A name in a text is the bytes of a text. -/
theorem exists_text_of_mem_names {s : String} {n : Segment} (h : n ∈ (ofText s).names) :
    ∃ cs, cs ≠ [] ∧ '/' ∉ cs ∧ n = Text.encode cs := by
  have hnaming := isNaming_of_mem_names h
  rw [names_eq_filter, segments_ofText, List.mem_filter, List.mem_map] at h
  obtain ⟨⟨cs, -, rfl⟩, -⟩ := h
  refine ⟨cs, ?_, ?_, rfl⟩
  · rintro rfl
    exact hnaming.ne_nil rfl
  · intro hmem
    refine hnaming.1 (List.mem_flatMap.mpr ⟨'/', hmem, by decide⟩)

/-! ## Normal forms -/

/-- What has no `..` is put on the stack as it is. -/
theorem foldl_push_of_dotDot_notMem {absolute : Bool} {ss : List Segment} (stack : List Segment)
    (h : dotDot ∉ ss) : ss.foldl (push absolute) stack = ss.reverse ++ stack := by
  induction ss generalizing stack with
  | nil => rfl
  | cons s ss ih =>
    rw [List.mem_cons, not_or] at h
    have hs : push absolute stack s = s :: stack := if_neg (Ne.symm h.1)
    rw [List.foldl_cons, hs, ih _ h.2, List.reverse_cons, List.append_assoc, List.singleton_append]

/-- It comes after what is left of the segments before. -/
theorem settle_append {absolute : Bool} {rest : List Segment} (ss : List Segment)
    (h : dotDot ∉ rest) : settle absolute (ss ++ rest) = settle absolute ss ++ rest := by
  unfold settle
  rw [List.foldl_append, foldl_push_of_dotDot_notMem _ h, List.reverse_append, List.reverse_reverse]

theorem settle_of_dotDot_notMem {absolute : Bool} {ss : List Segment} (h : dotDot ∉ ss) :
    settle absolute ss = ss :=
  settle_append [] h

theorem isNaming_of_mem_settle_names {p : Path} {s : Segment} (h : s ∈ settle true p.names) :
    IsNaming s :=
  isNaming_of_mem_names (mem_of_mem_settle h).1

theorem normalize_eq {p : Path} (hp : p.isAbsolute = true) :
    p.normalize =
      if p.endsWithSlash then (ofBody .root (settle true p.names)).closeWithSlash
      else ofBody .root (settle true p.names) := by
  unfold normalize joinNormalized
  rw [hp]
  show (if p.endsWithSlash then (ofSettled true (settle true (p.names ++ []))).closeWithSlash
    else ofSettled true (settle true (p.names ++ []))) = _
  rw [List.append_nil]
  rfl

/-- The normal form is a slash before each name that is left, and perhaps one at the end. -/
theorem bytes_normalize {p : Path} (hp : p.isAbsolute = true) :
    ∃ slashes, (slashes = [] ∨ slashes = [slash]) ∧
      p.normalize.bytes = (settle true p.names).flatMap (slash :: ·) ++ slashes := by
  rw [normalize_eq hp]
  by_cases hnil : settle true p.names = []
  · refine ⟨[slash], Or.inr rfl, ?_⟩
    rw [hnil]
    cases p.endsWithSlash <;> rfl
  · rw [← bytes_ofBody_root hnil]
    cases p.endsWithSlash with
    | false => exact ⟨[], Or.inl rfl, (List.append_nil _).symm⟩
    | true =>
      refine ⟨[slash], Or.inr rfl, ?_⟩
      rw [if_pos rfl, closeWithSlash,
        endsWithSlash_ofBody_root (fun s hs => isNaming_of_mem_settle_names hs) hnil]
      rfl

/-- The shortest spelling without `..` is its own normal form. -/
theorem normalize_ofBody_root {ns : List Segment} (hns : ∀ s ∈ ns, IsNaming s) (hne : ns ≠ [])
    (hdotDot : dotDot ∉ ns) : (ofBody .root ns).normalize = ofBody .root ns := by
  rw [normalize_eq rfl, endsWithSlash_ofBody_root hns hne, names_ofBody_root hns,
    settle_of_dotDot_notMem hdotDot]
  rfl

end Path

end ModuleMap
