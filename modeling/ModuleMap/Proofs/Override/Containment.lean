import Mathlib.Data.List.DropRight
import ModuleMap.Proofs.Override.Absolute
import ModuleMap.Proofs.Override.Relocation
import ModuleMap.Proofs.Text.WellFormed

/-!
# Overrides stay in their directory

A key stands below the name of its directory, which is escaped, so whatever a glob matches begins
with that name.  The name is a text, in which U+FFFD stands for what is not UTF-8.  A directory
whose name is well-formed is therefore the only one that its overrides reach; another one they miss,
and reach those instead that are spelled with U+FFFD.

* `Path.IsBelow`: what is in a directory, by its name.
* `Text.encode_trimSlashes`: slashes at the end of a text and of its bytes.
* `Overrides.anchored_eq_escape`, `Overrides.isPrefix_of_lookup?`: what a path begins with that
  matches an override.
* `Overrides.isBelow_iff_of_lookup?`: when such a path is in the directory of the overrides.
-/

namespace ModuleMap

/-- In normal form, the name of a path begins with the name of a directory and a slash. -/
def Path.IsBelow (p d : Path) : Prop :=
  d.normalize.bytes.rdropWhile (· == slash) ++ [slash] <+: p.normalize.bytes

instance (p d : Path) : Decidable (p.IsBelow d) :=
  inferInstanceAs (Decidable (_ <+: _))

namespace Overrides

/-! ## Slashes at the end -/

theorem trimSlashes_concat {c : Char} (hc : c ≠ '/') (cs : List Char) :
    trimSlashes (cs ++ [c]) = cs ++ [c] :=
  List.rdropWhile_concat_neg _ _ _ (by simpa using hc)

/-- Slashes are not escaped, and what is escaped does not end with one. -/
theorem trimSlashes_escape_eq (cs : List Char) :
    trimSlashes (Glob.escape cs) = Glob.escape (trimSlashes cs) := by
  induction cs using List.reverseRecOn with
  | nil => rfl
  | append_singleton cs c ih =>
    by_cases hc : c = '/'
    · subst hc
      rw [trimSlashes_concat_slash, ← ih, Glob.escape_append]
      exact trimSlashes_concat_slash _
    · have hlast : (cs ++ [c]).getLast? ≠ some '/' := by simpa using hc
      rw [trimSlashes_escape hlast, trimSlashes_concat hc]

/-- The slashes at the end of a text are those at the end of its bytes. -/
theorem encode_trimSlashes (cs : List Char) :
    Text.encode (trimSlashes cs) = (Text.encode cs).rdropWhile (· == slash) := by
  induction cs using List.reverseRecOn with
  | nil => rfl
  | append_singleton cs c ih =>
    rw [Text.encode_append]
    by_cases hc : c = '/'
    · subst hc
      rw [trimSlashes_concat_slash, ih]
      exact (List.rdropWhile_concat_pos _ _ slash rfl).symm
    · have hne : Text.encode [c] ≠ [] := by simp
      rw [trimSlashes_concat hc, Text.encode_append, eq_comm, List.rdropWhile_eq_self_iff]
      intro h hlast
      have hmem : slash ∈ Text.encode [c] := by
        rw [← beq_iff_eq.mp hlast, List.getLast_append_of_ne_nil h hne]
        exact List.getLast_mem hne
      rw [Text.encode_cons, Text.encode_nil, List.append_nil] at hmem
      exact hc (Text.slash_mem_utf8EncodeChar_iff.mp hmem)

/-- Slashes at the end do not make bytes a text, nor keep them from being one. -/
theorem exists_eq_encode_of_rdropWhile {bs : List UInt8} {cs : List Char}
    (h : bs.rdropWhile (· == slash) = Text.encode cs) : ∃ ds, bs = Text.encode ds := by
  induction bs using List.reverseRecOn with
  | nil => exact ⟨[], rfl⟩
  | append_singleton bs b ih =>
    by_cases hb : b = slash
    · subst hb
      rw [List.rdropWhile_concat_pos (· == slash) bs slash rfl] at h
      obtain ⟨ds, rfl⟩ := ih h
      exact ⟨ds ++ ['/'], (Text.encode_append ds ['/']).symm⟩
    · rw [List.rdropWhile_concat_neg _ _ _ (by simpa using hb)] at h
      exact ⟨cs, h⟩

/-! ## What overrides match -/

variable {base p : Path} {entries : List OverrideEntry} {o : Overrides} {kind : ModuleKind}

/-- A key is spelled below the escaped name of its directory. -/
theorem anchored_eq_escape (base : Path) (key : String) :
    anchored base key =
      Glob.escape (trimSlashes (Text.decodeLossy base.normalize.bytes) ++ ['/']) ++ key.toList := by
  rw [anchored, trimSlashes_escape_eq, Glob.escape_append, List.append_assoc]
  rfl

/-- What matches an override begins with the name of the directory, read as a text. -/
theorem isPrefix_of_lookup? (ho : compile base entries = .ok o) (h : o.lookup? p = some kind) :
    ∃ rest, p.normalize.bytes =
      Text.encode (trimSlashes (Text.decodeLossy base.normalize.bytes) ++ '/' :: rest) := by
  obtain ⟨text, earlier, glob, later, htext, hsplit, hmatch, -⟩ := lookup?_eq_some_iff.mp h
  have hmem : (glob, kind) ∈ o.entries := by simp [hsplit]
  obtain ⟨entry, -, hglob, -⟩ := exists_entry_of_compile ho hmem
  rw [anchored_eq_escape] at hglob
  obtain ⟨rest, rfl⟩ := Glob.exists_eq_append_of_accepts hglob hmatch
  exact ⟨rest, Text.decode?_eq_some_iff.mp htext⟩

/-- **Overrides stay in their directory, if its name is UTF-8.**  A path that matches an override
begins with the name of the directory, read as a text, and a slash.  So it is in the directory if
and only if the name is well-formed. -/
theorem isBelow_iff_of_lookup? (ho : compile base entries = .ok o) (h : o.lookup? p = some kind) :
    Text.encode (trimSlashes (Text.decodeLossy base.normalize.bytes)) ++ [slash] <+:
        p.normalize.bytes ∧
      (p.IsBelow base ↔ (Text.decode? base.normalize.bytes).isSome) := by
  obtain ⟨rest, hp⟩ := isPrefix_of_lookup? ho h
  have hbegins : Text.encode (trimSlashes (Text.decodeLossy base.normalize.bytes)) ++ [slash] <+:
      p.normalize.bytes := by
    refine ⟨Text.encode rest, ?_⟩
    rw [hp, Text.encode_append, List.append_assoc]
    rfl
  refine ⟨hbegins, fun hbelow => ?_, fun hsome => ?_⟩
  · -- The path is a text, the name ends at one of its slashes, and after it there are only slashes.
    obtain ⟨more, hmore⟩ := hbelow
    rw [hp, List.append_assoc] at hmore
    obtain ⟨name, hname⟩ := Text.exists_eq_encode_of_slash hmore.symm
    obtain ⟨ds, hds⟩ := exists_eq_encode_of_rdropWhile hname
    rw [hds, Text.decode?_encode, Option.isSome_some]
  · obtain ⟨name, hname⟩ := Option.isSome_iff_exists.mp hsome
    rw [Text.decode?_eq_some_iff] at hname
    rw [hname, Text.decodeLossy_encode, encode_trimSlashes] at hbegins
    rw [Path.IsBelow, hname]
    exact hbegins

theorem exists_compile_of_bind_eq_some
    (h : (compile base entries).toOption.bind (·.lookup? p) = some kind) :
    ∃ o, compile base entries = .ok o ∧ o.lookup? p = some kind := by
  cases ho : compile base entries with
  | error f =>
    rw [ho] at h
    cases h
  | ok o =>
    rw [ho] at h
    exact ⟨o, rfl, h⟩

/-- Brackets and a star in the name of a directory stand for themselves. -/
theorem isBelow_iff_of_lookup?_brackets :
    ∃ o, compile (.ofText "/[a]*/./b//") [⟨"*.js", .cjs⟩] = .ok o ∧
      o.lookup? (.ofText "/[a]*/b/../b/k.js") = some .cjs ∧
      (Path.ofText "/[a]*/b/../b/k.js").IsBelow (.ofText "/[a]*/./b//") := by
  have hutf8 : (Text.decode? (Path.ofText "/[a]*/./b//").normalize.bytes).isSome := by
    decide +kernel
  obtain ⟨o, ho, hkind⟩ : ∃ o, compile (.ofText "/[a]*/./b//") [⟨"*.js", .cjs⟩] = .ok o ∧
      o.lookup? (.ofText "/[a]*/b/../b/k.js") = some .cjs :=
    exists_compile_of_bind_eq_some (by decide +kernel)
  exact ⟨o, ho, hkind, (isBelow_iff_of_lookup? ho hkind).2.mpr hutf8⟩

/-- Overrides that are declared in a directory whose name is not UTF-8 count in another one. -/
theorem not_isBelow_of_lookup?_malformed :
    ∃ o, compile ⟨[0x2F, 0xFF]⟩ [⟨"*.js", .cjs⟩] = .ok o ∧
      o.lookup? (.ofText "/\uFFFD/a.js") = some .cjs ∧
      ¬(Path.ofText "/\uFFFD/a.js").IsBelow ⟨[0x2F, 0xFF]⟩ := by
  obtain ⟨o, ho, hkind⟩ : ∃ o, compile ⟨[0x2F, 0xFF]⟩ [⟨"*.js", .cjs⟩] = .ok o ∧
      o.lookup? (.ofText "/\uFFFD/a.js") = some .cjs :=
    exists_compile_of_bind_eq_some (by decide +kernel)
  exact ⟨o, ho, hkind, by decide +kernel⟩

end Overrides

end ModuleMap
