import ModuleMap.Override
import ModuleMap.Proofs.FirstFailure
import ModuleMap.Proofs.Glob.Anchoring
import ModuleMap.Proofs.Path.Below

/-!
# Overrides do not depend on where the project is

The keys of overrides are globs below a directory.  The name of the directory is escaped and put
before each key, and it is also what the paths of the files below begin with.  So it adds the same
to both, and a key is a glob, and matches a file, just as if it stood for itself.

* `Overrides.front`: the text that a directory puts before a key (`Overrides.anchored_eq`), and
  before what is below it (`Overrides.decode?_bytes_joinNormalized`).
* `Overrides.compileKey`: what an entry is compiled to by itself, and `Overrides.compile_eq` for
  what the entries of a directory are compiled to.
* `Overrides.compile_relocated`: the overrides of two directories.
-/

namespace ModuleMap

namespace Overrides

variable {b r : String}

/-! ## The text before a key -/

/-- The text of an absolute directory before the slash of what is in it; the root has none. -/
def front (b : String) : List Char :=
  (Path.settle true (Path.ofText b).names).flatMap fun s => '/' :: Text.decodeLossy s

theorem encode_front (b : String) :
    Text.encode (front b) = (Path.settle true (Path.ofText b).names).flatMap (slash :: ·) := by
  have hnames : ∀ s ∈ Path.settle true (Path.ofText b).names, s ∈ (Path.ofText b).names :=
    fun s hs => (Path.mem_of_mem_settle hs).1
  unfold front
  generalize Path.settle true (Path.ofText b).names = names at hnames ⊢
  induction names with
  | nil => rfl
  | cons s ss ih =>
    rw [List.forall_mem_cons] at hnames
    obtain ⟨cs, -, -, rfl⟩ := Path.exists_text_of_mem_names hnames.1
    rw [List.flatMap_cons, List.flatMap_cons, Text.encode_append, ih hnames.2,
      Text.decodeLossy_encode]
    rfl

/-- The text does not end with a slash. -/
theorem getLast?_front (b : String) : (front b).getLast? ≠ some '/' := by
  unfold front
  rcases List.eq_nil_or_concat (Path.settle true (Path.ofText b).names) with hnil | ⟨ss, s, hs⟩
  · simp [hnil]
  · rw [List.concat_eq_append] at hs
    have hmem : s ∈ (Path.ofText b).names := (Path.mem_of_mem_settle (hs ▸ by simp)).1
    obtain ⟨cs, hne, hslash, rfl⟩ := Path.exists_text_of_mem_names hmem
    rw [hs, List.flatMap_append, List.flatMap_singleton, Text.decodeLossy_encode,
      List.getLast?_append, List.getLast?_cons_of_ne_nil hne]
    rcases hlast : cs.getLast? with _ | c
    · exact absurd (List.getLast?_eq_none_iff.mp hlast) hne
    · have hc : c ≠ '/' := fun heq => hslash (heq ▸ List.mem_of_getLast? hlast)
      simpa using hc

theorem trimSlashes_concat_slash (cs : List Char) : trimSlashes (cs ++ ['/']) = trimSlashes cs := by
  simp [trimSlashes]

/-- Escaping makes no slash at the end. -/
theorem trimSlashes_escape {cs : List Char} (h : cs.getLast? ≠ some '/') :
    trimSlashes (Glob.escape cs) = Glob.escape cs := by
  rcases List.eq_nil_or_concat cs with rfl | ⟨cs, c, rfl⟩
  · rfl
  · rw [List.concat_eq_append] at h ⊢
    have hc : c ≠ '/' := by simpa using h
    rw [Glob.escape_append, Glob.escape_cons, Glob.escape_nil, List.append_nil]
    cases Glob.isSpecial c <;> simp [trimSlashes, hc]

/-- A key is spelled below the escaped text of its directory. -/
theorem anchored_eq (hb : (Path.ofText b).isAbsolute = true) (key : String) :
    anchored (.ofText b) key = Glob.escape (front b ++ ['/']) ++ key.toList := by
  obtain ⟨slashes, hslashes, hbytes⟩ := Path.bytes_normalize hb
  have htrimmed : trimSlashes (Glob.escape (Text.decodeLossy (Path.ofText b).normalize.bytes)) =
      Glob.escape (front b) := by
    rw [hbytes, ← encode_front]
    rcases hslashes with rfl | rfl
    · rw [List.append_nil, Text.decodeLossy_encode, trimSlashes_escape (getLast?_front b)]
    · have hslash : [slash] = Text.encode ['/'] := by decide
      rw [hslash, ← Text.encode_append, Text.decodeLossy_encode, Glob.escape_append]
      show trimSlashes (Glob.escape (front b) ++ ['/']) = _
      rw [trimSlashes_concat_slash, trimSlashes_escape (getLast?_front b)]
  unfold anchored
  rw [htrimmed, Glob.escape_append, List.append_assoc]
  rfl

/-- What is below the directory is spelled below its text. -/
theorem decode?_bytes_joinNormalized (hb : (Path.ofText b).isAbsolute = true)
    (hr : Path.LeadsDown r) :
    Text.decode? ((Path.ofText b).joinNormalized (.ofText r)).normalize.bytes =
      some (front b ++ '/' :: r.toList) := by
  have htail : slash :: (Path.ofText r).bytes = Text.encode ('/' :: r.toList) := rfl
  rw [Path.bytes_normalize_joinNormalized hb hr, ← encode_front, htail, ← Text.encode_append,
    Text.decode?_encode]

/-! ## Entries by themselves -/

/-- What an entry is compiled to by itself, or its key and what is wrong with it. -/
def compileKey (entry : OverrideEntry) : Except (String × Glob.Fault) (Glob × ModuleKind) :=
  match Glob.parse entry.key.toList with
  | .ok glob => .ok (glob, entry.kind)
  | .error e => .error (entry.key, e.fault)

theorem exists_parse_of_compileKey {entry : OverrideEntry} {compiled : Glob × ModuleKind}
    (h : compileKey entry = .ok compiled) : ∃ g, Glob.parse entry.key.toList = .ok g := by
  unfold compileKey at h
  cases hparse : Glob.parse entry.key.toList with
  | ok g => exact ⟨g, rfl⟩
  | error e =>
    rw [hparse] at h
    cases h

theorem exists_parse_of_compileKey_eq_error {entry : OverrideEntry} {found : String × Glob.Fault}
    (h : compileKey entry = .error found) :
    ∃ e, Glob.parse entry.key.toList = .error e ∧ found = (entry.key, e.fault) := by
  unfold compileKey at h
  cases hparse : Glob.parse entry.key.toList with
  | ok g =>
    rw [hparse] at h
    cases h
  | error e =>
    rw [hparse] at h
    exact ⟨e, rfl, (Except.error.inj h).symm⟩

/-- A compiled entry below a text. -/
def below (front : List Char) (entry : Glob × ModuleKind) : Glob × ModuleKind :=
  (Glob.exactly (front ++ ['/']) ++ entry.1, entry.2)

/-- The key that a fault names and what is wrong with it. -/
def keyFault? : Fault → Option (String × Glob.Fault)
  | .overridePattern key e => some (key, e.fault)
  | _ => none

/-- Below a directory an entry is compiled as it is by itself. -/
theorem compileEntry_eq (hb : (Path.ofText b).isAbsolute = true) (entry : OverrideEntry) :
    (compileEntry (.ofText b) entry).mapError keyFault? =
      ((compileKey entry).map (below (front b))).mapError some := by
  have hparse := Glob.mapError_parse_escape_append (front b) entry.key.toList
  unfold compileEntry compileKey
  rw [anchored_eq hb]
  generalize Glob.parse (Glob.escape (front b ++ ['/']) ++ entry.key.toList) = anchored at hparse ⊢
  generalize Glob.parse entry.key.toList = alone at hparse ⊢
  cases anchored with
  | error e =>
    cases alone with
    | error e' =>
      have hfault : e.fault = e'.fault := Except.error.inj hparse
      simp only [Except.mapError, Except.map, keyFault?, hfault]
    | ok g => cases hparse
  | ok g =>
    cases alone with
    | error e => cases hparse
    | ok g' =>
      obtain rfl : g = Glob.exactly (front b ++ ['/']) ++ g' := Except.ok.inj hparse
      rfl

/-- The entries of a directory are compiled as they are by themselves, up to the first that is no
glob. -/
theorem compile_eq (hb : (Path.ofText b).isAbsolute = true) (entries : List OverrideEntry) :
    (compile (.ofText b) entries).mapError keyFault? =
      ((entries.mapM compileKey).map fun es => (⟨es.map (below (front b))⟩ : Overrides)).mapError
        some := by
  have hmapM := mapError_mapM (compileEntry_eq hb) entries
  unfold compile
  generalize entries.mapM (compileEntry (.ofText b)) = compiled at hmapM ⊢
  generalize entries.mapM compileKey = alone at hmapM ⊢
  rcases compiled with f | es <;> rcases alone with e | es'
  · exact congrArg Except.error (Except.error.inj hmapM)
  · cases hmapM
  · cases hmapM
  · obtain rfl : es = es'.map (below (front b)) := Except.ok.inj hmapM
    rfl

theorem compile_of_mapM_eq_ok (hb : (Path.ofText b).isAbsolute = true)
    {entries : List OverrideEntry} {es : List (Glob × ModuleKind)}
    (h : entries.mapM compileKey = .ok es) :
    compile (.ofText b) entries = .ok ⟨es.map (below (front b))⟩ := by
  have hcompile := compile_eq hb entries
  rw [h] at hcompile
  cases hcompiled : compile (.ofText b) entries with
  | error f =>
    rw [hcompiled] at hcompile
    cases hcompile
  | ok o =>
    rw [hcompiled] at hcompile
    exact congrArg Except.ok (Except.ok.inj hcompile)

theorem compile_of_mapM_eq_error (hb : (Path.ofText b).isAbsolute = true)
    {entries : List OverrideEntry} {key : String} {fault : Glob.Fault}
    (h : entries.mapM compileKey = .error (key, fault)) :
    ∃ e, compile (.ofText b) entries = .error (.overridePattern key e) ∧ e.fault = fault := by
  have hcompile := compile_eq hb entries
  rw [h] at hcompile
  cases hcompiled : compile (.ofText b) entries with
  | ok o =>
    rw [hcompiled] at hcompile
    cases hcompile
  | error f =>
    rw [hcompiled] at hcompile
    have hfault : keyFault? f = some (key, fault) := Except.error.inj hcompile
    cases f <;> cases hfault
    exact ⟨_, rfl, rfl⟩

/-- Below the directory, the kind forced on a file is that of the last entry whose key matches. -/
theorem lookup?_below (hb : (Path.ofText b).isAbsolute = true) (hr : Path.LeadsDown r)
    (es : List (Glob × ModuleKind)) :
    lookup? ⟨es.map (below (front b))⟩ ((Path.ofText b).joinNormalized (.ofText r)) =
      (es.reverse.find? fun e => Glob.matchesText e.1 r.toList).map (·.2) := by
  unfold lookup?
  rw [decode?_bytes_joinNormalized hb hr, ← List.map_reverse]
  have hmatches : ∀ e, Glob.matchesText (below (front b) e).1 (front b ++ '/' :: r.toList) =
      Glob.matchesText e.1 r.toList := by
    intro e
    have htext : front b ++ '/' :: r.toList = front b ++ ['/'] ++ r.toList := by simp
    rw [htext]
    exact Glob.matchesText_exactly_append _ _ _
  simp only [bind, Option.bind_some, List.find?_map, Function.comp_def, hmatches]
  cases es.reverse.find? fun e => Glob.matchesText e.1 r.toList <;> rfl

/-- **Overrides do not depend on where the project is.**  For two directories the entries are
compiled both times, and then the same kind is forced on what has the same path below.  Or they fail
both times, at the same entry and for the same reason: the first whose key is no glob by itself. -/
theorem compile_relocated {b₁ b₂ : String} (h₁ : (Path.ofText b₁).isAbsolute = true)
    (h₂ : (Path.ofText b₂).isAbsolute = true) (entries : List OverrideEntry) :
    (∃ o₁ o₂, compile (.ofText b₁) entries = .ok o₁ ∧ compile (.ofText b₂) entries = .ok o₂ ∧
        ∀ r, Path.LeadsDown r →
          o₁.lookup? ((Path.ofText b₁).joinNormalized (.ofText r)) =
            o₂.lookup? ((Path.ofText b₂).joinNormalized (.ofText r))) ∨
      ∃ earlier entry later e e₁ e₂, entries = earlier ++ entry :: later ∧
        (∀ x ∈ earlier, ∃ g, Glob.parse x.key.toList = .ok g) ∧
        Glob.parse entry.key.toList = .error e ∧
        compile (.ofText b₁) entries = .error (.overridePattern entry.key e₁) ∧
        compile (.ofText b₂) entries = .error (.overridePattern entry.key e₂) ∧
        e₁.fault = e.fault ∧ e₂.fault = e.fault := by
  cases halone : entries.mapM compileKey with
  | ok es =>
    refine Or.inl ⟨_, _, compile_of_mapM_eq_ok h₁ halone, compile_of_mapM_eq_ok h₂ halone, ?_⟩
    intro r hr
    rw [lookup?_below h₁ hr, lookup?_below h₂ hr]
  | error found =>
    obtain ⟨earlier, entry, later, rfl, hearlier, hentry⟩ := mapM_eq_error_iff.mp halone
    obtain ⟨e, hparse, rfl⟩ := exists_parse_of_compileKey_eq_error hentry
    obtain ⟨e₁, hcompile₁, hfault₁⟩ := compile_of_mapM_eq_error h₁ halone
    obtain ⟨e₂, hcompile₂, hfault₂⟩ := compile_of_mapM_eq_error h₂ halone
    refine Or.inr ⟨earlier, entry, later, e, e₁, e₂, rfl, fun x hx => ?_, hparse, hcompile₁,
      hcompile₂, hfault₁, hfault₂⟩
    obtain ⟨compiled, hcompiled⟩ := hearlier x hx
    exact exists_parse_of_compileKey hcompiled

/-- In a directory whose name is full of brackets, stars and dots, a file is forced to the kind that
it has at the root. -/
theorem compile_relocated_brackets :
    let b := "//w[1]*/./a?//../b]!/"
    let r := "lib/t1.js"
    let entries : List OverrideEntry := [⟨"**/t?.js", .esm⟩, ⟨"lib/[!a]*.js", .cjs⟩]
    ((Path.ofText b).isAbsolute = true ∧ (Path.ofText "/").isAbsolute = true ∧
        Path.LeadsDown r) ∧
      ∃ o, compile (.ofText b) entries = .ok o ∧
        o.lookup? ((Path.ofText b).joinNormalized (.ofText r)) = some .cjs := by
  intro b r entries
  have hb : (Path.ofText b).isAbsolute = true := by decide +kernel
  have hroot : (Path.ofText "/").isAbsolute = true := by decide +kernel
  have hr : Path.LeadsDown r := by decide +kernel
  have hkind : (compile (.ofText "/") entries).toOption.bind
      (·.lookup? ((Path.ofText "/").joinNormalized (.ofText r))) = some .cjs := by decide +kernel
  refine ⟨⟨hb, hroot, hr⟩, ?_⟩
  rcases compile_relocated hb hroot entries with
    ⟨o₁, o₂, hcompile₁, hcompile₂, hsame⟩ | ⟨-, entry, -, -, -, e₂, -, -, -, -, hfails, -⟩
  · rw [hcompile₂] at hkind
    exact ⟨o₁, hcompile₁, (hsame r hr).trans hkind⟩
  · rw [hfails] at hkind
    cases hkind

end Overrides

end ModuleMap
