import ModuleMap.Proofs.Format.Precedence
import ModuleMap.Proofs.Override.Relocation
import ModuleMap.Proofs.Path.Below
import ModuleMap.Proofs.Text.WellFormed

/-!
# Keys that name a file

A key without characters that have a meaning of their own is the path of a file, taken from the
directory of the overrides.  It is put after the name of the directory as it is spelled, and matches
the paths whose normal form has just this spelling.  So it matches the file that it names if it
leads to it by names alone.  If it has a `.`, a `..` or a slash too many, the spelling is no normal
form, and the key matches nothing at all.

* `Overrides.lookup?_singleton_iff`, `Overrides.lookup?_exactly_iff`: what a single key matches.
* `Overrides.lookup?_plainKey_iff`: what a key matches that names a file.
* `Overrides.lookup?_plainKey_dotted`: a key that starts with `./` misses its file.
-/

namespace ModuleMap

/-! ## Keys by themselves -/

namespace Overrides

variable {b r : String} {kind : ModuleKind}

/-- A single override counts for the paths that its glob matches. -/
theorem lookup?_singleton_iff {glob : Glob} {p : Path} {forced : ModuleKind} :
    lookup? ⟨[(glob, kind)]⟩ p = some forced ↔
      forced = kind ∧ ∃ text, p.normalize.bytes = Text.encode text ∧ glob.accepts text = true := by
  rw [lookup?_eq_some_iff]
  constructor
  · rintro ⟨text, earlier, glob', later, htext, hsplit, hmatch, -⟩
    have hsingle : [(glob, kind)] = earlier ++ (glob', forced) :: later := hsplit
    have hmem : (glob', forced) ∈ [(glob, kind)] := by simp [hsingle]
    obtain ⟨rfl, rfl⟩ := Prod.mk.inj (List.mem_singleton.mp hmem)
    exact ⟨rfl, text, Text.decode?_eq_some_iff.mp htext, hmatch⟩
  · rintro ⟨rfl, text, hbytes, hmatch⟩
    exact ⟨text, [], glob, [], Text.decode?_eq_some_iff.mpr hbytes, rfl, hmatch, by simp⟩

/-- A single override for a text counts for the paths that have it for their normal form. -/
theorem lookup?_exactly_iff {text : List Char} {p : Path} {forced : ModuleKind} :
    lookup? ⟨[(Glob.exactly text, kind)]⟩ p = some forced ↔
      forced = kind ∧ p.normalize.bytes = Text.encode text := by
  rw [lookup?_singleton_iff]
  constructor
  · rintro ⟨hkind, text', hbytes, hmatch⟩
    rw [Glob.accepts_exactly_iff.mp hmatch] at hbytes
    exact ⟨hkind, hbytes⟩
  · rintro ⟨hkind, hbytes⟩
    exact ⟨hkind, text, hbytes, Glob.accepts_exactly_iff.mpr rfl⟩

/-- A key that names a file is compiled to the spelling of the file. -/
theorem compile_plainKey (hb : (Path.ofText b).isAbsolute = true)
    (hplain : Glob.IsPlain r.toList) (kind : ModuleKind) :
    compile (.ofText b) [⟨r, kind⟩] =
      .ok ⟨[(Glob.exactly (front b ++ '/' :: r.toList), kind)]⟩ := by
  have hparse := hplain.parse_eq
  have hkeys : [(⟨r, kind⟩ : OverrideEntry)].mapM compileKey =
      .ok [(Glob.exactly r.toList, kind)] := by
    simp only [List.mapM_cons, List.mapM_nil, compileKey, hparse]
    rfl
  have hexactly : Glob.exactly (front b ++ ['/']) ++ Glob.exactly r.toList =
      Glob.exactly (front b ++ '/' :: r.toList) := by
    simp [Glob.exactly]
  rw [compile_of_mapM_eq_ok hb hkeys, List.map_singleton, below, hexactly]

/-- The paths that such a key matches are spelled like it in normal form. -/
theorem lookup?_exactly_front_append_iff {p : Path} {forced : ModuleKind} :
    lookup? ⟨[(Glob.exactly (front b ++ '/' :: r.toList), kind)]⟩ p = some forced ↔
      forced = kind ∧ p.normalize = Path.spelledBelow (.ofText b) (.ofText r) := by
  have hencode : Text.encode (front b ++ '/' :: r.toList) =
      (Path.spelledBelow (.ofText b) (.ofText r)).bytes := by
    rw [Text.encode_append, encode_front]
    rfl
  rw [lookup?_exactly_iff, hencode, ← Path.mk.injEq]

/-- **A key that names a file matches that file, if it leads there by names alone.**  It is always
compiled, and then forces its kind on no other path; if it does not lead down by names alone, on
none at all. -/
theorem lookup?_plainKey_iff (hb : (Path.ofText b).isAbsolute = true) (hr : r ≠ "")
    (hplain : Glob.IsPlain r.toList) (kind : ModuleKind) :
    let named := (Path.ofText b).joinNormalized (.ofText r)
    ∃ o, compile (.ofText b) [⟨r, kind⟩] = .ok o ∧
      (o.lookup? named = some kind ↔ (Path.ofText r).IsDescent) ∧
      ∀ p forced, o.lookup? p = some forced ↔
        (Path.ofText r).IsDescent ∧ p.normalize = named ∧ forced = kind := by
  intro named
  have hbytes : (Path.ofText r).bytes ≠ [] := fun hnil =>
    hr (String.toList_eq_nil_iff.mp (Text.encode_inj.mp hnil))
  have hlookup : ∀ p forced,
      lookup? ⟨[(Glob.exactly (front b ++ '/' :: r.toList), kind)]⟩ p = some forced ↔
        (Path.ofText r).IsDescent ∧ p.normalize = named ∧ forced = kind := by
    intro p forced
    rw [lookup?_exactly_front_append_iff, Path.normalize_eq_spelledBelow_iff hb hbytes, and_comm,
      and_assoc]
  have hnamed : (Path.spelledBelow (.ofText b) (.ofText r)).normalize = named :=
    Path.normalize_spelledBelow hb hbytes
  have hnormal : named.normalize = named := by
    rw [← hnamed, Path.normalize_normalize]
  refine ⟨_, compile_plainKey hb hplain kind, ?_, hlookup⟩
  rw [hlookup]
  exact ⟨fun h => h.1, fun h => ⟨h, hnormal, rfl⟩⟩

/-- A key below a directory whose name is full of brackets and stars, and its file under another
spelling. -/
theorem lookup?_plainKey_iff_brackets :
    let b := "//w[1]*/./x?/"
    let r := "src/k!-m.d/a.js"
    let named := (Path.ofText b).joinNormalized (.ofText r)
    ((Path.ofText b).isAbsolute = true ∧ r ≠ "" ∧ Glob.IsPlain r.toList) ∧
      ∃ o, compile (.ofText b) [⟨r, .esm⟩] = .ok o ∧ o.lookup? named = some .esm ∧
        o.lookup? (.ofText "/w[1]*/x?/lib/..//src/./k!-m.d/a.js") = some .esm := by
  intro b r named
  have hb : (Path.ofText b).isAbsolute = true := by decide +kernel
  have hr : r ≠ "" := by decide +kernel
  have hplain : Glob.IsPlain r.toList := by decide +kernel
  have hdescent : (Path.ofText r).IsDescent := by decide +kernel
  obtain ⟨o, ho, hhits, hlookup⟩ := lookup?_plainKey_iff hb hr hplain .esm
  refine ⟨⟨hb, hr, hplain⟩, o, ho, hhits.mpr hdescent, ?_⟩
  exact (hlookup _ _).mpr ⟨hdescent, by decide +kernel, rfl⟩

/-- A key that starts with `./` is relative and names a file, but the file is not found under it. -/
theorem lookup?_plainKey_dotted :
    ((Path.ofText "/p").isAbsolute = true ∧ (Path.ofText "./a.js").isAbsolute = false ∧
        "./a.js" ≠ "" ∧ Glob.IsPlain "./a.js".toList) ∧
      (Path.ofText "/p").joinNormalized (.ofText "./a.js") = .ofText "/p/a.js" ∧
      ∃ o, compile (.ofText "/p") [⟨"./a.js", .cjs⟩] = .ok o ∧
        o.lookup? (.ofText "/p/a.js") = none := by
  have hb : (Path.ofText "/p").isAbsolute = true := by decide +kernel
  have hplain : Glob.IsPlain "./a.js".toList := by decide +kernel
  refine ⟨⟨hb, by decide +kernel, by decide +kernel, hplain⟩, by decide +kernel, _,
    compile_plainKey hb hplain .cjs, by decide +kernel⟩

end Overrides

end ModuleMap
