import ModuleMap.Proofs.FileTree.Alike
import ModuleMap.Proofs.FirstFailure
import ModuleMap.Proofs.Jsonc.Decoration
import ModuleMap.Proofs.Text.Utf8
import ModuleMap.Proofs.Tsconfig.Agreement

/-!
# Configs with comments and trailing commas

What a config declares, and so what is loaded from it, does not depend on the comments and trailing
commas in its text: the reader sees the same tokens with them and without.  Other configs may extend
the config or be extended by it, and it may be read many times on the way; all of this goes on alike
in a tree that has the one text and in a tree that has the other.

* `Declared.parse_congr`: texts of the same tokens declare the same.
* `Tsconfig.ending_load_of_alike`: trees whose files declare the same.
* `Tsconfig.load_decorated`: a config with decorations and without.
* `Tsconfig.plainConfig`, `Tsconfig.decoratedConfig`: one of each.
-/

namespace ModuleMap

open Json (Lexeme Relaxes IsText)
open Jsonc (IsDecorated)

/-! ## What is declared -/

/-- Documents that are not blank and stand for the same tokens declare the same; only the line of an
error can differ. -/
theorem Declared.parse_congr {s j : List Char} (hs : Jsonc.isBlankDocument (Jsonc.toJson s) = false)
    (hj : Jsonc.isBlankDocument (Jsonc.toJson j) = false)
    (h : (Json.tokens (Jsonc.toJson s)).map (·.token) =
      (Json.tokens (Jsonc.toJson j)).map (·.token)) :
    (Declared.parse s).mapError Json.Error.category =
      (Declared.parse j).mapError Json.Error.category := by
  unfold Declared.parse
  simp only [hs, hj, Bool.false_eq_true, if_false]
  exact Json.readDocument_congr _ h

/-- Contents of a file that declare the same, if either declares anything. -/
def Declared.SameContent (bytes bytes' : List UInt8) : Prop :=
  ∀ d, Declared.parse (Text.decodeLossy bytes) = .ok d ↔
    Declared.parse (Text.decodeLossy bytes') = .ok d

/-! ## What is loaded -/

namespace Tsconfig

variable {t u : FileTree}

theorem load_declared_of_alike (h : FileTree.Alike Declared.SameContent t u) {p : Path}
    {d : Declared} (hd : Declared.load t p = .ok d) : Declared.load u p = .ok d := by
  obtain ⟨text, htext, hparse⟩ := Declared.load_eq_ok_iff.mp hd
  unfold FileTree.readLossy at htext
  cases hbytes : t.readBytes p with
  | error e =>
    rw [hbytes] at htext
    cases htext
  | ok bytes =>
    rw [hbytes] at htext
    cases htext
    obtain ⟨bytes', hbytes', hsame⟩ := h.readBytes hbytes
    refine Declared.load_eq_ok_iff.mpr ⟨_, ?_, (hsame d).mp hparse⟩
    rw [FileTree.readLossy, hbytes']

/-- Trees whose files declare the same load alike. -/
theorem ending_load_of_alike (h : FileTree.Alike Declared.SameContent t u)
    (h' : FileTree.Alike Declared.SameContent u t) (p : Path) :
    ending (load t p) = ending (load u p) := by
  refine ending_load (h.resolve_eq p).symm fun path _ => ?_
  refine ending_loadChain (I := fun _ _ => True) (fun chain p _ d => ?_) ?_ trivial
  · rw [visit_eq_ok_iff, visit_eq_ok_iff]
    exact and_congr_right fun _ => ⟨load_declared_of_alike h, load_declared_of_alike h'⟩
  · intro chain p d earlier value later _ _ _ _
    exact ⟨(h.extended_eq p.directory value).symm, trivial⟩

/-- **Comments and trailing commas do not count.**  Of a decorated text the passes leave the lexemes
of the JSON text that was decorated, character by character, and only blanks between them; the
tokens are those of that text, which the passes do not change.  So both declare the same, or fail in
the same way.  With the one in a file of any tree the same is loaded as with the other, if anything
is, and loading has no answer if it has none with the other. -/
theorem load_decorated {xs ys : List Lexeme} (h : Relaxes .value xs ys) {j s : List Char}
    (hj : IsText xs j) (hs : IsDecorated ys s) :
    IsText xs (Jsonc.toJson s) ∧
      (Json.tokens (Jsonc.toJson s)).map (·.token) = (Json.tokens j).map (·.token) ∧
      (Jsonc.stripComments j = j ∧ Jsonc.stripTrailingCommas j = j) ∧
      (Declared.parse s).mapError Json.Error.category =
        (Declared.parse j).mapError Json.Error.category ∧
      ∀ (t : FileTree) (loc : Location) (p : Path),
        (∀ c, load (t.put loc (.file (Text.encode s))) p = some (.ok c) ↔
          load (t.put loc (.file (Text.encode j))) p = some (.ok c)) ∧
        (load (t.put loc (.file (Text.encode s))) p = none ↔
          load (t.put loc (.file (Text.encode j))) p = none) := by
  have hlexemes := h.strict.isLexeme
  have hne : xs ≠ [] := h.ne_nil
  have hjson : Jsonc.toJson j = j := Jsonc.toJson_eq_self h hj
  have htext := Jsonc.isText_toJson h hs
  have htokens := Jsonc.tokens_toJson h hj hs
  have hblankS := Jsonc.isBlankDocument_eq_false hlexemes hne htext
  have hblankJ : Jsonc.isBlankDocument (Jsonc.toJson j) = false := by
    rw [hjson]
    exact Jsonc.isBlankDocument_eq_false hlexemes hne hj
  have hparse := Declared.parse_congr hblankS hblankJ (by rw [hjson]; exact htokens)
  have hsame : Declared.SameContent (Text.encode s) (Text.encode j) := by
    intro d
    rw [Text.decodeLossy_encode, Text.decodeLossy_encode,
      ← mapError_eq_ok_iff (f := Json.Error.category), hparse, mapError_eq_ok_iff]
  refine ⟨htext, htokens, Jsonc.strip_eq_self h hj, hparse, fun t loc p => ending_eq_iff.mp ?_⟩
  exact ending_load_of_alike (FileTree.alike_put (fun _ _ => Iff.rfl) hsame t loc)
    (FileTree.alike_put (fun _ _ => Iff.rfl) (fun d => (hsame d).symm) t loc) p

/-! ## A decorated config -/

/-- A config with a base directory, which has a comma, a brace and two slashes in its name. -/
def plainConfig : String :=
  "\x7b\"compilerOptions\":\x7b\"baseUrl\":\"//,\x7d\"\x7d\x7d"

/-- The config with blanks, comments, trailing commas and byte order marks. -/
def decoratedConfig : String :=
  "\uFEFF\uFEFF// \"\n\x7b/*/ */\"compilerOptions\" :\x7b\"baseUrl\":\"//,\x7d\",/**/\x7d,\n\x7d//"

/-- The lexemes of the config, each with what is before it in the decorated text. -/
def decoratedParts : List (List Char × Lexeme) :=
  [("// \"\n".toList, ['\x7b']), ("/*/ */".toList, Json.quoted "compilerOptions"),
    ([' '], [':']), ([], ['\x7b']), ([], Json.quoted "baseUrl"), ([], [':']),
    ([], Json.quoted "//,\x7d"), ([], [',']), ("/**/".toList, ['\x7d']), ([], [',']),
    (['\n'], ['\x7d'])]

theorem isDecorated_decoratedConfig :
    IsDecorated (decoratedParts.map Prod.snd) decoratedConfig.toList := by
  have hline : Jsonc.Trivia "// \"\n".toList := .line (show '\n' ∉ [' ', '"'] by decide) .nil
  have hblock : Jsonc.Trivia "/*/ */".toList :=
    .block (show ¬['*', '/'] <:+: ['/', ' '] by decide) .nil
  have hempty : Jsonc.Trivia "/**/".toList := .block (show ¬['*', '/'] <:+: [] by decide) .nil
  have hspace : Jsonc.Trivia [' '] := .blank rfl .nil
  have hbreak : Jsonc.Trivia ['\n'] := .blank rfl .nil
  have hgaps : ∀ part ∈ decoratedParts, Jsonc.Trivia part.1 := by
    simp only [decoratedParts, List.forall_mem_cons]
    exact ⟨hline, hblock, hspace, .nil, .nil, .nil, .nil, .nil, hempty, .nil, hbreak, by simp⟩
  have hlast : Jsonc.LastTrivia "//".toList := .line .nil (show '\n' ∉ [] by simp)
  refine ⟨2, Json.weave decoratedParts "//".toList, by decide, ?_⟩
  exact Json.spaced_weave hgaps hlast

/-- The lexemes of the plain config. -/
def plainLexemes : List Lexeme :=
  [['\x7b'], Json.quoted "compilerOptions", [':'], ['\x7b'], Json.quoted "baseUrl", [':'],
    Json.quoted "//,\x7d", ['\x7d'], ['\x7d']]

theorem isText_plainConfig : IsText plainLexemes plainConfig.toList := by
  have htext : plainConfig.toList = Json.weave (plainLexemes.map ([], ·)) [] := by decide
  have hgaps : ∀ part ∈ plainLexemes.map (([], ·) : Lexeme → List Char × Lexeme),
      Json.IsBlanks part.1 := by simp [Json.IsBlanks]
  rw [htext]
  exact Json.spaced_weave hgaps (by simp [Json.IsBlanks])

theorem relaxes_decoratedConfig :
    Relaxes .value plainLexemes (decoratedParts.map Prod.snd) := by
  have houter : Json.IsString (Json.quoted "compilerOptions") := Json.isString_quoted (by decide)
  have hinner : Json.IsString (Json.quoted "baseUrl") := Json.isString_quoted (by decide)
  have hvalue : Json.IsString (Json.quoted "//,\x7d") := Json.isString_quoted (by decide)
  have hoptions : Relaxes .value _ _ :=
    .object (.member hinner (.scalar (.string hvalue))) (Or.inr rfl)
  exact .object (.member houter hoptions) (Or.inr rfl)

/-- The decorated config is loaded as the plain one is. -/
theorem load_decorated_config :
    Relaxes .value plainLexemes (decoratedParts.map Prod.snd) ∧
      IsText plainLexemes plainConfig.toList ∧
      IsDecorated (decoratedParts.map Prod.snd) decoratedConfig.toList ∧
      load (FileTree.put {} [Text.encode "app.json".toList]
          (.file (Text.encode decoratedConfig.toList))) (.ofText "/app.json") =
        some (.ok { path := .ofText "/app.json", mapping := ⟨some (.ofText "/,\x7d"), none⟩ }) := by
  have hchain : (loadWithin (FileTree.put {} [Text.encode "app.json".toList]
      (.file (Text.encode plainConfig.toList))) 1 [] (.ofText "/app.json")).bind Except.toOption =
        some { mapping := ⟨some (.ofText "/,\x7d"), none⟩ } := by decide +kernel
  have hroot : (FileTree.put {} [Text.encode "app.json".toList]
      (.file (Text.encode plainConfig.toList))).resolve (.ofText "/app.json") =
        .ok (.ofText "/app.json") := by decide +kernel
  obtain ⟨-, -, -, -, hload⟩ :=
    load_decorated relaxes_decoratedConfig isText_plainConfig isDecorated_decoratedConfig
  exact ⟨relaxes_decoratedConfig, isText_plainConfig, isDecorated_decoratedConfig,
    ((hload {} _ _).1 _).mpr (load_of_loadWithin hroot hchain)⟩

end Tsconfig

end ModuleMap
