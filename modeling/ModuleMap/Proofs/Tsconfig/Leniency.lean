import ModuleMap.Proofs.Jsonc.Blanking
import ModuleMap.Proofs.Jsonc.Forgiving
import ModuleMap.Tsconfig.Declared

/-!
# Texts that are taken for configs

Besides JSON a config may have comments and trailing commas.  The two passes that take these away
let through more than that, and here it is said how much.

A comment without line ends may stand inside a number or word, which it does not end.  Everywhere
else a comment counts as a blank.  An array or object without items may have a comma.  Every other
comma before a closing bracket is one after the last item or member.

* `Declared.sound_read`: what is read as a config is JSON.
* `Jsonc.parse_blankComments_iff`: comments and blanks.
* `Jsonc.parse_stripTrailingCommas_iff`: commas before closing brackets.
-/

namespace ModuleMap

open Json (Lexeme IsLexeme IsText Relaxes Forgives HasLoneComma Sound)

/-! ## Configs are JSON -/

theorem MappingOptions.sound_read : Sound MappingOptions.read := by
  have hpaths := Json.sound_readEntries (Json.sound_readItems Json.sound_readString)
  exact Json.sound_readRecord (List.forall_mem_cons.mpr
    ⟨fun o => (Json.sound_readNullable Json.sound_readString).bind_ok
        fun v => { o with baseUrl := v.map .ofText },
      List.forall_mem_singleton.mpr fun _ => (Json.sound_readNullable hpaths).bind_ok _⟩)

namespace Declared

theorem sound_readExtends : Sound readExtends := by
  intro ts names rest h
  obtain ⟨⟨v, rest'⟩, hv, h⟩ := bind_eq_ok_iff.mp h
  dsimp only at h
  split at h
  · cases h
    exact Json.sound_readValue _ hv
  · cases h

/-- Only a JSON value is read as a config. -/
theorem sound_read (d : Declared) : Sound (Json.readRecord fields {} d) := by
  have hkinds : Sound (Json.readEntries ModuleKind.read) :=
    Json.sound_readEntries Json.sound_readChoice
  have htool : ∀ d, Sound (Json.readRecord toolFields {} d) := fun d =>
    Json.sound_readRecord (List.forall_mem_singleton.mpr
      fun _ => (Json.sound_readNullable hkinds).bind_ok _)
  exact Json.sound_readRecord (List.forall_mem_cons.mpr
    ⟨fun d => sound_readExtends.bind_ok fun v => { d with bases := v }, List.forall_mem_cons.mpr
      ⟨fun d => MappingOptions.sound_read.bind_ok fun v => { d with mapping := v },
        List.forall_mem_singleton.mpr htool⟩⟩)

end Declared

namespace Jsonc

/-! ## Comments -/

/-- **Comments are blanks, unless they join.**  With a blank and its line ends in the place of each
comment a text is read, as any value or as a config, if and only if it is read without its comments
and none of these joins two characters of numbers and words; and then the same is read. -/
theorem parse_blankComments_iff (s : List Char) :
    (∀ v, Json.Value.parse (blankComments s) = .ok v ↔
        Json.Value.parse (stripComments s) = .ok v ∧ ¬Joins s) ∧
      ∀ d, Json.readDocument (Json.readRecord Declared.fields {} {}) (blankComments s) = .ok d ↔
        Json.readDocument (Json.readRecord Declared.fields {} {}) (stripComments s) = .ok d ∧
          ¬Joins s :=
  ⟨readDocument_blankComments (Json.sound_readValue _) s,
    readDocument_blankComments (Declared.sound_read {}) s⟩

/-- A config with a comment inside a word. -/
def joinedConfig : String :=
  "\x7b\"compilerOptions\":\x7b\"baseUrl\":nu/**/ll\x7d\x7d"

/-- Without its comment the config is read, and with a blank for it not. -/
theorem readDocument_joinedConfig :
    Json.readDocument (Json.readRecord Declared.fields {} {})
        (stripComments joinedConfig.toList) = .ok {} ∧
      Json.readDocument (Json.readRecord Declared.fields {} {})
        (blankComments joinedConfig.toList) = .error ⟨.malformed, 1⟩ := by
  constructor <;> decide +kernel

/-! ## Commas -/

/-- **What is forgiven.**  Without its trailing commas a text is read, as any value or as a config,
if and only if its lexemes are those of JSON but for commas that may stand before closing brackets,
one before each; and then the value of the JSON without them is read.  These commas are trailing
ones, as JSON with trailing commas has them, unless one comes right after an opening bracket. -/
theorem parse_stripTrailingCommas_iff (s : List Char) :
    (∀ v, Json.Value.parse (stripTrailingCommas s) = .ok v ↔
        ∃ xs ys, Forgives .value xs ys ∧ IsText ys s ∧
          ∀ j, IsText xs j → Json.Value.parse j = .ok v) ∧
      (∀ d, Json.readDocument (Json.readRecord Declared.fields {} {}) (stripTrailingCommas s) =
          .ok d ↔
        ∃ xs ys, Forgives .value xs ys ∧ IsText ys s ∧
          ∀ j, IsText xs j →
            Json.readDocument (Json.readRecord Declared.fields {} {}) j = .ok d) ∧
      ∀ xs ys, Relaxes .value xs ys ↔ Forgives .value xs ys ∧ ¬HasLoneComma ys :=
  ⟨readDocument_stripTrailingCommas (Json.sound_readValue _) s,
    readDocument_stripTrailingCommas (Declared.sound_read {}) s, fun _ _ => Json.relaxes_iff⟩

/-- A config that is an object with a comma and no members. -/
def loneCommaConfig : String :=
  "\x7b,\x7d"

/-- Without its comma the config is read, though the comma is no trailing one. -/
theorem readDocument_loneCommaConfig :
    Json.readDocument (Json.readRecord Declared.fields {} {})
        (stripTrailingCommas loneCommaConfig.toList) = .ok {} ∧
      ∀ xs ys, Relaxes .value xs ys → ¬IsText ys loneCommaConfig.toList := by
  refine ⟨by decide +kernel, fun xs ys h htext => ?_⟩
  have htext' : IsText ys ['\x7b', ',', '\x7d'] := htext
  exact (Json.relaxes_iff.mp h).2 (hasLoneComma_of_isText (by decide) h.isLexeme htext')

end Jsonc

end ModuleMap
