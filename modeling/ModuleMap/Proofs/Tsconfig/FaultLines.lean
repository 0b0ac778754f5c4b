import ModuleMap.Proofs.Json.Stopping
import ModuleMap.Proofs.Jsonc.Lines
import ModuleMap.Tsconfig.Declared

/-!
# Lines of faults in configs

Of a config only what the passes leave is read, and a fault in that is reported with a line.  The
passes leave out no line end and move nothing, so the line with this number in the config is the one
whose rest was read.

* `MappingOptions.careful_read`, `Declared.careful_read`: a config is read within its tokens.
* `Jsonc.lines_stripped`: lines of a text and of what the passes leave of it.
-/

namespace ModuleMap

open Json (Careful)

/-! ## Where reading a config stops -/

theorem MappingOptions.careful_read : Careful MappingOptions.read := by
  have hpaths := Json.careful_readEntries (Json.careful_readItems Json.careful_readString)
  exact Json.careful_readRecord (List.forall_mem_cons.mpr
    ⟨fun o => (Json.careful_readNullable Json.careful_readString).bind_ok
        fun v => { o with baseUrl := v.map .ofText },
      List.forall_mem_singleton.mpr fun _ => (Json.careful_readNullable hpaths).bind_ok _⟩) _ _

namespace Declared

theorem careful_readExtends : Careful readExtends := by
  intro ts
  refine (Json.careful_readValue extendsDepth ts).bind fun ⟨v, rest⟩ => ?_
  dsimp only
  split
  · exact List.Subset.refl _
  · exact Or.inl rfl

theorem careful_read (d : Declared) : Careful (Json.readRecord fields {} d) := by
  have hkinds : Careful (Json.readEntries ModuleKind.read) :=
    Json.careful_readEntries Json.careful_readChoice
  have htool : ∀ d, Careful (Json.readRecord toolFields {} d) := fun d =>
    Json.careful_readRecord (List.forall_mem_singleton.mpr
      fun _ => (Json.careful_readNullable hkinds).bind_ok _) _ _
  exact Json.careful_readRecord (List.forall_mem_cons.mpr
    ⟨fun d => careful_readExtends.bind_ok fun v => { d with bases := v }, List.forall_mem_cons.mpr
      ⟨fun d => MappingOptions.careful_read.bind_ok fun v => { d with mapping := v },
        List.forall_mem_singleton.mpr htool⟩⟩) _ _

end Declared

namespace Jsonc

/-! ## Lines -/

/-- **Lines survive the passes.**  Without its comments, and without trailing commas besides, a text
has as many line ends as before, and each line has characters of the line with its number, in their
order, and no others.  So the line that is reported for what is left of a text, read as any value or
as a config, is the number of the line whose rest stands there. -/
theorem lines_stripped (s : List Char) :
    (stripComments s).count '\n' = s.count '\n' ∧
      (stripTrailingCommas (stripComments s)).count '\n' = s.count '\n' ∧
      List.Forall₂ List.Sublist (lines (stripComments s)) (lines s) ∧
      List.Forall₂ List.Sublist (lines (stripTrailingCommas (stripComments s))) (lines s) ∧
      (∀ e, Json.Value.parse (stripTrailingCommas (stripComments s)) = .error e →
        KeepsLine e.line (stripTrailingCommas (stripComments s)) s) ∧
      ∀ e, Declared.parse s = .error e → KeepsLine e.line (toJson s) s := by
  have hcomments := isThinned_stripComments s
  have hboth := (isThinned_stripTrailingCommas _).trans hcomments
  refine ⟨hcomments.2, hboth.2, hcomments.forall₂_lines, hboth.forall₂_lines, fun e h => ?_,
    fun e h => ?_⟩
  · obtain ⟨hfirst, hlast⟩ := (Json.careful_readValue _).line h
    exact hboth.keepsLine hfirst hlast
  · simp only [Declared.parse] at h
    split at h
    · cases h
    · obtain ⟨hfirst, hlast⟩ := (Declared.careful_read {}).line h
      exact (isThinned_toJson s).keepsLine hfirst hlast

/-- A config with a comment over two lines, and no colon after a key on the second of these. -/
def brokenConfig : String :=
  "// broken\n\x7b\"compilerOptions\": \x7b /* base\n   directory */ \"baseUrl\" \".\",\n\x7d,\x7d"

/-- The missing colon is reported on the third line, whose rest is read. -/
theorem lines_stripped_brokenConfig :
    Json.Value.parse (stripTrailingCommas (stripComments brokenConfig.toList)) =
        .error ⟨.malformed, 3⟩ ∧
      KeepsLine 3 (stripTrailingCommas (stripComments brokenConfig.toList)) brokenConfig.toList ∧
      Declared.parse brokenConfig.toList = .error ⟨.malformed, 3⟩ ∧
      KeepsLine 3 (toJson brokenConfig.toList) brokenConfig.toList := by
  obtain ⟨-, -, -, -, hvalue, hconfig⟩ := lines_stripped brokenConfig.toList
  -- Whether values are equal is not decided, so the value is left out.
  have hmalformed : (Json.Value.parse (stripTrailingCommas
      (stripComments brokenConfig.toList))).map (fun _ => ()) = .error ⟨.malformed, 3⟩ := by
    decide +kernel
  rw [map_eq_error_iff] at hmalformed
  have hbroken : Declared.parse brokenConfig.toList = .error ⟨.malformed, 3⟩ := by decide +kernel
  exact ⟨hmalformed, hvalue _ hmalformed, hbroken, hconfig _ hbroken⟩

end Jsonc

end ModuleMap
