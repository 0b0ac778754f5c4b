import ModuleMap.Proofs.Mapping.Selection

/-!
# Options that make a mapper

Three things are looked at one after the other: whether there are entries at all, whether there is
a base directory, and the keys in the order in which they are declared.  So options without entries
make a mapper whatever else they say, and options without a base directory fail for that reason even
if their keys are wrong, too.  Where nothing fails, nothing is lost: the entries can be read off the
mapper.

* `MappingOptions.LacksBase`: options whose outputs could not be joined to anything.
* `Mapper.ofOptions_eq_error_iff`: which options fail, and why.
* `Mapper.ofOptions_spec`: all of this, and the mapper that is made.
-/

namespace ModuleMap

/-- No base directory is given, or one that is the empty path. -/
def MappingOptions.LacksBase (o : MappingOptions) : Prop :=
  o.baseUrl = none ∨ o.baseUrl = some .empty

theorem MappingOptions.filter_baseUrl_eq_none_iff {o : MappingOptions} :
    o.baseUrl.filter (· ≠ .empty) = none ↔ o.LacksBase := by
  unfold LacksBase
  cases o.baseUrl <;> simp [Option.filter]

/-- No rule is made of an entry whose key has more than one star. -/
theorem Rule.ofEntry_eq_error_iff {e : String × List String} {f : Fault} :
    ofEntry e = .error f ↔ 2 ≤ e.1.toList.count '*' ∧ f = .twoWildcards e.1 := by
  rw [← Pattern.parse_eq_error_iff, ofEntry]
  cases Pattern.parse e.1 <;> simp [bind, Except.bind, pure, Except.pure]

namespace Mapper

/-- Options make no mapper if they have entries, and either no base directory or a key with more
than one star.  The base directory is looked at before the keys, and these in their order. -/
theorem ofOptions_eq_error_iff {o : MappingOptions} {f : Fault} :
    ofOptions o = .error f ↔
      o.paths.getD [] ≠ [] ∧
        (o.LacksBase ∧ f = .baseUrlRequired ∨
          ¬o.LacksBase ∧ ∃ e, (o.paths.getD []).find? (2 ≤ ·.1.toList.count '*') = some e ∧
            f = .twoWildcards e.1) := by
  rw [← MappingOptions.filter_baseUrl_eq_none_iff]
  unfold ofOptions
  rcases o.paths.getD [] with _ | ⟨e, entries⟩
  · simp
  · rw [and_iff_right (List.cons_ne_nil e entries)]
    cases o.baseUrl.filter (· ≠ .empty) with
    | none => simp [eq_comm]
    | some base =>
      have hentries : (e :: entries).mapM Rule.ofEntry = .error f ↔
          ∃ e', (e :: entries).find? (2 ≤ ·.1.toList.count '*') = some e' ∧
            f = .twoWildcards e'.1 :=
        mapM_eq_error_iff_find? fun e' f' => by
          rw [Rule.ofEntry_eq_error_iff, decide_eq_true_iff]
      rw [← hentries]
      dsimp only
      generalize (e :: entries).mapM Rule.ofEntry = parsed
      cases parsed <;> simp [bind, Except.bind, pure, Except.pure]

/-- Options fail if there are entries, and either no base directory or some key with more than one
star. -/
theorem exists_ofOptions_eq_error_iff {o : MappingOptions} :
    (∃ f, ofOptions o = .error f) ↔
      o.paths.getD [] ≠ [] ∧ (o.LacksBase ∨ ∃ e ∈ o.paths.getD [], 2 ≤ e.1.toList.count '*') := by
  simp only [ofOptions_eq_error_iff]
  constructor
  · rintro ⟨f, hne, ⟨hbase, -⟩ | ⟨-, e, he, -⟩⟩
    · exact ⟨hne, Or.inl hbase⟩
    · have hkey := List.find?_some he
      exact ⟨hne, Or.inr ⟨e, List.mem_of_find?_eq_some he, of_decide_eq_true hkey⟩⟩
  · rintro ⟨hne, hfails⟩
    by_cases hbase : o.LacksBase
    · exact ⟨.baseUrlRequired, hne, Or.inl ⟨hbase, rfl⟩⟩
    · obtain ⟨e, he, hkey⟩ := hfails.resolve_left hbase
      have hfound : ((o.paths.getD []).find? (2 ≤ ·.1.toList.count '*')).isSome :=
        List.find?_isSome.mpr ⟨e, he, decide_eq_true hkey⟩
      obtain ⟨e', he'⟩ := Option.isSome_iff_exists.mp hfound
      exact ⟨_, hne, Or.inr ⟨hbase, e', he', rfl⟩⟩

/-- A mapper without rules maps nothing. -/
theorem map?_of_rules_eq_nil {m : Mapper} (h : m.rules = []) (s : String) : m.map? s = none := by
  have hbest : m.best? s = none := by
    rw [best?, h]
    rfl
  rw [map?, hbest]
  exact ite_self none

/-- **Options that make a mapper.**  Options fail if and only if they have entries, and either no
base directory or a key with more than one star; a missing base directory is reported first, and
else the first such key.  A mapper that is made of entries has their base directory, and its rules
are the entries one by one, each with the key that its pattern is parsed from.  Without entries
there is a mapper, and it maps nothing. -/
theorem ofOptions_spec (o : MappingOptions) :
    let entries := o.paths.getD []
    ((∃ f, ofOptions o = .error f) ↔
      entries ≠ [] ∧ (o.LacksBase ∨ ∃ e ∈ entries, 2 ≤ e.1.toList.count '*')) ∧
    (∀ f, ofOptions o = .error f →
      o.LacksBase ∧ f = .baseUrlRequired ∨
        ¬o.LacksBase ∧ ∃ e, entries.find? (2 ≤ ·.1.toList.count '*') = some e ∧
          f = .twoWildcards e.1) ∧
    (∀ m, ofOptions o = .ok m → entries ≠ [] →
      o.baseUrl = some m.baseDirectory ∧ m.rules.map Rule.entry = entries ∧
        ∀ r ∈ m.rules, Pattern.parse r.pattern.key = .ok r.pattern) ∧
    (entries = [] → ∃ m, ofOptions o = .ok m ∧ m.isEmpty = true ∧ ∀ s, m.map? s = none) := by
  refine ⟨exists_ofOptions_eq_error_iff, fun f hf => (ofOptions_eq_error_iff.mp hf).2,
    fun m hm hne => ?_, fun hnil => ?_⟩
  · obtain ⟨hrules, hparse⟩ := rules_of_ofOptions hm
    have hsome : m.rules ≠ [] := by
      intro hnil
      rw [hnil] at hrules
      exact hne hrules.symm
    exact ⟨baseUrl_of_ofOptions hm hsome, hrules, hparse⟩
  · exact ⟨{}, ofOptions_eq_ok_iff.mpr (Or.inl ⟨hnil, rfl⟩), rfl, map?_of_rules_eq_nil rfl⟩

/-- Three entries, two of which have the same key. -/
def repeatedKeys : MappingOptions where
  baseUrl := some (.ofText "src/")
  paths := some [("é*", ["./*"]), ("b", []), ("é*", ["*/*", ""])]

/-- Both entries of the repeated key have a rule.  Without the base directory, which is left as it
is spelled, nothing is said about a wrong key. -/
theorem ofOptions_spec_repeatedKeys :
    ∃ m, ofOptions repeatedKeys = .ok m ∧ repeatedKeys.paths.getD [] ≠ [] ∧
      m.baseDirectory = .ofText "src/" ∧
      m.rules.map Rule.entry = [("é*", ["./*"]), ("b", []), ("é*", ["*/*", ""])] ∧
      ofOptions { repeatedKeys.addPath "**" [] with baseUrl := some .empty } =
        .error .baseUrlRequired ∧
      ofOptions ((repeatedKeys.addPath "**" []).addPath "*b*" []) =
        .error (.twoWildcards "**") := by
  obtain ⟨m, hm⟩ : ∃ m, ofOptions repeatedKeys = .ok m := ⟨_, rfl⟩
  have hne : repeatedKeys.paths.getD [] ≠ [] := by decide
  obtain ⟨hbase, hrules, -⟩ := (ofOptions_spec repeatedKeys).2.2.1 m hm hne
  exact ⟨m, hm, hne, (Option.some_inj.mp hbase).symm, hrules, rfl, rfl⟩

end Mapper

end ModuleMap
