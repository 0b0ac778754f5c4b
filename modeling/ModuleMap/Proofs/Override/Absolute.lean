import ModuleMap.Proofs.FileTree.Files
import ModuleMap.Proofs.FirstFailure
import ModuleMap.Proofs.Format.Precedence
import ModuleMap.Proofs.Glob.Anchoring
import ModuleMap.Proofs.Path.Composition
import ModuleMap.Proofs.Text.Utf8
import ModuleMap.Proofs.Tsconfig.ModuleTypes

/-!
# Overrides are for absolute paths

The keys of overrides stand below the directory of the config that declares them.  That directory
has an absolute path, so each glob begins with a slash, and what does not begin with one matches
none of them.

* `Overrides.exists_anchored_eq`, `Overrides.lookup?_eq_none_of_compile`: globs below an absolute
  directory.
* `Tsconfig.anchoredLaws`, `Tsconfig.lookup?_eq_none_of_load`: the overrides of a loaded config.
-/

namespace ModuleMap

/-! ## Globs below an absolute directory -/

namespace Glob

/-- What is spelled with a slash before it matches only what has a slash before it. -/
theorem eq_cons_slash_of_accepts {cs text : List Char} {g : Glob} (hg : parse ('/' :: cs) = .ok g)
    (h : g.accepts text = true) : ∃ rest, text = '/' :: rest :=
  @exists_eq_append_of_accepts text [] cs g hg h

end Glob

namespace Overrides

theorem isPrefix_trimSlashes (cs : List Char) : trimSlashes cs <+: cs := by
  unfold trimSlashes
  rw [← List.reverse_suffix, List.reverse_reverse]
  exact List.dropWhile_suffix _

/-- A key below an absolute directory is spelled with a slash before it. -/
theorem exists_anchored_eq {base : Path} (hbase : base.isAbsolute = true) (key : String) :
    ∃ cs, anchored base key = '/' :: cs := by
  obtain ⟨bs, hbytes⟩ : ∃ bs, base.normalize.bytes = slash :: bs := by
    obtain ⟨bs, hbs⟩ :=
      Path.exists_eq_cons_slash (Path.anchor_eq_root_iff.mpr (Path.isAbsolute_normalize hbase))
    exact ⟨bs, congrArg Path.bytes hbs⟩
  have hdirectory : Glob.escape (Text.decodeLossy (slash :: bs)) =
      '/' :: Glob.escape (Text.decodeLossy bs) := rfl
  unfold anchored
  rw [hbytes, hdirectory]
  rcases List.prefix_cons_iff.mp (isPrefix_trimSlashes ('/' :: Glob.escape (Text.decodeLossy bs)))
    with hnil | ⟨cs, hcs, -⟩
  · rw [hnil]
    exact ⟨_, rfl⟩
  · rw [hcs]
    exact ⟨_, rfl⟩

theorem compileEntry_eq_ok_iff {base : Path} {entry : OverrideEntry} {glob : Glob}
    {kind : ModuleKind} :
    compileEntry base entry = .ok (glob, kind) ↔
      Glob.parse (anchored base entry.key) = .ok glob ∧ entry.kind = kind := by
  unfold compileEntry
  cases Glob.parse (anchored base entry.key) <;> simp

/-- Overrides are compiled entry by entry. -/
theorem exists_entry_of_compile {base : Path} {entries : List OverrideEntry} {o : Overrides}
    (ho : compile base entries = .ok o) {glob : Glob} {kind : ModuleKind}
    (hmem : (glob, kind) ∈ o.entries) :
    ∃ entry ∈ entries, Glob.parse (anchored base entry.key) = .ok glob ∧ entry.kind = kind := by
  unfold compile at ho
  cases hes : entries.mapM (compileEntry base) with
  | error f =>
    rw [hes] at ho
    cases ho
  | ok es =>
    rw [hes] at ho
    cases ho
    obtain ⟨entry, hentry, hcompiled⟩ := exists_of_mem_mapM hes hmem
    exact ⟨entry, hentry, compileEntry_eq_ok_iff.mp hcompiled⟩

/-- The overrides of an absolute directory match no relative path. -/
theorem lookup?_eq_none_of_compile {base p : Path} {entries : List OverrideEntry} {o : Overrides}
    (ho : compile base entries = .ok o) (hbase : entries = [] ∨ base.isAbsolute = true)
    (hp : p.isAbsolute = false) : o.lookup? p = none := by
  rw [Option.eq_none_iff_forall_ne_some]
  intro kind hkind
  obtain ⟨text, earlier, glob, later, htext, hsplit, hmatch, -⟩ := lookup?_eq_some_iff.mp hkind
  have hmem : (glob, kind) ∈ o.entries := by simp [hsplit]
  obtain ⟨entry, hentry, hglob, -⟩ := exists_entry_of_compile ho hmem
  have habsolute := hbase.resolve_left (List.ne_nil_of_mem hentry)
  -- The glob begins with a slash, and so do the text that it matches and the bytes of that.
  obtain ⟨cs, hanchored⟩ := exists_anchored_eq habsolute entry.key
  rw [hanchored] at hglob
  obtain ⟨rest, rfl⟩ := Glob.eq_cons_slash_of_accepts hglob hmatch
  have hslash : p.normalize.isAbsolute = true := by
    rw [Path.isAbsolute, Text.head?_of_decode? htext]
    rfl
  rw [Path.isAbsolute_normalize_eq, hp] at hslash
  cases hslash

end Overrides

namespace Tsconfig

/-- The module types of a config, if there are any, stand below an absolute directory. -/
def IsAnchored (c : Tsconfig) : Prop :=
  c.moduleTypes = [] ∨ c.moduleTypesBase.isAbsolute = true

theorem anchoredLaws :
    VisitLaws fun earlier vs c =>
      (∀ v ∈ vs, v.path.isAbsolute = true) → earlier.IsAnchored → c.IsAnchored where
  nil c := fun _ hc => hc
  append hvs hws := fun habsolute hearlier => by
    rw [List.forall_mem_append] at habsolute
    exact hws habsolute.2 (hvs habsolute.1 hearlier)
  inherit := by
    intro earlier later vs hlater habsolute hearlier
    have hlater' : later.IsAnchored := hlater habsolute (Or.inl rfl)
    unfold IsAnchored at hlater' hearlier ⊢
    by_cases hnil : later.moduleTypes = []
    · simpa [Tsconfig.inherit, hnil] using hearlier
    · simpa [Tsconfig.inherit, hnil] using hlater'
  declare := by
    intro inherited v habsolute hinherited
    unfold IsAnchored declare
    cases htypes : v.declared.moduleTypes with
    | none => exact hinherited
    | some entries =>
      have hpath := habsolute v (List.mem_singleton_self v)
      exact Or.inr (Path.isAbsolute_directory hpath)

theorem isAnchored_of_load {t : FileTree} {p : Path} {c : Tsconfig}
    (h : load t p = some (.ok c)) :
    c.IsAnchored := by
  obtain ⟨path, c, hpath, hload, rfl⟩ := load_eq_ok_iff.mp h
  obtain ⟨vs, hvs, hanchored⟩ := anchoredLaws.exists_postorder_of_loadChain hload
  have habsolute : ∀ q ∈ [path], q.isAbsolute = true := by
    intro q hq
    rw [List.mem_singleton.mp hq]
    exact (FileTree.isPlain_of_resolve hpath).isAbsolute
  exact hanchored (hvs.isAbsolute habsolute) (Or.inl rfl)

/-- The overrides of a loaded config match no relative path. -/
theorem lookup?_eq_none_of_load {t : FileTree} {p q : Path} {c : Tsconfig} {o : Overrides}
    (hc : load t p = some (.ok c)) (ho : c.overrides = .ok o) (hq : q.isAbsolute = false) :
    o.lookup? q = none :=
  Overrides.lookup?_eq_none_of_compile ho (isAnchored_of_load hc) hq

end Tsconfig

end ModuleMap
