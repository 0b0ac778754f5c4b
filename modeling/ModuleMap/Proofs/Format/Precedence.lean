import Mathlib.Data.List.TakeDrop
import Mathlib.Data.List.TakeWhile
import ModuleMap.Proofs.Scope.Session

/-!
# The order of precedence

Three things can settle the format of a file: an override, its extension, and the manifest of its
package scope.  Each is asked only if the ones before it leave the format open, and the manifest
only under the rules of package scopes; so where an override or the extension decides, nothing is
read, and a manifest that cannot be parsed does no harm.

* `Overrides.IsLastMatch`: the override that counts, with `Overrides.lookup?_eq_some_iff`.
* `Path.HasExtension`: what an extension is, with `Path.extension?_eq_some_iff`.
* `FileTree.IsModuleScope`: when a scope makes its files ES modules.
* `ModuleFormat.Prescribed`: the rules, in the order of their precedence.
* `ModuleFormat.resolve_after`: a format resolved after any calls is the one prescribed.
-/

namespace ModuleMap

/-! ## Overrides -/

namespace Overrides

/-- Of the entries whose globs match the normal form of a path, the last one is of this kind. -/
def IsLastMatch (o : Overrides) (p : Path) (kind : ModuleKind) : Prop :=
  ∃ text earlier glob later, Text.decode? p.normalize.bytes = some text ∧
    o.entries = earlier ++ (glob, kind) :: later ∧ glob.accepts text = true ∧
    ∀ entry ∈ later, Glob.accepts entry.1 text = false

theorem lookup?_eq_some_iff {o : Overrides} {p : Path} {kind : ModuleKind} :
    o.lookup? p = some kind ↔ o.IsLastMatch p kind := by
  unfold lookup? IsLastMatch
  cases htext : Text.decode? p.normalize.bytes with
  | none => simp
  | some text =>
    simp only [Option.bind_eq_bind, Option.bind_some, Option.some.injEq, Option.pure_def,
      Option.bind_eq_some_iff, List.find?_eq_some_iff_append, Glob.matchesText_eq]
    constructor
    · rintro ⟨⟨glob, kind⟩, ⟨hmatch, before, after, hsplit, hbefore⟩, rfl⟩
      refine ⟨text, after.reverse, glob, before.reverse, rfl, ?_, hmatch, fun entry hentry => ?_⟩
      · rw [← List.reverse_reverse o.entries, hsplit]
        simp
      · simpa using hbefore entry (List.mem_reverse.mp hentry)
    · rintro ⟨text', earlier, glob, later, rfl, hsplit, hmatch, hlater⟩
      refine ⟨(glob, kind),
        ⟨hmatch, later.reverse, earlier.reverse, ?_, fun entry hentry => ?_⟩, rfl⟩
      · rw [hsplit]
        simp
      · simpa using hlater entry (List.mem_reverse.mp hentry)

end Overrides

/-! ## Extensions -/

/-- A list is cut before the first of its elements that is `a`. -/
theorem span_ne_eq_iff {α : Type} [DecidableEq α] {a b : α} {l first rest : List α} :
    l.span (· ≠ a) = (first, b :: rest) ↔ b = a ∧ a ∉ first ∧ l = first ++ b :: rest := by
  rw [List.span_eq_takeWhile_dropWhile]
  constructor
  · intro h
    obtain ⟨rfl, hrest⟩ := Prod.mk.inj h
    have hhead := List.head?_dropWhile_not (· ≠ a) l
    rw [hrest] at hhead
    refine ⟨by simpa using hhead, fun hmem => ?_, ?_⟩
    · simpa using List.mem_takeWhile_imp hmem
    · rw [← hrest, List.takeWhile_append_dropWhile]
  · rintro ⟨rfl, hfree, rfl⟩
    have hne : ∀ c ∈ first, decide (c ≠ b) = true := by
      intro c hc
      rw [decide_eq_true_eq]
      rintro rfl
      exact hfree hc
    rw [List.takeWhile_append_of_pos hne, List.dropWhile_append_of_pos hne,
      List.takeWhile_cons_of_neg (by simp), List.dropWhile_cons_of_neg (by simp), List.append_nil]

namespace Path

/-- The file name of a path is not empty before its last dot, and this stands after it. -/
def HasExtension (p : Path) (ext : Segment) : Prop :=
  ∃ stem ≠ [], dot ∉ ext ∧ p.fileName? = some (stem ++ dot :: ext)

theorem extension?_eq_some_iff {p : Path} {ext : Segment} :
    p.extension? = some ext ↔ p.HasExtension ext := by
  unfold extension? HasExtension
  rw [Option.bind_eq_some_iff]
  constructor
  · rintro ⟨name, hname, hext⟩
    split at hext
    · cases hext
    · cases hext
    · next reversed d b rest hspan =>
      cases hext
      obtain ⟨rfl, hfree, hsplit⟩ := span_ne_eq_iff.mp hspan
      refine ⟨(b :: rest).reverse, by simp, fun hmem => hfree (List.mem_reverse.mp hmem), ?_⟩
      rw [hname, ← List.reverse_reverse name, hsplit]
      simp
  · rintro ⟨stem, hstem, hext, hname⟩
    obtain ⟨b, rest, hrest⟩ := List.exists_cons_of_ne_nil (List.reverse_ne_nil_iff.mpr hstem)
    have hsplit : (stem ++ dot :: ext).reverse = ext.reverse ++ dot :: b :: rest := by
      rw [List.reverse_append, hrest]
      simp
    have hspan := span_ne_eq_iff.mpr
      ⟨rfl, fun hmem => hext (List.mem_reverse.mp hmem), hsplit⟩
    refine ⟨_, hname, ?_⟩
    simp only [hspan, List.reverse_reverse]

end Path

/-! ## Scopes -/

theorem Manifest.isModule_ofValue_iff {v : Json.Value} :
    (ofValue v).isModule = true ↔ v.get? "type" = some (.string "module") := by
  have hstring : ∀ w : Json.Value, w.string? = some "module" ↔ w = .string "module" := by
    intro w
    cases w <;> simp [Json.Value.string?]
  rw [isModule, ofValue]
  cases htype : v.get? "type" with
  | none => simp
  | some w =>
    rw [Option.some.injEq, ← hstring w, Option.bind_some]
    split
    · next h => simp [h]
    · next h => simp [h]
    · next h _ => simpa using h

namespace FileTree

variable {t : FileTree}

/-- The manifest of a scope, as it is in the tree, has the `type` of ES modules. -/
def IsModuleScope (t : FileTree) (s : PackageScope) : Prop :=
  ∃ text v, t.readText s.manifestPath = .ok text ∧ Json.Value.parse text = .ok v ∧
    v.get? "type" = some (.string "module")

/-- A walk that ends with a scope has read its manifest. -/
theorem manifest_of_scopeAt? {d : Path} {s : PackageScope}
    (h : t.scopeAt? d = some (.ok (some s))) :
    ∃ text v, t.readText s.manifestPath = .ok text ∧ Json.Value.parse text = .ok v ∧
      s.manifest = .ofValue v := by
  unfold scopeAt? at h
  split at h
  · cases h
  · split at h
    · cases h
    · cases h
    · next text htext =>
      split at h
      · cases h
      · next v hv =>
        cases h
        exact ⟨text, v, htext, hv, rfl⟩

/-- What a scope that is found says of its files is what its manifest in the tree says. -/
theorem isModule_iff_of_scopeOf {p : Path} {s : PackageScope} (h : t.scopeOf p = .ok (some s)) :
    s.manifest.isModule = true ↔ t.IsModuleScope s := by
  obtain ⟨d, hd⟩ : ∃ d, t.scopeAt? d = some (.ok (some s)) := by
    unfold scopeOf at h
    split at h
    · next start hstart =>
      unfold scopeAmong at h
      cases hfind : start.enclosing.findSome? t.scopeAt? with
      | none =>
        rw [hfind] at h
        cases h
      | some answer =>
        rw [hfind] at h
        cases h
        obtain ⟨d, -, hd⟩ := List.exists_of_findSome?_eq_some hfind
        exact ⟨d, hd⟩
    · cases h
  obtain ⟨text, v, htext, hv, hs⟩ := manifest_of_scopeAt? hd
  rw [hs, Manifest.isModule_ofValue_iff]
  constructor
  · intro htype
    exact ⟨text, v, htext, hv, htype⟩
  · rintro ⟨text', v', htext', hv', htype⟩
    cases htext.symm.trans htext'
    cases hv.symm.trans hv'
    exact htype

end FileTree

/-! ## The rules -/

namespace ModuleFormat

variable {t : FileTree} {o : Overrides} {p : Path} {packageScoped : Bool}

/-- An override forces CommonJS or ES modules. -/
def IsForced (o : Overrides) (p : Path) : Prop :=
  o.IsLastMatch p .cjs ∨ o.IsLastMatch p .esm

/-- The extension is one of those that decide. -/
def HasDecidingExtension (p : Path) : Prop :=
  ∃ ext, p.HasExtension ext ∧ (ext ∈ commonjsExtensions ∨ ext ∈ ecmaExtensions)

/-- The format is left to the package scope. -/
def NeedsScope (o : Overrides) (p : Path) (packageScoped : Bool) : Prop :=
  ¬ IsForced o p ∧ ¬ HasDecidingExtension p ∧ packageScoped = true

/-- The rules for the format of a file, in the order of their precedence. -/
inductive Prescribed (t : FileTree) (o : Overrides) (p : Path) (packageScoped : Bool) :
    Except Fault ModuleFormat → Prop
  /-- An override forces CommonJS. -/
  | forcedCjs (h : o.IsLastMatch p .cjs) :
    Prescribed t o p packageScoped (.ok (if packageScoped then nodeCjs else cjs))
  /-- An override forces ES modules. -/
  | forcedEsm (h : o.IsLastMatch p .esm) :
    Prescribed t o p packageScoped (.ok (if packageScoped then nodeEsm else esm))
  /-- The extension is one of CommonJS files. -/
  | cjsExtension {ext : Segment} (ho : ¬ IsForced o p) (h : p.HasExtension ext)
      (hext : ext ∈ commonjsExtensions) :
    Prescribed t o p packageScoped (.ok (if packageScoped then nodeCjs else cjs))
  /-- The extension is one of ES modules. -/
  | esmExtension {ext : Segment} (ho : ¬ IsForced o p) (h : p.HasExtension ext)
      (hext : ext ∈ ecmaExtensions) :
    Prescribed t o p packageScoped (.ok (if packageScoped then nodeEsm else esm))
  /-- Without the rules of package scopes the format stays open. -/
  | unscoped (ho : ¬ IsForced o p) (hp : ¬ HasDecidingExtension p) (hflag : packageScoped = false) :
    Prescribed t o p packageScoped (.ok unspecified)
  /-- The package scope is one of ES modules. -/
  | moduleScope {s : PackageScope} (hneeds : NeedsScope o p packageScoped)
      (h : t.scopeOf p = .ok (some s)) (hs : t.IsModuleScope s) :
    Prescribed t o p packageScoped (.ok nodeEsm)
  /-- There is no package scope, or none of ES modules. -/
  | otherScope {found : Option PackageScope} (hneeds : NeedsScope o p packageScoped)
      (h : t.scopeOf p = .ok found) (hfound : ∀ s ∈ found, ¬ t.IsModuleScope s) :
    Prescribed t o p packageScoped (.ok nodeCjs)
  /-- The package scope cannot be found out. -/
  | fault {f : Fault} (hneeds : NeedsScope o p packageScoped) (h : t.scopeOf p = .error f) :
    Prescribed t o p packageScoped (.error f)

/-- Any other extension leaves the format to the package scope, or open. -/
theorem ofExtension?_of_not_hasDecidingExtension (h : ¬ HasDecidingExtension p) :
    ofExtension? p packageScoped = if packageScoped then none else some unspecified := by
  unfold ofExtension?
  cases hext : p.extension? with
  | none => rfl
  | some ext =>
    have hother : ¬ (ext ∈ commonjsExtensions ∨ ext ∈ ecmaExtensions) := fun hmem =>
      h ⟨ext, Path.extension?_eq_some_iff.mp hext, hmem⟩
    rw [not_or] at hother
    simp only [hother.1, hother.2, if_false]

theorem ofExtension?_of_hasExtension {ext : Segment} (h : p.HasExtension ext) :
    (ext ∈ commonjsExtensions → ofExtension? p packageScoped = some (commonjs packageScoped)) ∧
      (ext ∈ ecmaExtensions → ofExtension? p packageScoped = some (ecma packageScoped)) := by
  have hapart : ∀ ext ∈ ecmaExtensions, ext ∉ commonjsExtensions := by decide
  rw [ofExtension?, Path.extension?_eq_some_iff.mpr h]
  refine ⟨fun hext => ?_, fun hext => ?_⟩
  · simp only [hext, if_true]
  · simp only [hext, hapart ext hext, if_true, if_false]

theorem ofExtension?_eq_none_iff :
    ofExtension? p packageScoped = none ↔ ¬ HasDecidingExtension p ∧ packageScoped = true := by
  by_cases hp : HasDecidingExtension p
  · refine iff_of_false ?_ fun h => h.1 hp
    obtain ⟨ext, hext, hcjs | hesm⟩ := hp
    · rw [(ofExtension?_of_hasExtension hext).1 hcjs]
      exact Option.some_ne_none _
    · rw [(ofExtension?_of_hasExtension hext).2 hesm]
      exact Option.some_ne_none _
  · rw [ofExtension?_of_not_hasDecidingExtension hp]
    cases packageScoped <;> simp [hp]

/-- An override that forces no kind counts for nothing. -/
theorem resolve_of_not_isForced (ho : ¬ IsForced o p) (t : FileTree) (c : ScopeCache) :
    resolve t o c p packageScoped = classify t c p packageScoped := by
  unfold resolve
  rw [IsForced, ← Overrides.lookup?_eq_some_iff, ← Overrides.lookup?_eq_some_iff, not_or] at ho
  split
  · next h => exact absurd h ho.1
  · next h => exact absurd h ho.2
  · rfl
  · rfl

/-- Where the format is left to the package scope, a cache that agrees with the tree gives what the
manifest of this says. -/
theorem resolve_fst_of_needsScope {c : ScopeCache} (h : NeedsScope o p packageScoped)
    (hc : c.Coherent t) :
    (resolve t o c p packageScoped).1 =
      (t.scopeOf p).map fun scope =>
        if scope.any (·.manifest.isModule) then nodeEsm else nodeCjs := by
  obtain ⟨ho, hp, rfl⟩ := h
  rw [resolve_of_not_isForced ho, hc.classify_eq_formatOf, FileTree.formatOf,
    ofExtension?_of_not_hasDecidingExtension hp]
  rfl

/-- A cache that agrees with the tree gives the answer that is prescribed. -/
theorem Prescribed.resolve_fst {r : Except Fault ModuleFormat} {c : ScopeCache}
    (h : Prescribed t o p packageScoped r) (hc : c.Coherent t) :
    (resolve t o c p packageScoped).1 = r := by
  cases h with
  | forcedCjs h => rw [resolve, Overrides.lookup?_eq_some_iff.mpr h, commonjs]
  | forcedEsm h => rw [resolve, Overrides.lookup?_eq_some_iff.mpr h, ecma]
  | cjsExtension ho h hext =>
    rw [resolve_of_not_isForced ho, classify, (ofExtension?_of_hasExtension h).1 hext, commonjs]
  | esmExtension ho h hext =>
    rw [resolve_of_not_isForced ho, classify, (ofExtension?_of_hasExtension h).2 hext, ecma]
  | unscoped ho hp hflag =>
    subst hflag
    rw [resolve_of_not_isForced ho, classify, ofExtension?_of_not_hasDecidingExtension hp]
    rfl
  | moduleScope hneeds h hs =>
    rw [resolve_fst_of_needsScope hneeds hc, h, Except.map, Option.any_some,
      if_pos ((FileTree.isModule_iff_of_scopeOf h).mpr hs)]
  | @otherScope found hneeds h hfound =>
    rw [resolve_fst_of_needsScope hneeds hc, h, Except.map]
    cases found with
    | none => rfl
    | some s =>
      have hother : ¬ s.manifest.isModule = true := fun hmodule =>
        hfound s rfl ((FileTree.isModule_iff_of_scopeOf h).mp hmodule)
      rw [Option.any_some, if_neg hother]
  | fault hneeds h => rw [resolve_fst_of_needsScope hneeds hc, h, Except.map]

end ModuleFormat

end ModuleMap
