import ModuleMap.Proofs.FileTree.NewFile
import ModuleMap.Proofs.Tsconfig.Agreement
import ModuleMap.Proofs.Tsconfig.Extended
import ModuleMap.Proofs.Tsconfig.Nearest

/-!
# What a config depends on

Finding and loading a config asks for one path after the other, and what is asked for next depends
on the answers.  Where a tree gives another answer only under paths that are never asked for, the
same config is found, and loading it comes to the same.

* `IsAsked`: what is asked where the first answer of a list is looked for.
* `FileTree.LooksForConfig`, `FileTree.LooksFor`, `Tsconfig.LooksAt`: the paths asked for when a
  config is looked for, when an `extends` value is, and when a config is loaded.
* `FileTree.nearestConfig?_congr`, `FileTree.extended_congr`, `Tsconfig.load_congr`: trees that
  answer alike under these paths.
-/

namespace ModuleMap

/-! ## Lists gone through for an answer -/

/-- An element of a list is asked if none of those before it has an answer. -/
def IsAsked {α β : Type} (answer : α → Option β) (as : List α) (a : α) : Prop :=
  ∃ before after, as = before ++ a :: after ∧ ∀ b ∈ before, answer b = none

/-- Only the answers of those that are asked matter. -/
theorem findSome?_congr_isAsked {α β : Type} {answer answer' : α → Option β} {as : List α}
    (h : ∀ a, IsAsked answer as a → answer' a = answer a) :
    as.findSome? answer' = as.findSome? answer := by
  induction as with
  | nil => rfl
  | cons a as ih =>
    have ha : answer' a = answer a := h a ⟨[], as, rfl, fun b hb => nomatch hb⟩
    rw [List.findSome?_cons, List.findSome?_cons, ha]
    cases hanswer : answer a with
    | some b => rfl
    | none =>
      refine ih fun b ⟨before, after, hsplit, hbefore⟩ => h b ⟨a :: before, after, ?_, ?_⟩
      · rw [hsplit, List.cons_append]
      · exact List.forall_mem_cons.mpr ⟨hanswer, hbefore⟩

/-! ## Finding configs -/

namespace FileTree

variable {t u : FileTree}

/-- The paths asked for when the nearest config is looked for. -/
def LooksForConfig (t : FileTree) (directory q : Path) : Prop :=
  ∃ d, IsAsked t.configIn? directory.ancestors d ∧ q = d.join configName

/-- The paths asked for when the config that an `extends` value names is looked for. -/
inductive LooksFor (t : FileTree) (directory : Path) (value : String) : Path → Prop
  /-- The value is a path of its own, which may lack an extension. -/
  | path (hvalue : isPathValue value = true) :
    LooksFor t directory value (directory.join (.ofText value)).normalize
  /-- In the packages of some directory there may be a directory of this name. -/
  | package {a : Path} (hvalue : isPathValue value = false)
      (ha : IsAsked (t.packageConfig? value) directory.ancestors a) :
    LooksFor t directory value (candidate a value)
  /-- If there is none, there may be a file. -/
  | file {a : Path} (hvalue : isPathValue value = false)
      (ha : IsAsked (t.packageConfig? value) directory.ancestors a)
      (hdirectory : t.isDirectory (candidate a value) = false) :
    LooksFor t directory value (t.withJson (candidate a value))

theorem nearestConfig?_congr {directory : Path}
    (h : ∀ q, t.LooksForConfig directory q → AnswersAlike t u q) :
    u.nearestConfig? directory = t.nearestConfig? directory := by
  unfold nearestConfig?
  rw [Path.nearest?_eq, Path.nearest?_eq]
  refine findSome?_congr_isAsked fun d hd => ?_
  rw [(h _ ⟨d, hd, rfl⟩).isFile]

theorem withJson_congr {p : Path} (h : AnswersAlike t u p) : u.withJson p = t.withJson p := by
  unfold withJson
  rw [h.isFile]

theorem packageConfig?_congr {value : String} {a : Path}
    (hpackage : AnswersAlike t u (candidate a value))
    (hfile : t.isDirectory (candidate a value) = false →
      AnswersAlike t u (t.withJson (candidate a value))) :
    u.packageConfig? value a = t.packageConfig? value a := by
  rw [packageConfig?_eq, packageConfig?_eq, withJson_congr hpackage, ← hpackage.isDirectory]
  cases hdirectory : t.isDirectory (candidate a value) with
  | true => rfl
  | false => rw [(hfile hdirectory).isFile]

theorem extended_congr {directory : Path} {value : String}
    (h : ∀ q, t.LooksFor directory value q → AnswersAlike t u q) :
    u.extended directory value = t.extended directory value := by
  cases hvalue : isPathValue value with
  | true =>
    rw [extended, extended, hvalue, if_pos rfl, if_pos rfl]
    exact withJson_congr (h _ (.path hvalue))
  | false =>
    rw [extended_of_isPathValue_eq_false u directory hvalue,
      extended_of_isPathValue_eq_false t directory hvalue]
    congr 1
    refine findSome?_congr_isAsked fun a ha => ?_
    exact packageConfig?_congr (h _ (.package hvalue ha))
      fun hdirectory => h _ (.file hvalue ha hdirectory)

end FileTree

/-! ## Loading -/

namespace Tsconfig

variable {t u : FileTree}

/-- The paths asked for when the config at a path is loaded, where `chain` holds the keys of the
configs that are being loaded.  What a value stands for is looked for only if all before it are
loaded. -/
inductive LooksAt (t : FileTree) : List Path.Key → Path → Path → Prop
  /-- The config itself. -/
  | config {chain : List Path.Key} {p : Path} (hp : p.key ∉ chain) : LooksAt t chain p p
  /-- Where a value that it extends leads to. -/
  | value {chain : List Path.Key} {p q : Path} {d : Declared} {earlier later : List String}
      {value : String} (hvisit : visit t chain p = .ok d)
      (hsplit : d.bases = earlier ++ value :: later)
      (hearlier : ∀ e ∈ earlier, IsLoaded t (p.key :: chain) p.directory e)
      (hq : t.LooksFor p.directory value q) : LooksAt t chain p q
  /-- What it extends. -/
  | base {chain : List Path.Key} {p q : Path} {d : Declared} {earlier later : List String}
      {value : String} (hvisit : visit t chain p = .ok d)
      (hsplit : d.bases = earlier ++ value :: later)
      (hearlier : ∀ e ∈ earlier, IsLoaded t (p.key :: chain) p.directory e)
      (hq : LooksAt t (p.key :: chain) (t.extended p.directory value) q) : LooksAt t chain p q

/-- A config that can be visited in one tree can be visited in the other. -/
theorem visit_congr {chain : List Path.Key} {p : Path} {d : Declared}
    (h : p.key ∉ chain → FileTree.AnswersAlike t u p) :
    visit t chain p = .ok d ↔ visit u chain p = .ok d := by
  rw [visit_eq_ok_iff, visit_eq_ok_iff]
  refine and_congr_right fun hp => ?_
  rw [Declared.load_eq_ok_iff, Declared.load_eq_ok_iff]
  exact exists_congr fun text => and_congr_left' ((h hp).readLossy text)

/-- Trees that answer alike under the paths asked for load alike. -/
theorem load_congr {p : Path} (hresolve : u.resolve p = t.resolve p)
    (h : ∀ path, t.resolve p = .ok path →
      ∀ q, LooksAt t [] path q → FileTree.AnswersAlike t u q) :
    ending (load t p) = ending (load u p) := by
  refine ending_load hresolve fun path hpath => ?_
  refine ending_loadChain (I := fun chain p => ∀ q, LooksAt t chain p q →
    FileTree.AnswersAlike t u q) (fun chain p hI d => ?_) ?_ (h path hpath)
  · exact visit_congr fun hp => hI p (.config hp)
  · intro chain p d earlier value later hI hvisit hsplit hearlier
    exact ⟨FileTree.extended_congr fun q hq => hI q (.value hvisit hsplit hearlier hq),
      fun q hq => hI q (.base hvisit hsplit hearlier hq)⟩

end Tsconfig

end ModuleMap
