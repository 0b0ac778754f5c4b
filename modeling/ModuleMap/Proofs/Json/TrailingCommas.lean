import ModuleMap.Proofs.Json.Grammar

/-!
# Commas before closing brackets

A comma is taken for a trailing one if a closing bracket comes after it; what comes before it is not
looked at.  So more is forgiven than a comma after the last item or member: there may also be a
comma in an array or object that has none.  That is all, since any other comma before a closing
bracket, if it is taken away, leaves one behind that JSON does not have.

* `Json.closesFirst`, `Json.dropTrailing`: a comma is trailing if a closing bracket comes after it.
* `Json.Forgives`: the lexemes that are those of a value without such commas, with
  `Json.forgives_iff`.
* `Json.HasLoneComma`, `Json.relaxes_iff`: commas after an opening bracket are the only difference
  to JSON with trailing commas.
-/

namespace ModuleMap.Json

/-! ## Taking commas away -/

/-- The lexemes that open an object or an array. -/
def openers : List Lexeme := [['\x7b'], ['[']]

/-- The lexemes that close an object or an array. -/
def closers : List Lexeme := [['\x7d'], [']']]

/-- Whether the next lexeme closes an object or an array. -/
def closesFirst (ls : List Lexeme) : Bool :=
  ls.head?.any (· ∈ closers)

/-- The lexemes without the commas that are trailing. -/
def dropTrailing : List Lexeme → List Lexeme
  | [] => []
  | l :: ls =>
    if l = [','] ∧ closesFirst ls = true then dropTrailing ls else l :: dropTrailing ls

@[simp] theorem dropTrailing_nil : dropTrailing [] = [] := rfl

theorem dropTrailing_comma (ls : List Lexeme) :
    dropTrailing ([','] :: ls) =
      if closesFirst ls = true then dropTrailing ls else [','] :: dropTrailing ls := by
  rw [dropTrailing]
  simp

theorem dropTrailing_cons_of_ne {l : Lexeme} (h : l ≠ [',']) (ls : List Lexeme) :
    dropTrailing (l :: ls) = l :: dropTrailing ls := by
  rw [dropTrailing, if_neg fun hcomma => h hcomma.1]

theorem dropTrailing_sublist (ls : List Lexeme) : List.Sublist (dropTrailing ls) ls := by
  induction ls with
  | nil => exact .slnil
  | cons l ls ih =>
    rw [dropTrailing]
    split
    · exact ih.cons l
    · exact ih.cons_cons l

theorem ne_comma_of_mem_closers {l : Lexeme} (h : l ∈ closers) : l ≠ [','] := by
  have hall : ∀ l ∈ closers, l ≠ [','] := by decide
  exact hall l h

/-- Only commas are taken away, and these are lexemes. -/
theorem isLexeme_of_dropTrailing {ls : List Lexeme} (h : ∀ l ∈ dropTrailing ls, IsLexeme l) :
    ∀ l ∈ ls, IsLexeme l := by
  induction ls with
  | nil => simp
  | cons l ls ih =>
    rw [dropTrailing] at h
    rw [List.forall_mem_cons]
    split at h
    · next hcomma => exact ⟨hcomma.1 ▸ .mark (by decide), ih h⟩
    · rw [List.forall_mem_cons] at h
      exact ⟨h.1, ih h.2⟩

variable {ls rest : List Lexeme} {l : Lexeme}

/-- Before a lexeme that is kept there is no other, or a comma that was taken away. -/
theorem exists_of_dropTrailing_eq_cons (h : dropTrailing ls = l :: rest) :
    ∃ commas ls', ls = commas ++ l :: ls' ∧ dropTrailing ls' = rest ∧
      (commas = [] ∨ commas = [[',']] ∧ l ∈ closers) := by
  rcases ls with _ | ⟨m, ls⟩
  · cases h
  rw [dropTrailing] at h
  split at h
  · next hcomma =>
    obtain ⟨rfl, hcloses⟩ := hcomma
    rcases ls with _ | ⟨c, ls⟩
    · cases h
    have hc : c ∈ closers := by simpa [closesFirst] using hcloses
    rw [dropTrailing_cons_of_ne (ne_comma_of_mem_closers hc)] at h
    obtain ⟨rfl, rfl⟩ := List.cons.inj h
    exact ⟨[[',']], ls, rfl, rfl, Or.inr ⟨rfl, hc⟩⟩
  · obtain ⟨rfl, rfl⟩ := List.cons.inj h
    exact ⟨[], ls, rfl, rfl, Or.inl rfl⟩

/-- A lexeme that closes nothing is kept with nothing before it. -/
theorem exists_of_dropTrailing_eq_cons_of_notMem (hl : l ∉ closers)
    (h : dropTrailing ls = l :: rest) : ∃ ls', ls = l :: ls' ∧ dropTrailing ls' = rest := by
  obtain ⟨commas, ls', rfl, hls', rfl | ⟨-, hcloses⟩⟩ := exists_of_dropTrailing_eq_cons h
  · exact ⟨ls', rfl, hls'⟩
  · exact absurd hcloses hl

theorem eq_nil_of_dropTrailing_eq_nil (h : dropTrailing ls = []) : ls = [] := by
  rcases ls with _ | ⟨l, ls⟩
  · rfl
  rw [dropTrailing] at h
  split at h
  · next hcomma =>
    rcases ls with _ | ⟨c, ls⟩
    · cases hcomma.2
    have hc : c ∈ closers := by simpa [closesFirst] using hcomma.2
    rw [dropTrailing_cons_of_ne (ne_comma_of_mem_closers hc)] at h
    cases h
  · cases h

/-! ## What is forgiven -/

/-- The lexemes of a part as JSON has them, and lexemes of which these are left when the commas
before closing brackets are taken away. -/
inductive Forgives : Part → List Lexeme → List Lexeme → Prop
  | scalar {l : Lexeme} (h : IsScalar l) : Forgives .value [l] [l]
  | emptyArray {commas : List Lexeme} (hcommas : commas = [] ∨ commas = [[',']]) :
      Forgives .value [['['], [']']] (['['] :: (commas ++ [[']']]))
  | array {xs ys commas : List Lexeme} (h : Forgives .items xs ys)
      (hcommas : commas = [] ∨ commas = [[',']]) :
      Forgives .value (['['] :: (xs ++ [[']']])) (['['] :: (ys ++ (commas ++ [[']']])))
  | emptyObject {commas : List Lexeme} (hcommas : commas = [] ∨ commas = [[',']]) :
      Forgives .value [['\x7b'], ['\x7d']] (['\x7b'] :: (commas ++ [['\x7d']]))
  | object {xs ys commas : List Lexeme} (h : Forgives .members xs ys)
      (hcommas : commas = [] ∨ commas = [[',']]) :
      Forgives .value (['\x7b'] :: (xs ++ [['\x7d']])) (['\x7b'] :: (ys ++ (commas ++ [['\x7d']])))
  | item {xs ys : List Lexeme} (h : Forgives .value xs ys) : Forgives .items xs ys
  | moreItems {xs ys xs' ys' : List Lexeme} (h : Forgives .value xs ys)
      (h' : Forgives .items xs' ys') : Forgives .items (xs ++ [','] :: xs') (ys ++ [','] :: ys')
  | member {key : Lexeme} {xs ys : List Lexeme} (hkey : IsString key) (h : Forgives .value xs ys) :
      Forgives .members (key :: [':'] :: xs) (key :: [':'] :: ys)
  | moreMembers {key : Lexeme} {xs ys xs' ys' : List Lexeme} (hkey : IsString key)
      (h : Forgives .value xs ys) (h' : Forgives .members xs' ys') :
      Forgives .members (key :: [':'] :: (xs ++ [','] :: xs'))
        (key :: [':'] :: (ys ++ [','] :: ys'))

/-- Trailing commas are forgiven. -/
theorem Relaxes.forgives {p : Part} {xs ys : List Lexeme} (h : Relaxes p xs ys) :
    Forgives p xs ys := by
  induction h with
  | scalar h => exact .scalar h
  | emptyArray => exact .emptyArray (Or.inl rfl)
  | array _ hcommas ih => exact .array ih hcommas
  | emptyObject => exact .emptyObject (Or.inl rfl)
  | object _ hcommas ih => exact .object ih hcommas
  | item _ ih => exact .item ih
  | moreItems _ _ ih ih' => exact .moreItems ih ih'
  | member hkey _ ih => exact .member hkey ih
  | moreMembers hkey _ _ ih ih' => exact .moreMembers hkey ih ih'

/-- What is left when commas are forgiven is JSON. -/
theorem Forgives.strict {p : Part} {xs ys : List Lexeme} (h : Forgives p xs ys) :
    Relaxes p xs xs := by
  induction h with
  | scalar h => exact .scalar h
  | emptyArray _ => exact .emptyArray
  | array _ _ ih => exact .array ih (Or.inl rfl)
  | emptyObject _ => exact .emptyObject
  | object _ _ ih => exact .object ih (Or.inl rfl)
  | item _ ih => exact .item ih
  | moreItems _ _ ih ih' => exact .moreItems ih ih'
  | member hkey _ ih => exact .member hkey ih
  | moreMembers hkey _ _ ih ih' => exact .moreMembers hkey ih ih'

/-- A part begins with a scalar or an opening bracket. -/
theorem Forgives.exists_cons {p : Part} {xs ys : List Lexeme} (h : Forgives p xs ys) :
    ∃ l ls, ys = l :: ls ∧ (IsScalar l ∨ l ∈ openers) := by
  induction h with
  | scalar h => exact ⟨_, [], rfl, Or.inl h⟩
  | emptyArray | array | emptyObject | object => exact ⟨_, _, rfl, Or.inr (by decide)⟩
  | item _ ih => exact ih
  | moreItems _ _ ih _ =>
    obtain ⟨l, ls, rfl, hl⟩ := ih
    exact ⟨l, _, rfl, hl⟩
  | member hkey _ _ | moreMembers hkey _ _ _ _ => exact ⟨_, _, rfl, Or.inl (.string hkey)⟩

theorem IsScalar.notMem_closers (h : IsScalar l) : l ∉ closers := by
  simp [closers, h.ne_mark (c := '\x7d') (by decide), h.ne_mark (c := ']') (by decide)]

theorem IsScalar.notMem_openers (h : IsScalar l) : l ∉ openers := by
  simp [openers, h.ne_mark (c := '\x7b') (by decide), h.ne_mark (c := '[') (by decide)]

/-- No part begins with a closing bracket. -/
theorem Forgives.closesFirst_append {p : Part} {xs ys : List Lexeme} (h : Forgives p xs ys)
    (rest : List Lexeme) : closesFirst (ys ++ rest) = false := by
  obtain ⟨l, ls, rfl, hl⟩ := h.exists_cons
  have hopeners : ∀ l ∈ openers, l ∉ closers := by decide
  exact decide_eq_false (hl.elim IsScalar.notMem_closers (hopeners l))

/-- A comma after the last item or member is trailing, whether it is there or not. -/
theorem dropTrailing_bracketed {o d : Char} (ho : o ≠ ',') (hd : [d] ∈ closers)
    {xs ys commas : List Lexeme} (hcommas : commas = [] ∨ commas = [[',']])
    (h : ∀ rest, dropTrailing (ys ++ rest) = xs ++ dropTrailing rest) (rest : List Lexeme) :
    dropTrailing ([o] :: (ys ++ (commas ++ [[d]])) ++ rest) =
      [o] :: (xs ++ [[d]]) ++ dropTrailing rest := by
  have hopen : [o] ≠ [','] := fun heq => ho (List.cons.inj heq).1
  have hdrop := dropTrailing_cons_of_ne (ne_comma_of_mem_closers hd) rest
  have hclose : dropTrailing (commas ++ [d] :: rest) = [d] :: dropTrailing rest := by
    rcases hcommas with rfl | rfl
    · exact hdrop
    · have hcloses : closesFirst ([d] :: rest) = true := by simpa [closesFirst] using hd
      rw [List.singleton_append, dropTrailing_comma, if_pos hcloses, hdrop]
  simp only [List.cons_append, List.append_assoc, List.nil_append, dropTrailing_cons_of_ne hopen, h,
    hclose]

/-- Without the commas that are forgiven a part is as JSON has it. -/
theorem Forgives.dropTrailing_append {p : Part} {xs ys : List Lexeme} (h : Forgives p xs ys)
    (rest : List Lexeme) : dropTrailing (ys ++ rest) = xs ++ dropTrailing rest := by
  have hstring : ∀ {key : Lexeme}, IsString key → key ≠ [','] :=
    fun hkey => (IsScalar.string hkey).ne_mark (by decide)
  have hempty : ∀ rest, dropTrailing ([] ++ rest) = [] ++ dropTrailing rest := fun _ => rfl
  induction h generalizing rest with
  | scalar h => exact dropTrailing_cons_of_ne (h.ne_mark (by decide)) rest
  | emptyArray hcommas | emptyObject hcommas =>
    exact dropTrailing_bracketed (by decide) (by decide) hcommas hempty rest
  | array _ hcommas ih | object _ hcommas ih =>
    exact dropTrailing_bracketed (by decide) (by decide) hcommas ih rest
  | item _ ih => exact ih rest
  | moreItems _ h' ih ih' =>
    have hnot : closesFirst _ ≠ true := Bool.eq_false_iff.mp (h'.closesFirst_append rest)
    rw [List.append_assoc, ih, List.cons_append, dropTrailing_comma, if_neg hnot, ih',
      List.append_assoc, List.cons_append]
  | member hkey _ ih =>
    rw [List.cons_append, List.cons_append, dropTrailing_cons_of_ne (hstring hkey),
      dropTrailing_cons_of_ne (by decide), ih]
    rfl
  | moreMembers hkey _ h' ih ih' =>
    have hnot : closesFirst _ ≠ true := Bool.eq_false_iff.mp (h'.closesFirst_append rest)
    rw [List.cons_append, List.cons_append, dropTrailing_cons_of_ne (hstring hkey),
      dropTrailing_cons_of_ne (by decide), List.append_assoc, ih, List.cons_append,
      dropTrailing_comma, if_neg hnot, ih', List.cons_append, List.cons_append, List.append_assoc,
      List.cons_append]

theorem Forgives.dropTrailing_eq {p : Part} {xs ys : List Lexeme} (h : Forgives p xs ys) :
    dropTrailing ys = xs := by
  simpa using h.dropTrailing_append []

/-- Of the lexemes that are left when commas are taken away, those of a part come from lexemes of
which the part is left. -/
theorem Relaxes.exists_forgives {p : Part} {xs zs : List Lexeme} (h : Relaxes p xs zs)
    {ys rest : List Lexeme} (hys : dropTrailing ys = xs ++ rest) :
    ∃ us ys', ys = us ++ ys' ∧ Forgives p xs us ∧ dropTrailing ys' = rest := by
  -- A closing bracket may have lost a comma, every other lexeme stands for itself.
  have hkept : ∀ {l : Lexeme} {ys rest : List Lexeme}, l ∉ closers → dropTrailing ys = l :: rest →
      ∃ ys', ys = l :: ys' ∧ dropTrailing ys' = rest := exists_of_dropTrailing_eq_cons_of_notMem
  have hclose : ∀ {l : Lexeme} {ys rest : List Lexeme}, dropTrailing ys = l :: rest →
      ∃ commas ys', ys = commas ++ l :: ys' ∧ dropTrailing ys' = rest ∧
        (commas = [] ∨ commas = [[',']]) := by
    intro l ys rest h
    obtain ⟨commas, ys', hys, hys', hcommas⟩ := exists_of_dropTrailing_eq_cons h
    exact ⟨commas, ys', hys, hys', hcommas.imp_right And.left⟩
  induction h generalizing ys rest with
  | @scalar l h =>
    obtain ⟨ys', rfl, hrest⟩ := hkept h.notMem_closers hys
    exact ⟨[l], ys', rfl, .scalar h, hrest⟩
  | emptyArray =>
    obtain ⟨ys₁, rfl, hys₁⟩ := hkept (by decide) hys
    obtain ⟨commas, ys', rfl, hrest, hcommas⟩ := hclose hys₁
    exact ⟨_, ys', by simp, .emptyArray hcommas, hrest⟩
  | emptyObject =>
    obtain ⟨ys₁, rfl, hys₁⟩ := hkept (by decide) hys
    obtain ⟨commas, ys', rfl, hrest, hcommas⟩ := hclose hys₁
    exact ⟨_, ys', by simp, .emptyObject hcommas, hrest⟩
  | array _ _ ih =>
    rw [List.cons_append, List.append_assoc] at hys
    obtain ⟨ys₁, rfl, hys₁⟩ := hkept (by decide) hys
    obtain ⟨us, ys₂, rfl, hus, hys₂⟩ := ih hys₁
    obtain ⟨commas, ys', rfl, hrest, hcommas⟩ := hclose hys₂
    exact ⟨_, ys', by simp, .array hus hcommas, hrest⟩
  | object _ _ ih =>
    rw [List.cons_append, List.append_assoc] at hys
    obtain ⟨ys₁, rfl, hys₁⟩ := hkept (by decide) hys
    obtain ⟨us, ys₂, rfl, hus, hys₂⟩ := ih hys₁
    obtain ⟨commas, ys', rfl, hrest, hcommas⟩ := hclose hys₂
    exact ⟨_, ys', by simp, .object hus hcommas, hrest⟩
  | item _ ih =>
    obtain ⟨us, ys', rfl, hus, hrest⟩ := ih hys
    exact ⟨us, ys', rfl, .item hus, hrest⟩
  | moreItems _ _ ih ih' =>
    rw [List.append_assoc] at hys
    obtain ⟨us, ys₁, rfl, hus, hys₁⟩ := ih hys
    obtain ⟨ys₂, rfl, hys₂⟩ := hkept (by decide) hys₁
    obtain ⟨us', ys', rfl, hus', hrest⟩ := ih' hys₂
    exact ⟨_, ys', by simp, .moreItems hus hus', hrest⟩
  | member hkey _ ih =>
    obtain ⟨ys₁, rfl, hys₁⟩ := hkept (IsScalar.string hkey).notMem_closers hys
    obtain ⟨ys₂, rfl, hys₂⟩ := hkept (by decide) hys₁
    obtain ⟨us, ys', rfl, hus, hrest⟩ := ih hys₂
    exact ⟨_, ys', by simp, .member hkey hus, hrest⟩
  | moreMembers hkey _ _ ih ih' =>
    rw [List.cons_append, List.cons_append, List.append_assoc] at hys
    obtain ⟨ys₁, rfl, hys₁⟩ := hkept (IsScalar.string hkey).notMem_closers hys
    obtain ⟨ys₂, rfl, hys₂⟩ := hkept (by decide) hys₁
    obtain ⟨us, ys₃, rfl, hus, hys₃⟩ := ih hys₂
    obtain ⟨ys₄, rfl, hys₄⟩ := hkept (by decide) hys₃
    obtain ⟨us', ys', rfl, hus', hrest⟩ := ih' hys₄
    exact ⟨_, ys', by simp, .moreMembers hkey hus hus', hrest⟩

/-- Forgiven is what is JSON without commas before closing brackets. -/
theorem forgives_iff {p : Part} {xs ys : List Lexeme} :
    Forgives p xs ys ↔ Relaxes p xs xs ∧ dropTrailing ys = xs := by
  refine ⟨fun h => ⟨h.strict, h.dropTrailing_eq⟩, fun ⟨h, hys⟩ => ?_⟩
  obtain ⟨us, ys', rfl, hus, hrest⟩ := h.exists_forgives (hys.trans (List.append_nil xs).symm)
  rw [eq_nil_of_dropTrailing_eq_nil hrest, List.append_nil]
  exact hus

/-! ## Lone commas -/

/-- A comma comes right after an opening bracket. -/
def HasLoneComma (ls : List Lexeme) : Prop :=
  ∃ o ∈ openers, [o, [',']] <:+: ls

/-- The second of two lexemes is no comma after an opening bracket. -/
def NotLone (l m : Lexeme) : Prop :=
  l ∈ openers → m ≠ [',']

theorem not_hasLoneComma_iff : ¬HasLoneComma ls ↔ ls.IsChain NotLone := by
  constructor
  · exact fun h => (List.isChain_isInfix ls).imp fun l m hinfix hl hm => h ⟨l, hl, hm ▸ hinfix⟩
  · rintro h ⟨o, ho, hinfix⟩
    have hpair := List.IsChain.infix h hinfix
    exact List.isChain_pair.mp hpair ho rfl

theorem isChain_notLone_cons (hl : l ∉ openers) (h : ls.IsChain NotLone) :
    (l :: ls).IsChain NotLone :=
  List.isChain_cons.mpr ⟨fun _ _ hopens => absurd hopens hl, h⟩

/-- Between brackets no comma comes first, and none is lone further on. -/
theorem isChain_notLone_bracketed {o d : Char} (hd : [d] ∈ closers) {ys commas : List Lexeme}
    (hhead : ∀ l ∈ (ys ++ (commas ++ [[d]])).head?, l ≠ [','])
    (hcommas : commas = [] ∨ commas = [[',']])
    (h : ∀ {rest : List Lexeme}, rest.IsChain NotLone → (ys ++ rest).IsChain NotLone)
    (hrest : rest.IsChain NotLone) :
    ([o] :: (ys ++ (commas ++ [[d]])) ++ rest).IsChain NotLone := by
  have hclosers : ∀ l ∈ closers, l ∉ openers := by decide
  have hclose := isChain_notLone_cons (hclosers _ hd) hrest
  have hlast : (commas ++ [d] :: rest).IsChain NotLone := by
    rcases hcommas with rfl | rfl
    · exact hclose
    · exact isChain_notLone_cons (by decide) hclose
  have hinner := h hlast
  rw [List.cons_append, List.append_assoc, List.append_assoc, List.singleton_append]
  refine List.isChain_cons.mpr ⟨fun m hm _ => hhead m ?_, hinner⟩
  rcases ys with _ | ⟨y, ys⟩
  · rcases commas with _ | ⟨c, commas⟩ <;> exact hm
  · exact hm

/-- In JSON with trailing commas none comes right after an opening bracket. -/
theorem Relaxes.isChain_notLone {p : Part} {xs ys : List Lexeme} (h : Relaxes p xs ys)
    (hrest : rest.IsChain NotLone) : (ys ++ rest).IsChain NotLone := by
  have hhead : ∀ {p : Part} {xs ys : List Lexeme}, Relaxes p xs ys → ∀ ls,
      ∀ l ∈ (ys ++ ls).head?, l ≠ [','] := by
    intro p xs ys h ls l hl
    obtain ⟨m, ms, rfl, hm⟩ := h.forgives.exists_cons
    have hopeners : ∀ l ∈ openers, l ≠ [','] := by decide
    obtain rfl : m = l := Option.some.inj hl
    exact hm.elim (·.ne_mark (by decide)) (hopeners m)
  induction h generalizing rest with
  | scalar h => exact isChain_notLone_cons h.notMem_openers hrest
  | emptyArray | emptyObject =>
    exact @isChain_notLone_bracketed rest _ _ (by decide) [] [] (by simp) (Or.inl rfl) id hrest
  | array h hcommas ih | object h hcommas ih =>
    exact isChain_notLone_bracketed (by decide) (hhead h _) hcommas ih hrest
  | item _ ih => exact ih hrest
  | moreItems _ _ ih ih' =>
    rw [List.append_assoc]
    exact ih (isChain_notLone_cons (by decide) (ih' hrest))
  | member hkey _ ih =>
    exact isChain_notLone_cons (IsScalar.string hkey).notMem_openers
      (isChain_notLone_cons (by decide) (ih hrest))
  | moreMembers hkey _ _ ih ih' =>
    rw [List.cons_append, List.cons_append, List.append_assoc]
    exact isChain_notLone_cons (IsScalar.string hkey).notMem_openers
      (isChain_notLone_cons (by decide) (ih (isChain_notLone_cons (by decide) (ih' hrest))))

/-- What is forgiven without lone commas is a trailing comma. -/
theorem Forgives.relaxes {p : Part} {xs ys : List Lexeme} (h : Forgives p xs ys)
    (hchain : ys.IsChain NotLone) : Relaxes p xs ys := by
  have hlone : ∀ {o : Lexeme} {ls : List Lexeme}, o ∈ openers →
      ¬(o :: [','] :: ls).IsChain NotLone := fun ho hchain =>
    (List.isChain_cons_cons.mp hchain).1 ho rfl
  induction h with
  | scalar h => exact .scalar h
  | emptyArray hcommas =>
    rcases hcommas with rfl | rfl
    · exact .emptyArray
    · exact absurd hchain (hlone (by decide))
  | array _ hcommas ih => exact .array (ih hchain.tail.left_of_append) hcommas
  | emptyObject hcommas =>
    rcases hcommas with rfl | rfl
    · exact .emptyObject
    · exact absurd hchain (hlone (by decide))
  | object _ hcommas ih => exact .object (ih hchain.tail.left_of_append) hcommas
  | item _ ih => exact .item (ih hchain)
  | moreItems _ _ ih ih' =>
    exact .moreItems (ih hchain.left_of_append) (ih' hchain.right_of_append.tail)
  | member hkey _ ih => exact .member hkey (ih hchain.tail.tail)
  | moreMembers hkey _ _ ih ih' =>
    have hvalues := hchain.tail.tail
    exact .moreMembers hkey (ih hvalues.left_of_append) (ih' hvalues.right_of_append.tail)

/-- Lone commas are all that is forgiven besides trailing commas. -/
theorem relaxes_iff {p : Part} {xs ys : List Lexeme} :
    Relaxes p xs ys ↔ Forgives p xs ys ∧ ¬HasLoneComma ys := by
  rw [not_hasLoneComma_iff]
  refine ⟨fun h => ⟨h.forgives, ?_⟩, fun ⟨h, hchain⟩ => h.relaxes hchain⟩
  have hchain := h.isChain_notLone List.IsChain.nil
  rwa [List.append_nil] at hchain

end ModuleMap.Json
