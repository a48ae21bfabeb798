import Mathlib.Data.List.TakeWhile
import NextBSD.Libpkg.Deps.Accept

/-!
# pkg_deps.c: printing a dependency formula

`pkg_deps_formula_tostring` estimates the length of the text, and prints into a buffer of that size.
The text is one of the formula it was printed from; it is printed whole if the estimate is enough.
-/

namespace NextBSD.Libpkg.Deps

def opTostring : VersionOp → List Char
  | .any => ['?']
  | .eq => ['=']
  | .le => ['<', '=']
  | .ge => ['>', '=']
  | .lt => ['<']
  | .gt => ['>']
  | .not => ['!', '=']

def itemEstimate (item : FormulaItem) : Nat :=
  item.name.length + (item.versions.map fun v => v.ver.length + 4).sum +
    (item.options.map fun o => o.opt.length + 2).sum + 2

def estimate (f : List (List FormulaItem)) : Nat :=
  (f.map fun items => (items.map itemEstimate).sum + 2).sum

/-- The texts of the calls of `snprintf` for an item, in their order. -/
def itemCalls (item : FormulaItem) (more : Bool) : List (List Char) :=
  item.name :: (item.versions.map fun v => ' ' :: opTostring v.op ++ ' ' :: v.ver) ++
    (item.options.map fun o => ' ' :: (if o.on then '+' else '-') :: o.opt) ++
      [if more then [' ', '|', ' '] else []]

def alternativesCalls : List FormulaItem → List (List Char)
  | [] => []
  | item :: items => itemCalls item (items ≠ []) ++ alternativesCalls items

def calls : List (List FormulaItem) → List (List Char)
  | [] => []
  | items :: fs => alternativesCalls items ++ [if fs ≠ [] then [',', ' '] else []] ++ calls fs

/-- The buffer `res`, how far `p` is behind its start, and `rlen`. -/
structure Writer where
  buf : List Char
  p : Nat
  rlen : Int

inductive Fault where
  /-- `rlen` is more than an `int` holds. -/
  | intOverflow
  /-- A write behind the buffer. -/
  | outOfBounds
  deriving DecidableEq, Repr

/-- `r = snprintf(p, rlen, ...)`, `p += r` and `rlen -= r`.  The size is a `size_t`, so where `rlen`
is negative there is no end to it. -/
def snprintf (w : Writer) (text : List Char) : Except Fault Writer :=
  let size := (w.rlen % 2 ^ 64).toNat
  let written := if size = 0 then [] else text.take (size - 1) ++ ['\x00']
  if written ≠ [] ∧ w.buf.length < w.p + written.length then .error .outOfBounds
  else .ok {
    buf := w.buf.take w.p ++ written ++ w.buf.drop (w.p + written.length)
    p := w.p + text.length
    rlen := w.rlen - text.length }

def intMax : Nat := 2 ^ 31 - 1

/-- `pkg_deps_formula_tostring`, with what `xmalloc` finds in the memory.  The sums of the first
loops only grow, so they are `int`s as long as the last one is. -/
def pkgDepsFormulaTostring (heap : Nat → Char) (f : List (List FormulaItem)) :
    Except Fault (Option (List Char)) :=
  let rlen := estimate f
  if intMax < rlen + 1 then .error .intOverflow
  else if rlen = 0 then .ok none
  else do
    let w ← (calls f).foldlM snprintf
      { buf := (List.range (rlen + 1)).map heap, p := 0, rlen := rlen }
    .ok (some (w.buf.takeWhile (· ≠ '\x00')))

/-- No call of `snprintf` cuts its text off, and none is told a negative size. -/
def AllWhole : Writer → List (List Char) → Prop
  | _, [] => True
  | w, text :: texts =>
    (text.length : Int) < w.rlen ∧ ∀ w', snprintf w text = .ok w' → AllWhole w' texts

def RoundTrips (heap : Nat → Char) (f : List (List FormulaItem)) : Prop :=
  AllWhole { buf := (List.range (estimate f + 1)).map heap, p := 0, rlen := estimate f } (calls f) ∧
    pkgDepsFormulaTostring heap f = .ok (some (calls f).flatten) ∧
    Returns (calls f).flatten (.finished f)

/-! How much the text needs. -/

def charCount (f : List (List FormulaItem)) : Nat :=
  (f.flatten.map fun item => item.name.length + (item.versions.map fun v => v.ver.length).sum +
    (item.options.map fun o => o.opt.length).sum).sum

def versionCount (f : List (List FormulaItem)) : Nat := (f.flatten.map (·.versions.length)).sum

def optionCount (f : List (List FormulaItem)) : Nat := (f.flatten.map (·.options.length)).sum

def shortCount (f : List (List FormulaItem)) : Nat :=
  (f.flatten.map fun item => item.versions.countP fun v => (opTostring v.op).length = 1).sum

end NextBSD.Libpkg.Deps

/-!
## Printed formulas

The text of a formula is read as that formula, and it is printed whole if there are few enough
alternatives.
-/

namespace NextBSD.Libpkg.Deps

/-! What the parser returns can be printed so that it is read again. -/

structure VersionItem.WellFormed (v : VersionItem) : Prop where
  ver_ne : v.ver ≠ []
  ver : versionSpan v.ver = (v.ver, [])
  op : v.op ≠ .any

structure OptionItem.WellFormed (o : OptionItem) : Prop where
  opt_ne : o.opt ≠ []
  opt : ∀ c ∈ o.opt, isOptionChar c = true

structure FormulaItem.WellFormed (item : FormulaItem) : Prop where
  name_ne : item.name ≠ []
  name : ∀ c ∈ item.name, isNameChar c = true
  versions : ∀ v ∈ item.versions, v.WellFormed
  options : ∀ o ∈ item.options, o.WellFormed

structure WellFormed (f : List (List FormulaItem)) : Prop where
  ne : f ≠ []
  items_ne : ∀ items ∈ f, items ≠ []
  items : ∀ items ∈ f, ∀ item ∈ items, item.WellFormed

theorem isVersionChar_versionSpan {c : Char} {t : List Char} (h : isVersionChar c t = true) :
    isVersionChar c (versionSpan t).1 = true := by
  unfold isVersionChar at h ⊢
  by_cases hcomma : c = ','
  · subst hcomma
    have hdigit : t.head?.any Char.isDigit = true := by simpa using h
    cases t with
    | nil => cases hdigit
    | cons d t =>
      have hd : isVersionChar d t = true := by
        have : d.isAlphanum = true := by
          unfold Char.isAlphanum
          rw [show d.isDigit = true from hdigit, Bool.or_true]
        unfold isVersionChar
        rw [this]
        rfl
      unfold versionSpan
      rw [if_pos hd]
      exact h
  · simpa [hcomma] using h

theorem versionSpan_fst (s : List Char) :
    versionSpan (versionSpan s).1 = ((versionSpan s).1, []) := by
  induction s with
  | nil => rfl
  | cons c t ih =>
    by_cases hc : isVersionChar c t = true
    · have hspan : versionSpan (c :: t) = (c :: (versionSpan t).1, (versionSpan t).2) := by
        conv_lhs => unfold versionSpan
        rw [if_pos hc]
      rw [hspan]
      conv_lhs => unfold versionSpan
      rw [if_pos (isVersionChar_versionSpan hc), ih]
    · have hspan : versionSpan (c :: t) = ([], c :: t) := by
        conv_lhs => unfold versionSpan
        rw [if_neg hc]
      rw [hspan]
      rfl

theorem Constraints.wellFormed {e : Ending} {s rest : List Char} {vs : List VersionItem}
    {os : List OptionItem} (h : Constraints e s vs os rest) :
    (∀ v ∈ vs, v.WellFormed) ∧ ∀ o ∈ os, o.WellFormed := by
  induction h with
  | done => exact ⟨by simp, by simp⟩
  | dangling => exact ⟨by simp, by simp⟩
  | @version _ u r _ ver op _ _ _ hop _ hver hne _ ih =>
    refine ⟨List.forall_mem_cons.mpr ⟨⟨hne, ?_, operator_ne_any hop⟩, ih.1⟩, ih.2⟩
    have hspan := versionSpan_fst u
    rw [hver] at hspan
    exact hspan
  | option _ hopt hne _ ih =>
    refine ⟨ih.1, List.forall_mem_cons.mpr ⟨⟨hne, ?_⟩, ih.2⟩⟩
    intro c hc
    rw [← hopt] at hc
    exact List.mem_takeWhile_imp hc

theorem Item.wellFormed {e : Ending} {s rest : List Char} {item : FormulaItem}
    (h : Item e s item rest) : item.WellFormed where
  name_ne := h.name_ne
  name := fun c hc => by
    rw [← h.name] at hc
    exact List.mem_takeWhile_imp hc
  versions := h.constraints.wellFormed.1
  options := h.constraints.wellFormed.2

theorem Formulas.wellFormed {e : Ending} {s : List Char} {fs : List (List FormulaItem)}
    (h : Formulas e s fs) : WellFormed fs := by
  induction h with
  | last hi => exact ⟨by simp, by simp, by simpa using hi.wellFormed⟩
  | comma hi _ ih =>
    exact ⟨by simp, List.forall_mem_cons.mpr ⟨by simp, ih.items_ne⟩,
      List.forall_mem_cons.mpr ⟨by simpa using hi.wellFormed, ih.items⟩⟩
  | or hi _ ih =>
    obtain ⟨-, hne⟩ := List.forall_mem_cons.mp ih.items_ne
    obtain ⟨hf, hfs⟩ := List.forall_mem_cons.mp ih.items
    exact ⟨by simp, List.forall_mem_cons.mpr ⟨by simp, hne⟩,
      List.forall_mem_cons.mpr ⟨List.forall_mem_cons.mpr ⟨hi.wellFormed, hf⟩, hfs⟩⟩

/-! The text is one of the grammar. -/

def Boundary (r : List Char) : Prop := r = [] ∨ (∃ t, r = ' ' :: t) ∨ ∃ t, r = ',' :: ' ' :: t

theorem Boundary.head {r : List Char} (h : Boundary r) : ∀ c ∈ r.head?, c = ' ' ∨ c = ',' := by
  rcases h with rfl | ⟨t, rfl⟩ | ⟨t, rfl⟩
  · exact fun _ h => nomatch h
  · intro c hc
    cases hc
    exact .inl rfl
  · intro c hc
    cases hc
    exact .inr rfl

theorem Boundary.cons_space (t : List Char) : Boundary (' ' :: t) := .inr (.inl ⟨t, rfl⟩)

theorem span_boundary {p : Char → Bool} (hblank : p ' ' = false) (hcomma : p ',' = false)
    {l r : List Char} (hl : ∀ c ∈ l, p c = true) (hr : Boundary r) :
    (l ++ r).takeWhile p = l ∧ (l ++ r).dropWhile p = r := by
  rw [List.takeWhile_append_of_pos hl, List.dropWhile_append_of_pos hl]
  cases r with
  | nil => exact ⟨List.append_nil l, rfl⟩
  | cons c t =>
    have hc : ¬ p c = true := by
      rcases hr.head c rfl with rfl | rfl
      · rw [hblank]; exact Bool.false_ne_true
      · rw [hcomma]; exact Bool.false_ne_true
    rw [List.takeWhile_cons_of_neg hc, List.dropWhile_cons_of_neg hc]
    exact ⟨List.append_nil l, rfl⟩

theorem isVersionChar_append {c : Char} {t : List Char} (r : List Char)
    (h : isVersionChar c t = true) : isVersionChar c (t ++ r) = true := by
  cases t with
  | nil =>
    unfold isVersionChar at h ⊢
    simp only [List.head?_nil, Option.any_none, Bool.and_false, Bool.or_false] at h
    rw [h]
    rfl
  | cons d t => exact h

theorem toNat_of_isspace {c : Char} (h : isspace c = true) : c.toNat ≤ 32 := by
  unfold isspace at h
  rw [Bool.or_eq_true, decide_eq_true_eq, Bool.and_eq_true, decide_eq_true_eq,
    decide_eq_true_eq] at h
  rcases h with rfl | h
  · decide
  · omega

theorem toNat_of_isAlphanum {c : Char} (h : c.isAlphanum = true) : 48 ≤ c.toNat := by
  simp only [Char.isAlphanum, Char.isAlpha, Char.isUpper, Char.isLower, Char.isDigit,
    Bool.or_eq_true, Bool.and_eq_true, decide_eq_true_eq, UInt32.le_iff_toNat_le, ge_iff_le] at h
  simp only [Char.toNat]
  have hA : 'A'.val.toNat = 65 := rfl
  have ha : 'a'.val.toNat = 97 := rfl
  have h0 : '0'.val.toNat = 48 := rfl
  omega

theorem toNat_of_isVersionChar {c : Char} {t : List Char} (h : isVersionChar c t = true) :
    32 < c.toNat := by
  unfold isVersionChar at h
  simp only [Bool.or_eq_true, Bool.and_eq_true, decide_eq_true_eq] at h
  rcases h with (((h | rfl) | rfl) | rfl) | ⟨rfl, -⟩
  · have := toNat_of_isAlphanum h
    omega
  all_goals decide

theorem versionSpan_boundary {ver r : List Char} (hver : versionSpan ver = (ver, []))
    (hr : Boundary r) : versionSpan (ver ++ r) = (ver, r) := by
  induction ver with
  | nil =>
    rcases hr with rfl | ⟨t, rfl⟩ | ⟨t, rfl⟩
    · rfl
    · exact if_neg (by simp [isVersionChar])
    · exact if_neg (by simp [isVersionChar])
  | cons c t ih =>
    unfold versionSpan at hver
    split at hver
    · next hc =>
      obtain ⟨hfst, hsnd⟩ := Prod.mk.inj hver
      have ht := ih (Prod.ext (List.cons.inj hfst).2 hsnd)
      rw [List.cons_append]
      unfold versionSpan
      rw [if_pos (isVersionChar_append r hc), ht]
    · cases (Prod.mk.inj hver).1

theorem operator_opTostring {op : VersionOp} (h : op ≠ .any) :
    operator (opTostring op) = some op := by
  cases op
  case any => exact absurd rfl h
  all_goals rfl

theorem opTostring_isOpChar {op : VersionOp} (h : op ≠ .any) :
    ∀ c ∈ opTostring op, isOpChar c = true := by
  cases op
  case any => exact absurd rfl h
  all_goals simp [opTostring, isOpChar]

def versionsText (vs : List VersionItem) : List Char :=
  (vs.map fun v => ' ' :: opTostring v.op ++ ' ' :: v.ver).flatten

def optionsText (os : List OptionItem) : List Char :=
  (os.map fun o => ' ' :: (if o.on then '+' else '-') :: o.opt).flatten

theorem boundary_options (os : List OptionItem) {r : List Char} (hr : Boundary r) :
    Boundary (optionsText os ++ r) := by
  cases os with
  | nil => exact hr
  | cons o os => exact .cons_space _

theorem boundary_versions (vs : List VersionItem) {r : List Char} (hr : Boundary r) :
    Boundary (versionsText vs ++ r) := by
  cases vs with
  | nil => exact hr
  | cons v vs => exact .cons_space _

def Separator (r : List Char) : Prop :=
  r = [] ∨ (∃ t, r = ' ' :: '|' :: ' ' :: t) ∨ ∃ t, r = ',' :: ' ' :: t

theorem Separator.boundary {r : List Char} (h : Separator r) : Boundary r := by
  rcases h with rfl | ⟨t, rfl⟩ | ⟨t, rfl⟩
  · exact .inl rfl
  · exact .cons_space _
  · exact .inr (.inr ⟨t, rfl⟩)

theorem Separator.head_dropWhile {r : List Char} (h : Separator r) :
    ∀ c ∈ (r.dropWhile isspace).head?, c = ',' ∨ c = '|' := by
  rcases h with rfl | ⟨t, rfl⟩ | ⟨t, rfl⟩
  · exact fun _ h => nomatch h
  · intro c hc
    cases hc
    exact .inr rfl
  · intro c hc
    cases hc
    exact .inl rfl

theorem constraints_of_options {os : List OptionItem} (hos : ∀ o ∈ os, o.WellFormed) {r : List Char}
    (hr : Separator r) :
    Constraints .whole ((optionsText os ++ r).dropWhile isspace) [] os (r.dropWhile isspace) := by
  induction os with
  | nil => exact .done hr.head_dropWhile
  | cons o os ih =>
    obtain ⟨ho, hos⟩ := List.forall_mem_cons.mp hos
    obtain ⟨htake, hdrop⟩ := span_boundary (p := isOptionChar) (by decide) (by decide) ho.opt
      (boundary_options os hr.boundary)
    have hsign : ¬ isspace (if o.on then '+' else '-') = true := by cases o.on <;> decide
    have htext : (optionsText (o :: os) ++ r).dropWhile isspace =
        (if o.on then '+' else '-') :: (o.opt ++ (optionsText os ++ r)) := by
      unfold optionsText
      rw [List.map_cons, List.flatten_cons, List.cons_append, List.cons_append, List.append_assoc,
        List.dropWhile_cons_of_pos (by decide), List.cons_append, List.dropWhile_cons_of_neg hsign]
    have hstep := Constraints.option (c := if o.on then '+' else '-') (by split <;> simp) htake
      ho.opt_ne (by rw [hdrop]; exact ih hos)
    have hon : decide ((if o.on then '+' else '-') = '+') = o.on := by cases o.on <;> decide
    rw [hon] at hstep
    rw [htext]
    exact hstep

theorem constraints_of_versions {vs : List VersionItem} (hvs : ∀ v ∈ vs, v.WellFormed)
    {os : List OptionItem} (hos : ∀ o ∈ os, o.WellFormed) {r : List Char} (hr : Separator r) :
    Constraints .whole ((versionsText vs ++ (optionsText os ++ r)).dropWhile isspace) vs os
      (r.dropWhile isspace) := by
  induction vs with
  | nil => exact constraints_of_options hos hr
  | cons v vs ih =>
    obtain ⟨hv, hvs⟩ := List.forall_mem_cons.mp hvs
    obtain ⟨u, hu⟩ : ∃ u, versionsText vs ++ (optionsText os ++ r) = u := ⟨_, rfl⟩
    have hub : Boundary u := by
      rw [← hu]
      exact boundary_versions vs (boundary_options os hr.boundary)
    obtain ⟨htake, hdrop⟩ := span_boundary (p := isOpChar) (by decide) (by decide)
      (opTostring_isOpChar hv.op) (Boundary.cons_space (v.ver ++ u))
    have htext : (versionsText (v :: vs) ++ (optionsText os ++ r)).dropWhile isspace =
        opTostring v.op ++ ' ' :: (v.ver ++ u) := by
      rw [← hu]
      unfold versionsText
      rw [List.map_cons, List.flatten_cons, List.append_assoc, List.append_assoc, List.cons_append,
        List.cons_append, List.dropWhile_cons_of_pos (by decide)]
      obtain ⟨c, t, hct⟩ : ∃ c t, opTostring v.op = c :: t ∧ ¬ isspace c = true := by
        cases v.op <;> exact ⟨_, _, rfl, by decide⟩
      rw [hct.1, List.cons_append, List.dropWhile_cons_of_neg hct.2]
    have hspace : (' ' :: (v.ver ++ u)).dropWhile isspace = v.ver ++ u := by
      obtain ⟨c, t, hct⟩ := List.exists_cons_of_ne_nil hv.ver_ne
      have hspan := hv.ver
      rw [hct] at hspan ⊢
      unfold versionSpan at hspan
      have hc : isVersionChar c t = true := by
        by_contra hc
        rw [if_neg hc] at hspan
        cases (Prod.mk.inj hspan).1
      have hcs : ¬ isspace c = true := by
        intro hspace
        exact absurd (toNat_of_isspace hspace) (Nat.not_le.mpr (toNat_of_isVersionChar hc))
      rw [List.dropWhile_cons_of_pos (by decide), List.cons_append,
        List.dropWhile_cons_of_neg hcs]
    rw [htext]
    refine .version (by rw [htake]; exact operator_opTostring hv.op) (by rw [hdrop]; exact hspace)
      (versionSpan_boundary hv.ver hub) hv.ver_ne ?_
    rw [← hu]
    exact ih hvs

theorem flatten_itemCalls (item : FormulaItem) (more : Bool) :
    (itemCalls item more).flatten = item.name ++ (versionsText item.versions ++
      (optionsText item.options ++ if more then [' ', '|', ' '] else [])) := by
  simp [itemCalls, versionsText, optionsText]

theorem dropWhile_name {item : FormulaItem} (h : item.WellFormed) (r : List Char) :
    (item.name ++ r).dropWhile isspace = item.name ++ r := by
  obtain ⟨c, t, hct⟩ := List.exists_cons_of_ne_nil h.name_ne
  have hc := h.name c (by rw [hct]; exact List.mem_cons_self)
  unfold isNameChar at hc
  rw [Bool.and_eq_true, Bool.and_eq_true] at hc
  rw [hct, List.cons_append, List.dropWhile_cons_of_neg (by simpa using hc.1.2)]

theorem item_of_text {item : FormulaItem} (h : item.WellFormed) {r : List Char} (hr : Separator r) :
    Item .whole (item.name ++ (versionsText item.versions ++ (optionsText item.options ++ r))) item
      (r.dropWhile isspace) := by
  have hb := boundary_versions item.versions (boundary_options item.options hr.boundary)
  obtain ⟨htake, hdrop⟩ := span_boundary (p := isNameChar) (by decide) (by decide) h.name hb
  refine ⟨htake, h.name_ne, ?_, ?_⟩
  · rw [hdrop]
    intro c hc
    rcases hb.head c hc with rfl | rfl
    · exact .inl (by decide)
    · exact .inr rfl
  · rw [hdrop]
    exact constraints_of_versions h.versions h.options hr

theorem Formulas.cons_space {e : Ending} {t : List Char} {fs : List (List FormulaItem)}
    (h : Formulas e t fs) : Formulas e (' ' :: t) fs := by
  have hdrop : (' ' :: t).dropWhile isspace = t.dropWhile isspace :=
    List.dropWhile_cons_of_pos (by decide)
  cases h with
  | last hi => exact .last (by rw [hdrop]; exact hi)
  | comma hi ht => exact .comma (by rw [hdrop]; exact hi) ht
  | or hi ht => exact .or (by rw [hdrop]; exact hi) ht

theorem formulas_of_alternatives {fs : List (List FormulaItem)} {r : List Char}
    (hr : (r = [] ∧ fs = []) ∨ ∃ t, r = ',' :: ' ' :: t ∧ Formulas .whole t fs) :
    ∀ {items : List FormulaItem}, items ≠ [] → (∀ item ∈ items, item.WellFormed) →
      Formulas .whole ((alternativesCalls items).flatten ++ r) (items :: fs)
  | [], hne, _ => absurd rfl hne
  | [item], _, hwf => by
    have hi := hwf item List.mem_cons_self
    have htext : (alternativesCalls [item]).flatten ++ r =
        item.name ++ (versionsText item.versions ++ (optionsText item.options ++ r)) := by
      unfold alternativesCalls
      rw [List.flatten_append, flatten_itemCalls]
      simp [alternativesCalls]
    rw [htext]
    rcases hr with ⟨rfl, rfl⟩ | ⟨t, rfl, ht⟩
    · exact .last (by rw [dropWhile_name hi]; exact item_of_text hi (.inl rfl))
    · exact .comma (by rw [dropWhile_name hi]; exact item_of_text hi (.inr (.inr ⟨t, rfl⟩)))
        ht.cons_space
  | item :: item' :: items, _, hwf => by
    obtain ⟨hi, hrest⟩ := List.forall_mem_cons.mp hwf
    have ih := formulas_of_alternatives hr (List.cons_ne_nil item' items) hrest
    have htext : (alternativesCalls (item :: item' :: items)).flatten ++ r =
        item.name ++ (versionsText item.versions ++ (optionsText item.options ++
          ' ' :: '|' :: ' ' :: ((alternativesCalls (item' :: items)).flatten ++ r))) := by
      rw [show alternativesCalls (item :: item' :: items) =
        itemCalls item true ++ alternativesCalls (item' :: items) from rfl, List.flatten_append,
        flatten_itemCalls]
      simp
    rw [htext]
    exact .or (by rw [dropWhile_name hi]; exact item_of_text hi (.inr (.inl ⟨_, rfl⟩)))
      ih.cons_space

theorem formulas_of_calls : ∀ {f : List (List FormulaItem)}, WellFormed f →
    Formulas .whole (calls f).flatten f
  | [], h => absurd rfl h.ne
  | [items], h => by
    have hf := formulas_of_alternatives (.inl ⟨rfl, rfl⟩) (h.items_ne items List.mem_cons_self)
      (h.items items List.mem_cons_self)
    simpa [calls] using hf
  | items :: items' :: fs, h => by
    have ih := formulas_of_calls (f := items' :: fs) ⟨List.cons_ne_nil _ _,
      fun i hi => h.items_ne i (List.mem_cons_of_mem _ hi),
      fun i hi => h.items i (List.mem_cons_of_mem _ hi)⟩
    have hf := formulas_of_alternatives (.inr ⟨_, rfl, ih⟩) (h.items_ne items List.mem_cons_self)
      (h.items items List.mem_cons_self)
    have htext : (calls (items :: items' :: fs)).flatten = (alternativesCalls items).flatten ++
        ',' :: ' ' :: (calls (items' :: fs)).flatten := by
      rw [show calls (items :: items' :: fs) =
        alternativesCalls items ++ [[',', ' ']] ++ calls (items' :: fs) from rfl]
      simp
    rw [htext]
    exact hf

/-! The estimate. -/

theorem length_versionsText (vs : List VersionItem) :
    (versionsText vs).length + vs.countP (fun v => (opTostring v.op).length = 1) =
      (vs.map fun v => v.ver.length + 4).sum := by
  induction vs with
  | nil => rfl
  | cons v vs ih =>
    have hop : (opTostring v.op).length + (if (opTostring v.op).length = 1 then 1 else 0) = 2 := by
      cases v.op <;> rfl
    have hlen : (versionsText (v :: vs)).length =
        (opTostring v.op).length + v.ver.length + 2 + (versionsText vs).length := by
      simp [versionsText]
      omega
    rw [hlen, List.countP_cons, List.map_cons, List.sum_cons, ← ih]
    simp only [decide_eq_true_eq]
    omega

theorem length_optionsText (os : List OptionItem) :
    (optionsText os).length = (os.map fun o => o.opt.length + 2).sum := by
  induction os with
  | nil => rfl
  | cons o os ih =>
    rw [List.map_cons, List.sum_cons, ← ih]
    simp [optionsText]
    omega

def shortItem (item : FormulaItem) : Nat :=
  item.versions.countP fun v => (opTostring v.op).length = 1

theorem length_itemCalls (item : FormulaItem) (more : Bool) :
    (itemCalls item more).flatten.length + shortItem item + 2 =
      itemEstimate item + if more then 3 else 0 := by
  rw [flatten_itemCalls]
  unfold itemEstimate shortItem
  rw [← length_versionsText, ← length_optionsText, List.length_append, List.length_append,
    List.length_append]
  cases more <;> simp <;> omega

theorem length_alternativesCalls : ∀ {items : List FormulaItem}, items ≠ [] →
    (alternativesCalls items).flatten.length + (items.map shortItem).sum + 3 =
      (items.map itemEstimate).sum + items.length
  | [], h => absurd rfl h
  | [item], _ => by
    have hitem := length_itemCalls item false
    simp only [alternativesCalls, List.append_nil, List.map_cons, List.map_nil, List.sum_cons,
      List.sum_nil, List.length_singleton, ne_eq, not_true_eq_false, decide_false]
    simp only [Bool.false_eq_true, if_false] at hitem
    omega
  | item :: item' :: items, _ => by
    have hitem := length_itemCalls item true
    have ih := length_alternativesCalls (List.cons_ne_nil item' items)
    rw [show alternativesCalls (item :: item' :: items) =
      itemCalls item true ++ alternativesCalls (item' :: items) from rfl, List.flatten_append,
      List.length_append, List.map_cons, List.sum_cons, List.map_cons (f := itemEstimate),
      List.sum_cons, List.length_cons]
    simp only [if_true] at hitem
    omega

theorem shortCount_cons (items : List FormulaItem) (f : List (List FormulaItem)) :
    shortCount (items :: f) = (items.map shortItem).sum + shortCount f := by
  unfold shortCount
  rw [List.flatten_cons, List.map_append, List.sum_append]
  rfl

theorem estimate_add : ∀ {f : List (List FormulaItem)}, f ≠ [] → (∀ items ∈ f, items ≠ []) →
    estimate f + f.flatten.length =
      (calls f).flatten.length + shortCount f + 3 * f.length + 2
  | [], h, _ => absurd rfl h
  | [items], _, hne => by
    have hlen := length_alternativesCalls (hne items List.mem_cons_self)
    rw [shortCount_cons]
    simp only [estimate, calls, shortCount, List.map_cons, List.map_nil, List.sum_cons,
      List.sum_nil, List.flatten_cons, List.flatten_nil, List.append_nil, List.length_cons, List.length_nil,
      List.flatten_append, ne_eq, not_true_eq_false, if_false]
    omega
  | items :: items' :: fs, _, hne => by
    have hlen := length_alternativesCalls (hne items List.mem_cons_self)
    have ih := estimate_add (List.cons_ne_nil items' fs)
      (fun i hi => hne i (List.mem_cons_of_mem _ hi))
    have hest : estimate (items :: items' :: fs) =
      (items.map itemEstimate).sum + 2 + estimate (items' :: fs) := rfl
    rw [hest, shortCount_cons, List.flatten_cons, List.length_append, show
      calls (items :: items' :: fs) =
        alternativesCalls items ++ [[',', ' ']] ++ calls (items' :: fs) from rfl,
      List.flatten_append, List.flatten_append, List.length_append, List.length_append,
      List.length_cons]
    simp only [List.flatten_cons, List.flatten_nil, List.append_nil, List.length_cons,
      List.length_nil] at ih ⊢
    omega

theorem itemEstimate_eq (item : FormulaItem) :
    itemEstimate item = item.name.length + (item.versions.map fun v => v.ver.length).sum +
      (item.options.map fun o => o.opt.length).sum + 2 + 4 * item.versions.length +
        2 * item.options.length := by
  have hvs : ∀ vs : List VersionItem, (vs.map fun v => v.ver.length + 4).sum =
      (vs.map fun v => v.ver.length).sum + 4 * vs.length := by
    intro vs
    induction vs with
    | nil => rfl
    | cons v vs ih => simp only [List.map_cons, List.sum_cons, List.length_cons]; omega
  have hos : ∀ os : List OptionItem, (os.map fun o => o.opt.length + 2).sum =
      (os.map fun o => o.opt.length).sum + 2 * os.length := by
    intro os
    induction os with
    | nil => rfl
    | cons o os ih => simp only [List.map_cons, List.sum_cons, List.length_cons]; omega
  unfold itemEstimate
  rw [hvs, hos]
  omega

theorem estimate_eq (f : List (List FormulaItem)) :
    estimate f = charCount f + 2 * f.flatten.length + 4 * versionCount f + 2 * optionCount f +
      2 * f.length := by
  induction f with
  | nil => rfl
  | cons items f ih =>
    have hitems : ∀ items : List FormulaItem, (items.map itemEstimate).sum =
        (items.map fun item => item.name.length + (item.versions.map fun v => v.ver.length).sum +
          (item.options.map fun o => o.opt.length).sum).sum + 2 * items.length +
            4 * (items.map (·.versions.length)).sum + 2 * (items.map (·.options.length)).sum := by
      intro items
      induction items with
      | nil => rfl
      | cons item items ih =>
        simp only [List.map_cons, List.sum_cons, List.length_cons, itemEstimate_eq]
        omega
    have hest : estimate (items :: f) = (items.map itemEstimate).sum + 2 + estimate f := rfl
    rw [hest, ih, hitems]
    simp only [charCount, versionCount, optionCount, List.flatten_cons, List.map_append,
      List.sum_append, List.length_append, List.length_cons]
    omega

/-! Printing. -/

/-- The text `done` is in the buffer, `n` characters before its end. -/
structure Holds (w : Writer) (done : List Char) (n : Nat) : Prop where
  rlen : w.rlen = n
  p : w.p = done.length
  buf : ∃ tail, w.buf = done ++ tail ∧ tail.length = n + 1

theorem snprintf_holds {w : Writer} {done : List Char} {n : Nat} (h : Holds w done n)
    (hn : n < 2 ^ 64) (text : List Char) (hlen : text.length < n) :
    ∃ w' tail, snprintf w text = .ok w' ∧ Holds w' (done ++ text) (n - text.length) ∧
      w'.buf = done ++ text ++ '\x00' :: tail := by
  obtain ⟨tail, hbuf, htail⟩ := h.buf
  have hsize : (w.rlen % 2 ^ 64).toNat = n := by
    rw [h.rlen]
    omega
  have hzero : ¬ n = 0 := by omega
  have htake : text.take (n - 1) = text := List.take_of_length_le (by omega)
  have hroom : ¬ (text ++ ['\x00'] ≠ [] ∧ w.buf.length < w.p + (text ++ ['\x00']).length) := by
    rintro ⟨-, hlt⟩
    rw [h.p, hbuf, List.length_append, List.length_append, List.length_singleton] at hlt
    omega
  have hnew : w.buf.take w.p ++ (text ++ ['\x00']) ++ w.buf.drop (w.p + (text ++ ['\x00']).length) =
      done ++ text ++ '\x00' :: tail.drop (text.length + 1) := by
    rw [h.p, hbuf, List.take_left, List.drop_append, List.length_append, List.length_singleton]
    simp
  refine ⟨{ buf := done ++ text ++ '\x00' :: tail.drop (text.length + 1), p := w.p + text.length
            rlen := w.rlen - text.length }, tail.drop (text.length + 1), ?_, ⟨?_, ?_, ?_⟩, rfl⟩
  · unfold snprintf
    dsimp only
    simp only [hsize, hzero, if_false, htake]
    rw [if_neg hroom, hnew]
  · rw [h.rlen]
    dsimp only
    omega
  · dsimp only
    rw [h.p, List.length_append]
  · refine ⟨'\x00' :: tail.drop (text.length + 1), rfl, ?_⟩
    rw [List.length_cons, List.length_drop]
    omega

theorem foldlM_snprintf : ∀ (texts : List (List Char)) {w : Writer} {done : List Char} {n : Nat},
    Holds w done n → n < 2 ^ 64 → texts.flatten.length < n →
      AllWhole w texts ∧ ∃ w', texts.foldlM snprintf w = .ok w' ∧
        (texts = [] ∧ w' = w ∨ ∃ tail, w'.buf = done ++ texts.flatten ++ '\x00' :: tail)
  | [], w, _, _, _, _, _ => ⟨trivial, w, rfl, .inl ⟨rfl, rfl⟩⟩
  | text :: texts, w, done, n, h, hn, hlen => by
    rw [List.flatten_cons, List.length_append] at hlen
    obtain ⟨w₁, tail, hok, hholds, hbuf⟩ := snprintf_holds h hn text (by omega)
    obtain ⟨hall, w', hfold, hend⟩ := foldlM_snprintf texts hholds (by omega) (by omega)
    refine ⟨⟨by rw [h.rlen]; omega, ?_⟩, w', ?_, .inr ?_⟩
    · intro w₂ hok₂
      rw [hok] at hok₂
      cases hok₂
      exact hall
    · rw [List.foldlM_cons, hok]
      exact hfold
    · rcases hend with ⟨rfl, rfl⟩ | ⟨tail', hbuf'⟩
      · exact ⟨tail, by rw [hbuf]; simp⟩
      · exact ⟨tail', by rw [hbuf']; simp⟩

theorem length_of_allWhole : ∀ {texts : List (List Char)} {w : Writer} {done : List Char} {n : Nat},
    Holds w done n → n < 2 ^ 64 → texts ≠ [] → AllWhole w texts → texts.flatten.length < n
  | [], _, _, _, _, _, hne, _ => absurd rfl hne
  | text :: texts, w, done, n, h, hn, _, hall => by
    obtain ⟨hlen, hrest⟩ := hall
    rw [h.rlen] at hlen
    obtain ⟨w₁, tail, hok, hholds, -⟩ := snprintf_holds h hn text (by omega)
    rw [List.flatten_cons, List.length_append]
    cases texts with
    | nil =>
      rw [List.flatten_nil, List.length_nil]
      omega
    | cons text' texts =>
      have := length_of_allWhole hholds (by omega) (List.cons_ne_nil text' texts) (hrest w₁ hok)
      omega

/-! No character of the text ends it. -/

def Plain (text : List Char) : Prop := ∀ c ∈ text, 32 ≤ c.toNat

theorem Plain.append {a b : List Char} (ha : Plain a) (hb : Plain b) : Plain (a ++ b) :=
  List.forall_mem_append.mpr ⟨ha, hb⟩

theorem Plain.cons {c : Char} {a : List Char} (hc : 32 ≤ c.toNat) (ha : Plain a) : Plain (c :: a) :=
  List.forall_mem_cons.mpr ⟨hc, ha⟩

theorem plain_nil : Plain [] := fun _ h => nomatch h

theorem plain_ver {ver : List Char} (h : versionSpan ver = (ver, [])) : Plain ver := by
  induction ver with
  | nil => exact plain_nil
  | cons c t ih =>
    unfold versionSpan at h
    split at h
    · next hc =>
      obtain ⟨hfst, hsnd⟩ := Prod.mk.inj h
      exact .cons (Nat.le_of_lt (toNat_of_isVersionChar hc))
        (ih (Prod.ext (List.cons.inj hfst).2 hsnd))
    · cases (Prod.mk.inj h).1

theorem plain_versionsText {vs : List VersionItem} (h : ∀ v ∈ vs, v.WellFormed) :
    Plain (versionsText vs) := by
  induction vs with
  | nil => exact plain_nil
  | cons v vs ih =>
    obtain ⟨hv, hvs⟩ := List.forall_mem_cons.mp h
    have hop : Plain (opTostring v.op) := by
      cases v.op <;> simp [Plain, opTostring]
    have hver := Plain.cons (c := ' ') (by decide) (plain_ver hv.ver)
    exact .append (.cons (by decide) (hop.append hver)) (ih hvs)

theorem plain_optionsText {os : List OptionItem} (h : ∀ o ∈ os, o.WellFormed) :
    Plain (optionsText os) := by
  induction os with
  | nil => exact plain_nil
  | cons o os ih =>
    obtain ⟨ho, hos⟩ := List.forall_mem_cons.mp h
    have hopt : Plain o.opt := by
      intro c hc
      have hchar := ho.opt c hc
      unfold isOptionChar at hchar
      simp only [Bool.or_eq_true, decide_eq_true_eq] at hchar
      rcases hchar with (hchar | rfl) | rfl
      · have := toNat_of_isAlphanum hchar
        omega
      · decide
      · decide
    have hsign : 32 ≤ (if o.on then '+' else '-').toNat := by cases o.on <;> decide
    exact .append (.cons (by decide) (.cons hsign hopt)) (ih hos)

theorem plain_item {item : FormulaItem} (h : item.WellFormed) (more : Bool) :
    Plain (itemCalls item more).flatten := by
  have hname : Plain item.name := by
    intro c hc
    have hchar := h.name c hc
    unfold isNameChar isprint at hchar
    simp only [Bool.and_eq_true, decide_eq_true_eq] at hchar
    exact hchar.1.1.1
  have hsep : Plain (if more then [' ', '|', ' '] else []) := by
    cases more <;> simp [Plain]
  rw [flatten_itemCalls]
  exact hname.append ((plain_versionsText h.versions).append
    ((plain_optionsText h.options).append hsep))

theorem plain_alternatives {items : List FormulaItem} (h : ∀ item ∈ items, item.WellFormed) :
    Plain (alternativesCalls items).flatten := by
  induction items with
  | nil => exact plain_nil
  | cons item items ih =>
    obtain ⟨hi, his⟩ := List.forall_mem_cons.mp h
    unfold alternativesCalls
    rw [List.flatten_append]
    exact (plain_item hi _).append (ih his)

theorem plain_calls {f : List (List FormulaItem)}
    (h : ∀ items ∈ f, ∀ item ∈ items, item.WellFormed) : Plain (calls f).flatten := by
  induction f with
  | nil => exact plain_nil
  | cons items f ih =>
    obtain ⟨hi, hf⟩ := List.forall_mem_cons.mp h
    have hsep : Plain [if f ≠ [] then [',', ' '] else []].flatten := by
      split <;> simp [Plain]
    unfold calls
    rw [List.flatten_append, List.flatten_append]
    exact ((plain_alternatives hi).append hsep).append (ih hf)

theorem takeWhile_plain {done : List Char} (h : Plain done) (tail : List Char) :
    (done ++ '\x00' :: tail).takeWhile (· ≠ '\x00') = done := by
  rw [List.takeWhile_append_of_pos]
  · simp
  · intro c hc
    rw [decide_eq_true_eq]
    rintro rfl
    exact absurd (h _ hc) (by decide)

/-! The round trip. -/

theorem roundTrips_iff_length (heap : Nat → Char) {f : List (List FormulaItem)} (h : WellFormed f) :
    RoundTrips heap f ↔ estimate f < intMax ∧ (calls f).flatten.length < estimate f := by
  have hcalls : calls f ≠ [] := by
    obtain ⟨items, fs, rfl⟩ := List.exists_cons_of_ne_nil h.ne
    simp [calls]
  have hholds : Holds { buf := (List.range (estimate f + 1)).map heap, p := 0, rlen := estimate f }
      [] (estimate f) :=
    ⟨rfl, rfl, _, rfl, by rw [List.length_map, List.length_range]⟩
  have hbound : estimate f < intMax → estimate f < 2 ^ 64 := by
    unfold intMax
    omega
  constructor
  · rintro ⟨hall, hok, -⟩
    have hint : estimate f < intMax := by
      by_contra hge
      unfold pkgDepsFormulaTostring at hok
      dsimp only at hok
      rw [if_pos (by omega)] at hok
      cases hok
    exact ⟨hint, length_of_allWhole hholds (hbound hint) hcalls hall⟩
  · rintro ⟨hint, hlen⟩
    obtain ⟨hall, w, hfold, hend⟩ := foldlM_snprintf (calls f) hholds (hbound hint) hlen
    obtain ⟨tail, hbuf⟩ := hend.resolve_left (fun h => hcalls h.1)
    refine ⟨hall, ?_, (returns_finished_iff _ _).mpr ⟨_, formulas_of_calls h⟩⟩
    unfold pkgDepsFormulaTostring
    dsimp only
    rw [if_neg (by omega), if_neg (by omega), hfold]
    show Except.ok (some (w.buf.takeWhile (· ≠ '\x00'))) = _
    rw [hbuf, List.nil_append, takeWhile_plain (plain_calls h.items)]

/-- Which of the formulas that are accepted are printed whole and read back: those that have few
enough alternatives for the separators to fit. -/
theorem pkgDepsFormulaTostring_iff (heap : Nat → Char) {s : List Char} {f : List (List FormulaItem)}
    (h : Returns s (.finished f)) :
    RoundTrips heap f ↔
      charCount f + 2 * f.flatten.length + 4 * versionCount f + 2 * optionCount f + 2 * f.length <
          intMax ∧
        f.flatten.length < 3 * f.length + 2 + shortCount f := by
  obtain ⟨e, hf⟩ := (returns_finished_iff s f).mp h
  have hwf := hf.wellFormed
  have hadd := estimate_add hwf.ne hwf.items_ne
  rw [roundTrips_iff_length heap hwf, ← estimate_eq]
  constructor
  · rintro ⟨hint, hlen⟩
    exact ⟨hint, by omega⟩
  · rintro ⟨hint, hlen⟩
    exact ⟨hint, by omega⟩

/-- Four alternatives of one letter fit. -/
theorem pkgDepsFormulaTostring_iff_four :
    RoundTrips (fun _ => ' ') [[{ name := ['a'] }, { name := ['b'] }, { name := ['c'] },
      { name := ['d'] }]] :=
  (pkgDepsFormulaTostring_iff (s := ['a', ' ', '|', 'b', ' ', '|', 'c', ' ', '|', 'd'])
    (fun _ => ' ') ⟨60, by decide⟩).mpr (by decide)

/-- The last of five alternatives is lost, and that of six is printed behind the buffer. -/
theorem pkgDepsFormulaTostring_alternatives :
    ∃ (s : List Char) (f : List (List FormulaItem)),
      Returns s (.finished f) ∧ pkgDepsFormulaTostring (fun _ => ' ') f = .error .outOfBounds ∧
        ¬ ∀ (heap : Nat → Char) (s : List Char) (f : List (List FormulaItem)),
          Returns s (.finished f) → RoundTrips heap f := by
  have hret : Returns
      ['a', ' ', '|', 'b', ' ', '|', 'c', ' ', '|', 'd', ' ', '|', 'e', ' ', '|', 'f']
      (.finished [[{ name := ['a'] }, { name := ['b'] }, { name := ['c'] }, { name := ['d'] },
        { name := ['e'] }, { name := ['f'] }]]) := ⟨100, by decide⟩
  refine ⟨_, _, hret, by decide, fun hall => ?_⟩
  obtain ⟨-, hok, -⟩ := hall (fun _ => ' ') _ _ hret
  exact absurd hok (by decide)

end NextBSD.Libpkg.Deps
