import Mathlib.Order.Compare
import Mathlib.Algebra.Order.Ring.Int
import NextBSD.Libpkg.Version
import NextBSD.Library.AsciiText
import NextBSD.Library.Compare

/-!
# Versions are totally preordered

The loop of `pkg_version_cmp` is put in terms of keys.  A version is the list of
the tokens its side of the loop reads, its blocks are compared as padded lists of
padded lists of components, and the epoch and the revision are numbers.  Two facts
make the equality shortcut agree with the loop: the case of letters does not
matter, and neither does the text after the version.
-/

namespace NextBSD.Libpkg

open AsciiCase Compare

theorem isSeparator_toLower (c : Char) : isSeparator c.toLower = isSeparator c := by
  have hp := toLower_eq_iff (c := c) (x := '+') (by decide)
  have hs := toLower_eq_iff (c := c) (x := '*') (by decide)
  simp [isSeparator, isDigit_toLower, isAlpha_toLower, hp, hs]

theorem startsWith_map_toLower {p : Char → Bool} (hp : ∀ c, p c.toLower = p c) (s : List Char) :
    startsWith p (s.map Char.toLower) = startsWith p s := by
  cases s with
  | nil => rfl
  | cons c t => simp [startsWith, hp]

theorem strtoll_map_toLower (s : List Char) : strtoll (s.map Char.toLower) = strtoll s := by
  have htake : (s.map Char.toLower).takeWhile Char.isDigit = s.takeWhile Char.isDigit := by
    induction s with
    | nil => rfl
    | cons c t ih =>
      by_cases h : c.isDigit = true
      · simp [h, ih, toLower_of_not_isAlpha (isAlpha_of_isDigit h)]
      · simp [isDigit_toLower, h]
  rw [strtoll, strtoll, leadingNumber, leadingNumber, htake]

theorem getNumber_map_toLower (s : List Char) :
    getNumber (s.map Char.toLower) =
      ((getNumber s).1, (getNumber s).2.1, (getNumber s).2.2.map Char.toLower) := by
  cases s with
  | nil => rfl
  | cons c t =>
    have hnum := strtoll_map_toLower (c :: t)
    have hdig := dropWhile_map_toLower isDigit_toLower (c :: t)
    have hplus := dropWhile_map_toLower (p := (· ≠ '+'))
      (fun c => by simp [toLower_eq_iff (show '+'.isAlpha = false by decide)]) t
    simp only [List.map_cons] at hnum hdig ⊢
    simp only [getNumber, isDigit_toLower, toLower_eq_iff (show '*'.isAlpha = false by decide),
      hnum, hdig, hplus]
    split
    · rfl
    · split <;> rfl

theorem strncaseEq_map_toLower (s name : List Char) (n : Nat) :
    strncaseEq (s.map Char.toLower) name n = strncaseEq s name n := by
  simp [strncaseEq, List.map_take, List.map_map, Function.comp_def, toLower_toLower]

theorem findStage_map_toLower (s : List Char) : findStage (s.map Char.toLower) = findStage s := by
  simp only [findStage, strncaseEq_map_toLower, ← List.map_drop,
    startsWith_map_toLower isAlpha_toLower]

theorem getLetter_map_toLower (hasstage : Bool) (s : List Char) :
    getLetter hasstage (s.map Char.toLower) =
      ((getLetter hasstage s).1, (getLetter hasstage s).2.1,
        (getLetter hasstage s).2.2.map Char.toLower) := by
  cases s with
  | nil => rfl
  | cons c t =>
    have hstage := findStage_map_toLower (c :: t)
    simp only [List.map_cons] at hstage ⊢
    simp only [getLetter, isAlpha_toLower, startsWith_map_toLower isAlpha_toLower, hstage,
      dropWhile_map_toLower isAlpha_toLower, toLower_toLower]
    by_cases ha : c.isAlpha = true
    · simp only [ha, if_true]
      cases (if startsWith Char.isAlpha t = true then findStage (c :: t) else none) with
      | none => rfl
      | some stage =>
        cases hasstage with
        | false => rfl
        | true => simp [← List.map_cons, List.map_drop]
    · simp [ha]

theorem getPatchlevel_map_toLower (haspatchlevel : Bool) (s : List Char) :
    getPatchlevel haspatchlevel (s.map Char.toLower) =
      ((getPatchlevel haspatchlevel s).1, (getPatchlevel haspatchlevel s).2.map Char.toLower) := by
  simp only [getPatchlevel, startsWith_map_toLower isDigit_toLower, strtoll_map_toLower,
    dropWhile_map_toLower isDigit_toLower]
  split
  · split <;> rfl
  · rfl

theorem getComponent_map_toLower (s : List Char) :
    getComponent (s.map Char.toLower) =
      ((getComponent s).1, (getComponent s).2.map Char.toLower) := by
  simp only [getComponent, getNumber_map_toLower, getLetter_map_toLower, getPatchlevel_map_toLower,
    dropWhile_map_toLower isSeparator_toLower]

/-! ### Text after the version -/

/-- What `endname` may point to: the end of the string, an underscore or a comma. -/
def AtEnd (s : List Char) : Prop := s = [] ∨ ∃ t, s = '_' :: t ∨ s = ',' :: t

theorem AtEnd.startsWith_isAlpha {s : List Char} (h : AtEnd s) :
    startsWith Char.isAlpha s = false := by
  rcases h with h | ⟨t, h | h⟩ <;> rw [h] <;> rfl

theorem AtEnd.startsWith_isDigit {s : List Char} (h : AtEnd s) :
    startsWith Char.isDigit s = false := by
  rcases h with h | ⟨t, h | h⟩ <;> rw [h] <;> rfl

theorem startsWith_append {p : Char → Bool} {s : List Char} (hs : startsWith p s = false)
    (q : List Char) : startsWith p (q ++ s) = startsWith p q := by
  cases q with
  | nil => exact hs
  | cons c t => rfl

theorem dropWhile_append_of_stop {p : Char → Bool} {s : List Char} (hs : startsWith p s = false)
    (q : List Char) : (q ++ s).dropWhile p = q.dropWhile p ++ s := by
  induction q with
  | nil =>
    cases s with
    | nil => rfl
    | cons c t =>
      have hc : p c = false := by simpa [startsWith] using hs
      simp [hc]
  | cons c t ih =>
    by_cases hc : p c = true
    · simp [hc, ih]
    · simp [hc]

theorem strtoll_append {s : List Char} (hs : startsWith Char.isDigit s = false) (q : List Char) :
    strtoll (q ++ s) = strtoll q := by
  have htake : (q ++ s).takeWhile Char.isDigit = q.takeWhile Char.isDigit := by
    induction q with
    | nil =>
      cases s with
      | nil => rfl
      | cons c t =>
        have hc : c.isDigit = false := by simpa [startsWith] using hs
        simp [hc]
    | cons c t ih =>
      by_cases hc : c.isDigit = true
      · simp [hc, ih]
      · simp [hc]
  rw [strtoll, strtoll, leadingNumber, leadingNumber, htake]

theorem isAlpha_of_mem_stage {stage : Stage} (h : stage ∈ stages) :
    ∀ c ∈ stage.name, c.isAlpha = true := by
  simp only [stages, List.mem_cons, List.not_mem_nil, or_false] at h
  rcases h with rfl | rfl | rfl | rfl | rfl | rfl <;> simp [Char.isAlpha, Char.isLower]

theorem strncaseEq_append {s name : List Char} (hs : startsWith Char.isAlpha s = false)
    (hname : ∀ c ∈ name, c.isAlpha = true) {q : List Char} (hq : q.length < name.length) :
    strncaseEq (q ++ s) name name.length = false := by
  by_contra h
  have heq : ((q ++ s).take name.length).map Char.toLower = name.map Char.toLower := by
    simpa [strncaseEq] using h
  cases s with
  | nil =>
    have hlen := congrArg List.length heq
    simp only [List.append_nil, List.length_map, List.length_take] at hlen
    omega
  | cons c t =>
    have hmem : c ∈ (q ++ c :: t).take name.length := by
      rw [List.take_append, List.mem_append]
      apply Or.inr
      have hpos : name.length - q.length = (name.length - q.length - 1) + 1 := by omega
      rw [hpos]
      simp
    have hlow : c.toLower ∈ name.map Char.toLower := heq ▸ List.mem_map_of_mem hmem
    obtain ⟨d, hd, hcd⟩ := List.mem_map.mp hlow
    have halpha : c.isAlpha = true := by
      rw [← isAlpha_toLower, ← hcd, isAlpha_toLower]
      exact hname d hd
    simp [startsWith, halpha] at hs

theorem findStage_append {s : List Char} (hs : startsWith Char.isAlpha s = false) (q : List Char) :
    findStage (q ++ s) = findStage q := by
  have hall : ∀ l : List Stage, (∀ stage ∈ l, ∀ c ∈ stage.name, c.isAlpha = true) →
      (l.find? fun stage => strncaseEq (q ++ s) stage.name stage.name.length &&
        !startsWith Char.isAlpha ((q ++ s).drop stage.name.length)) =
      l.find? fun stage => strncaseEq q stage.name stage.name.length &&
        !startsWith Char.isAlpha (q.drop stage.name.length) := by
    intro l
    induction l with
    | nil => intro _; rfl
    | cons stage l ih =>
      intro h
      have hname := h stage (by simp)
      have htest : (strncaseEq (q ++ s) stage.name stage.name.length &&
          !startsWith Char.isAlpha ((q ++ s).drop stage.name.length)) =
          (strncaseEq q stage.name stage.name.length &&
          !startsWith Char.isAlpha (q.drop stage.name.length)) := by
        by_cases hlen : q.length < stage.name.length
        · have hq := strncaseEq_append (s := []) rfl hname hlen
          rw [List.append_nil] at hq
          rw [strncaseEq_append hs hname hlen, hq, Bool.false_and, Bool.false_and]
        · have hle : stage.name.length ≤ q.length := by omega
          rw [strncaseEq, strncaseEq, List.take_append_of_le_length hle,
            List.drop_append_of_le_length hle, startsWith_append hs]
      rw [List.find?_cons, List.find?_cons, htest, ih fun st hst => h st (by simp [hst])]
  exact hall stages fun stage hstage => isAlpha_of_mem_stage hstage

theorem getNumber_append {s : List Char} (hs : AtEnd s) {c : Char} (hc : c ≠ '*') (t : List Char) :
    getNumber (c :: t ++ s) =
      ((getNumber (c :: t)).1, (getNumber (c :: t)).2.1, (getNumber (c :: t)).2.2 ++ s) := by
  have hnum := strtoll_append hs.startsWith_isDigit (c :: t)
  have hdrop := dropWhile_append_of_stop hs.startsWith_isDigit (c :: t)
  rw [List.cons_append] at hnum hdrop ⊢
  simp only [getNumber, hnum, hdrop, hc, if_false]
  split <;> rfl

theorem findStage_length {q : List Char} {stage : Stage} (h : findStage q = some stage) :
    stage.name.length ≤ q.length := by
  have heq := List.find?_some h
  simp only [strncaseEq, Bool.and_eq_true, decide_eq_true_eq] at heq
  have hlen := congrArg List.length heq.1
  simp only [List.length_map, List.length_take] at hlen
  omega

theorem getLetter_append {s : List Char} (hs : AtEnd s) (hasstage : Bool) (q : List Char) :
    getLetter hasstage (q ++ s) =
      ((getLetter hasstage q).1, (getLetter hasstage q).2.1, (getLetter hasstage q).2.2 ++ s) := by
  cases q with
  | nil =>
    rcases hs with h | ⟨t, h | h⟩ <;> rw [h] <;> rfl
  | cons c t =>
    have hstage := findStage_append hs.startsWith_isAlpha (c :: t)
    rw [List.cons_append] at hstage ⊢
    simp only [getLetter, startsWith_append hs.startsWith_isAlpha, hstage,
      dropWhile_append_of_stop hs.startsWith_isAlpha]
    by_cases ha : c.isAlpha = true
    · simp only [ha, if_true]
      cases hf : (if startsWith Char.isAlpha t = true then findStage (c :: t) else none) with
      | none => rfl
      | some stage =>
        have hlen : stage.name.length ≤ (c :: t).length := by
          split at hf
          · exact findStage_length hf
          · cases hf
        cases hasstage with
        | false => rfl
        | true =>
          simp only [if_true]
          rw [← List.cons_append, List.drop_append_of_le_length hlen]
    · simp [ha]

theorem getPatchlevel_append {s : List Char} (hs : AtEnd s) (haspatchlevel : Bool)
    (q : List Char) : getPatchlevel haspatchlevel (q ++ s) =
      ((getPatchlevel haspatchlevel q).1, (getPatchlevel haspatchlevel q).2 ++ s) := by
  simp only [getPatchlevel, startsWith_append hs.startsWith_isDigit,
    strtoll_append hs.startsWith_isDigit, dropWhile_append_of_stop hs.startsWith_isDigit]
  split
  · split <;> rfl
  · rfl

/-- `r` is where the scan of a version followed by `s` stands, when the scan of the
version alone stands at `q`. -/
def Resumes (s q r : List Char) : Prop := (q ≠ [] ∧ r = q ++ s) ∨ (q = [] ∧ r.length ≤ s.length)

theorem resumes_append (s q : List Char) : Resumes s q (q ++ s) := by
  cases q with
  | nil => exact Or.inr ⟨rfl, by simp⟩
  | cons c t => exact Or.inl ⟨by simp, rfl⟩

theorem resumes_dropWhile (p : Char → Bool) (s q : List Char) :
    Resumes s (q.dropWhile p) ((q ++ s).dropWhile p) := by
  rw [List.dropWhile_append]
  by_cases h : q.dropWhile p = []
  · rw [h]
    exact Or.inr ⟨rfl, (List.dropWhile_sublist p).length_le⟩
  · rw [if_neg (by simpa using h)]
    exact Or.inl ⟨h, rfl⟩

theorem getComponent_star (t : List Char) :
    getComponent ('*' :: t) = ({ n := -2 }, t.dropWhile (· ≠ '+')) := by
  have hstop : t.dropWhile (· ≠ '+') = [] ∨ ∃ r, t.dropWhile (· ≠ '+') = '+' :: r := by
    cases h : t.dropWhile (· ≠ '+') with
    | nil => exact Or.inl rfl
    | cons c r =>
      have hc := List.head?_dropWhile_not (· ≠ '+') t
      rw [h] at hc
      exact Or.inr ⟨r, by simpa using hc⟩
  have hnum : getNumber ('*' :: t) = (-2, false, t.dropWhile (· ≠ '+')) := by
    simp [getNumber, Char.isDigit]
  rw [getComponent, hnum]
  generalize t.dropWhile (· ≠ '+') = q at hstop
  rcases hstop with h | ⟨r, h⟩ <;> rw [h] <;> rfl

theorem getComponent_append {s : List Char} (hs : AtEnd s) (c : Char) (t : List Char) :
    (getComponent (c :: t ++ s)).1 = (getComponent (c :: t)).1 ∧
      Resumes s (getComponent (c :: t)).2 (getComponent (c :: t ++ s)).2 := by
  by_cases hc : c = '*'
  · rw [hc, List.cons_append, getComponent_star, getComponent_star]
    exact ⟨rfl, resumes_dropWhile _ s t⟩
  · simp only [getComponent, getNumber_append hs hc, getLetter_append hs,
      getPatchlevel_append hs, true_and]
    exact resumes_dropWhile _ s _

theorem getNumber_length (c : Char) (t : List Char) :
    (getNumber (c :: t)).2.2.length ≤ t.length ∨
      (c.isDigit = false ∧ c ≠ '*' ∧ getNumber (c :: t) = (-1, true, c :: t)) := by
  by_cases hd : c.isDigit = true
  · apply Or.inl
    have h := (List.dropWhile_sublist (l := t) Char.isDigit).length_le
    simpa [getNumber, hd] using h
  · by_cases hc : c = '*'
    · apply Or.inl
      have h := (List.dropWhile_sublist (l := t) (· ≠ '+')).length_le
      simpa [getNumber, hd, hc, Char.isDigit] using h
    · apply Or.inr
      simp [getNumber, hd, hc]

theorem getLetter_length_le (hasstage : Bool) (q : List Char) :
    (getLetter hasstage q).2.2.length ≤ q.length := by
  cases q with
  | nil => simp [getLetter]
  | cons c t =>
    have h := (List.dropWhile_sublist (l := t) Char.isAlpha).length_le
    simp only [getLetter]
    split
    · split
      · split <;> simp
      · simp only [List.length_cons]; omega
    · exact Nat.le_refl _

theorem getPatchlevel_length_le (haspatchlevel : Bool) (q : List Char) :
    (getPatchlevel haspatchlevel q).2.length ≤ q.length := by
  have h := (List.dropWhile_sublist (l := q) Char.isDigit).length_le
  simp only [getPatchlevel]
  split
  · split
    · exact h
    · exact Nat.le_refl _
  · exact Nat.le_refl _

theorem stage_name_pos {stage : Stage} (h : stage ∈ stages) : 0 < stage.name.length := by
  simp only [stages, List.mem_cons, List.not_mem_nil, or_false] at h
  rcases h with rfl | rfl | rfl | rfl | rfl | rfl <;> simp

theorem getLetter_length_lt {c : Char} (hc : c.isAlpha = true) (t : List Char) :
    (getLetter true (c :: t)).2.2.length ≤ t.length := by
  simp only [getLetter, hc, if_true]
  cases hf : (if startsWith Char.isAlpha t = true then findStage (c :: t) else none) with
  | none => exact (List.dropWhile_sublist (l := t) Char.isAlpha).length_le
  | some stage =>
    have hmem : stage ∈ stages := by
      split at hf
      · exact List.mem_of_find?_eq_some hf
      · cases hf
    have hpos := stage_name_pos hmem
    simp only [List.length_drop, List.length_cons]
    omega

theorem getComponent_length {c : Char} (hc : c ≠ '+') (t : List Char) :
    (getComponent (c :: t)).2.length ≤ t.length := by
  have hsep (q : List Char) := (List.dropWhile_sublist (l := q) isSeparator).length_le
  have hlet := getLetter_length_le (getNumber (c :: t)).2.1 (getNumber (c :: t)).2.2
  simp only [getComponent]
  rcases getNumber_length c t with hnum | ⟨hd, hstar, hnum⟩
  · have hpat := getPatchlevel_length_le
      (getLetter (getNumber (c :: t)).2.1 (getNumber (c :: t)).2.2).2.1
      (getLetter (getNumber (c :: t)).2.1 (getNumber (c :: t)).2.2).2.2
    exact Nat.le_trans (hsep _) (Nat.le_trans hpat (Nat.le_trans hlet hnum))
  · rw [hnum]
    by_cases ha : c.isAlpha = true
    · have hpat := getPatchlevel_length_le (getLetter true (c :: t)).2.1
        (getLetter true (c :: t)).2.2
      exact Nat.le_trans (hsep _) (Nat.le_trans hpat (getLetter_length_lt ha t))
    · have hs : isSeparator c = true := by simp [isSeparator, hd, ha, hc, hstar]
      simp only [getLetter, ha, if_false, Bool.false_eq_true, getPatchlevel]
      rw [List.dropWhile_cons_of_pos hs]
      exact hsep t

/-- What one side of the loop reads up to its end: components, and `none` for a `+`.
As many tokens as characters are enough. -/
def tokens : Nat → List Char → List Char → List (Option VersionComponent)
  | 0, _, _ => []
  | fuel + 1, v, ve =>
    if ve.length < v.length then
      match readComponent v ve with
      | none => none :: tokens fuel v.tail ve
      | some (vc, v') => some vc :: tokens fuel v' ve
    else []

theorem readComponent_length {v ve v' : List Char} {vc : VersionComponent}
    (h : readComponent v ve = some (vc, v')) : v'.length < v.length := by
  cases v with
  | nil => simp [readComponent] at h
  | cons c t =>
    obtain ⟨hread, hpair⟩ := Option.ite_none_right_eq_some.mp h
    have hc : c ≠ '+' := by simpa using hread.2
    have hle := getComponent_length hc t
    rw [Option.some.inj hpair] at hle
    simp only at hle
    simp only [List.length_cons]
    omega

theorem tokens_fuel (ve : List Char) {m n : Nat} {v : List Char} (hm : v.length ≤ m)
    (hn : v.length ≤ n) : tokens m v ve = tokens n v ve := by
  induction m generalizing n v with
  | zero =>
    have hv : v = [] := List.length_eq_zero_iff.mp (Nat.le_zero.mp hm)
    cases n with
    | zero => rfl
    | succ n => simp [tokens, hv]
  | succ m ih =>
    cases n with
    | zero =>
      have hv : v = [] := List.length_eq_zero_iff.mp (Nat.le_zero.mp hn)
      simp [tokens, hv]
    | succ n =>
      simp only [tokens]
      by_cases hlt : ve.length < v.length
      · rw [if_pos hlt, if_pos hlt]
        cases hr : readComponent v ve with
        | none =>
          have htail : v.tail.length < v.length := by simp only [List.length_tail]; omega
          simp only
          rw [ih (n := n) (by omega) (by omega)]
        | some r =>
          have hlen := @readComponent_length _ _ r.2 r.1 hr
          simp only
          rw [ih (n := n) (by omega) (by omega)]
      · rw [if_neg hlt, if_neg hlt]

theorem tokens_resumes {s : List Char} (hs : AtEnd s) (fuel : Nat) {q r : List Char}
    (h : Resumes s q r) : tokens fuel r s = tokens fuel q [] := by
  induction fuel generalizing q r with
  | zero => rfl
  | succ fuel ih =>
    rcases h with ⟨hq, hr⟩ | ⟨hq, hr⟩
    · cases q with
      | nil => exact absurd rfl hq
      | cons c t =>
        have hlt : s.length < (c :: t ++ s).length := by
          simp only [List.length_append, List.length_cons]
          omega
        rw [hr, tokens, tokens, if_pos hlt, if_pos (by simp)]
        by_cases hc : c = '+'
        · rw [readComponent, readComponent, if_neg (by simp [hc]), if_neg (by simp [hc])]
          simp only [List.cons_append, List.tail_cons, ih (resumes_append s t)]
        · obtain ⟨hcomp, hres⟩ := getComponent_append hs c t
          rw [readComponent, readComponent, if_pos ⟨hlt, by simpa using hc⟩,
            if_pos ⟨by simp, by simpa using hc⟩]
          simp only [hcomp, ih hres]
    · have hnot : ¬ s.length < r.length := by omega
      simp [tokens, hq, hnot]

theorem tokens_map_toLower (fuel : Nat) (q : List Char) :
    tokens fuel (q.map Char.toLower) [] = tokens fuel q [] := by
  induction fuel generalizing q with
  | zero => rfl
  | succ fuel ih =>
    cases q with
    | nil => rfl
    | cons c t =>
      have hcomp := getComponent_map_toLower (c :: t)
      rw [List.map_cons] at hcomp ⊢
      have hplus := toLower_eq_iff (c := c) (show '+'.isAlpha = false by decide)
      by_cases hc : c = '+'
      · simp [tokens, readComponent, hc, ih]
      · simp [tokens, readComponent, hplus, hc, hcomp, ih]

/-! ### The loop is a padded comparison -/

def compareComponent (vc1 vc2 : VersionComponent) : Ordering :=
  (compare vc1.n vc2.n).then ((compare vc1.a vc2.a).then (compare vc1.pl vc2.pl))

theorem compareComponent_transCmp : Std.TransCmp compareComponent :=
  then_transCmp (comap_transCmp VersionComponent.n inferInstance)
    (then_transCmp (comap_transCmp VersionComponent.a inferInstance)
      (comap_transCmp VersionComponent.pl inferInstance))

theorem compareComponents_eq (vc1 vc2 : VersionComponent) :
    compareComponents vc1 vc2 = toInt (compareComponent vc1 vc2) := by
  have key (x y r : Int) (o : Ordering) (h : r = toInt o) :
      (if x ≠ y then if x < y then -1 else 1 else r) = toInt ((compare x y).then o) := by
    rcases Int.lt_trichotomy x y with hlt | heq | hgt
    · rw [if_pos (by omega), if_pos hlt, compare_lt_iff_lt.mpr hlt]; rfl
    · rw [if_neg (by omega), compare_eq_iff_eq.mpr heq, h]; rfl
    · rw [if_pos (by omega), if_neg (by omega), compare_gt_iff_gt.mpr hgt]; rfl
  refine key _ _ _ _ (key _ _ _ _ ?_)
  have hlast := key vc1.pl vc2.pl 0 .eq rfl
  rwa [Ordering.then_eq] at hlast

def blocks : List (Option VersionComponent) → List (List VersionComponent)
  | [] => []
  | none :: t => [] :: blocks t
  | some vc :: t => (vc :: (blocks t).headD []) :: (blocks t).tail

def compareBlocks : List VersionComponent → List VersionComponent → Ordering :=
  padLex compareComponent {}

def compareTokens (t1 t2 : List (Option VersionComponent)) : Ordering :=
  padLex compareBlocks [] (blocks t1) (blocks t2)

theorem compareTokens_transCmp : Std.TransCmp compareTokens :=
  have := compareComponent_transCmp
  have : Std.TransCmp compareBlocks := padLex_transCmp
  comap_transCmp blocks padLex_transCmp

theorem compareTokens_self (t : List (Option VersionComponent)) : compareTokens t t = .eq :=
  have := compareTokens_transCmp
  Std.ReflCmp.compare_self

def readToken : List (Option VersionComponent) → VersionComponent × List (Option VersionComponent)
  | some vc :: t => (vc, t)
  | t => ({}, t)

theorem compareTokens_read (t1 t2 : List (Option VersionComponent)) :
    compareTokens t1 t2 = (compareComponent (readToken t1).1 (readToken t2).1).then
      (compareTokens (readToken t1).2 (readToken t2).2) := by
  have := compareComponent_transCmp
  have : Std.TransCmp compareBlocks := padLex_transCmp
  have hread (t : List (Option VersionComponent)) :
      ((blocks t).headD []).headD {} = (readToken t).1 ∧
      ((blocks t).headD []).tail = (blocks (readToken t).2).headD [] ∧
      (blocks t).tail = (blocks (readToken t).2).tail := by
    cases t with
    | nil => exact ⟨rfl, rfl, rfl⟩
    | cons a t => cases a <;> exact ⟨rfl, rfl, rfl⟩
  obtain ⟨hc1, ht1, hb1⟩ := hread t1
  obtain ⟨hc2, ht2, hb2⟩ := hread t2
  rw [compareTokens, padLex_step, compareBlocks, padLex_step, hc1, hc2, ht1, ht2, hb1, hb2,
    Ordering.then_assoc]
  congr 1
  rw [compareTokens, padLex_step (blocks (readToken t1).2)]
  rfl

theorem compareTokens_skip {t1 t2 : List (Option VersionComponent)} (h1 : t1.head?.join = none)
    (h2 : t2.head?.join = none) : compareTokens t1 t2 = compareTokens t1.tail t2.tail := by
  have := compareComponent_transCmp
  have : Std.TransCmp compareBlocks := padLex_transCmp
  have hblocked {t : List (Option VersionComponent)} (h : t.head?.join = none) :
      (blocks t).headD [] = [] ∧ (blocks t).tail = blocks t.tail := by
    cases t with
    | nil => exact ⟨rfl, rfl⟩
    | cons a t =>
      cases a with
      | none => exact ⟨rfl, rfl⟩
      | some vc => cases h
  obtain ⟨hb1, ht1⟩ := hblocked h1
  obtain ⟨hb2, ht2⟩ := hblocked h2
  rw [compareTokens, padLex_step, hb1, hb2, ht1, ht2]
  rfl

def versionTokens (v ve : List Char) : List (Option VersionComponent) := tokens v.length v ve

theorem versionTokens_of_le {v ve : List Char} (h : v.length ≤ ve.length) :
    versionTokens v ve = [] := by
  rw [versionTokens, tokens_fuel ve (Nat.le_refl _) (Nat.le_succ _), tokens, if_neg (by omega)]

theorem versionTokens_some {v ve v' : List Char} {vc : VersionComponent}
    (h : readComponent v ve = some (vc, v')) :
    versionTokens v ve = some vc :: versionTokens v' ve := by
  have hlt : ve.length < v.length := (Option.ite_none_right_eq_some.mp h).1.1
  have hlen := readComponent_length h
  rw [versionTokens, tokens_fuel ve (Nat.le_refl _) (Nat.le_succ _), tokens, if_pos hlt, h]
  simp only
  rw [versionTokens, tokens_fuel ve (by omega) (Nat.le_refl _)]

theorem versionTokens_none {v ve : List Char} (h : readComponent v ve = none) :
    (versionTokens v ve).head?.join = none ∧
      versionTokens (skipBlock v ve) ve = (versionTokens v ve).tail := by
  by_cases hlt : ve.length < v.length
  · have htok : versionTokens v ve = none :: versionTokens v.tail ve := by
      rw [versionTokens, tokens_fuel ve (Nat.le_refl _) (Nat.le_succ _), tokens, if_pos hlt, h]
      simp only
      rw [versionTokens, tokens_fuel ve (by simp) (Nat.le_refl _)]
    rw [htok, skipBlock, if_pos hlt]
    exact ⟨rfl, rfl⟩
  · rw [skipBlock, if_neg hlt, versionTokens_of_le (by omega)]
    exact ⟨rfl, rfl⟩

theorem readToken_versionTokens (v ve : List Char) :
    readToken (versionTokens v ve) =
      (((readComponent v ve).getD ({}, v)).1,
        versionTokens ((readComponent v ve).getD ({}, v)).2 ve) := by
  cases h : readComponent v ve with
  | some r => rw [@versionTokens_some _ _ r.2 r.1 h]; rfl
  | none =>
    have hnone := (versionTokens_none h).1
    cases ht : versionTokens v ve with
    | nil => simp [readToken, ht]
    | cons a t =>
      rw [ht] at hnone
      cases a with
      | none => simp [readToken, ht]
      | some vc => cases hnone

/-- Enough rounds give the comparison of the tokens.  Every round takes a character
from at least one side. -/
theorem versionLoop_eq (ve1 ve2 : List Char) {fuel : Nat} {v1 v2 : List Char}
    (hf : v1.length + v2.length ≤ fuel) :
    versionLoop ve1 ve2 fuel v1 v2 =
      some (toInt (compareTokens (versionTokens v1 ve1) (versionTokens v2 ve2))) := by
  induction fuel generalizing v1 v2 with
  | zero =>
    rw [versionLoop, if_neg (by omega), versionTokens_of_le (by omega),
      versionTokens_of_le (by omega), compareTokens_self]
    rfl
  | succ fuel ih =>
    rw [versionLoop]
    by_cases hgo : ve1.length < v1.length ∨ ve2.length < v2.length
    · rw [if_pos hgo]
      have hread : ∀ r1 r2 : Option (VersionComponent × List Char),
          readComponent v1 ve1 = r1 → readComponent v2 ve2 = r2 → (r1 ≠ none ∨ r2 ≠ none) →
          (let result := compareComponents (r1.getD ({}, v1)).1 (r2.getD ({}, v2)).1
            if result ≠ 0 then some result
            else versionLoop ve1 ve2 fuel (r1.getD ({}, v1)).2 (r2.getD ({}, v2)).2) =
          some (toInt (compareTokens (versionTokens v1 ve1) (versionTokens v2 ve2))) := by
        intro r1 r2 h1 h2 hne
        have hlen : (r1.getD ({}, v1)).2.length + (r2.getD ({}, v2)).2.length ≤ fuel := by
          have hshrink (v ve : List Char) (r : Option (VersionComponent × List Char))
              (h : readComponent v ve = r) : (r.getD ({}, v)).2.length ≤ v.length ∧
                (r ≠ none → (r.getD ({}, v)).2.length < v.length) := by
            cases r with
            | none => simp
            | some r =>
              have hlt := @readComponent_length _ _ r.2 r.1 h
              exact ⟨Nat.le_of_lt hlt, fun _ => hlt⟩
          obtain ⟨hle1, hlt1⟩ := hshrink v1 ve1 r1 h1
          obtain ⟨hle2, hlt2⟩ := hshrink v2 ve2 r2 h2
          rcases hne with hne | hne
          · have := hlt1 hne; omega
          · have := hlt2 hne; omega
        simp only
        rw [compareTokens_read, readToken_versionTokens, readToken_versionTokens, h1, h2,
          compareComponents_eq, ih hlen]
        cases compareComponent (r1.getD ({}, v1)).1 (r2.getD ({}, v2)).1 <;> simp [toInt]
      cases h1 : readComponent v1 ve1 with
      | some r1 => exact hread (some r1) _ h1 rfl (Or.inl (by simp))
      | none =>
        cases h2 : readComponent v2 ve2 with
        | some r2 => exact hread none (some r2) h1 h2 (Or.inr (by simp))
        | none =>
          obtain ⟨hb1, ht1⟩ := versionTokens_none h1
          obtain ⟨hb2, ht2⟩ := versionTokens_none h2
          have hlen : (skipBlock v1 ve1).length + (skipBlock v2 ve2).length ≤ fuel := by
            simp only [skipBlock]
            split <;> split <;> simp only [List.length_tail] at * <;> omega
          rw [compareTokens_skip hb1 hb2, ← ht1, ← ht2]
          exact ih hlen
    · rw [if_neg hgo, versionTokens_of_le (by omega), versionTokens_of_le (by omega),
        compareTokens_self]
      rfl

/-! ### The whole comparison -/

theorem strrchr_eq_some {s r : List Char} {x : Char} (h : strrchr s x = some r) :
    r <:+ s ∧ ∃ t, r = x :: t := by
  induction s with
  | nil => cases h
  | cons c t ih =>
    rw [strrchr] at h
    cases ht : strrchr t x with
    | some r' =>
      rw [ht] at h
      obtain ⟨hsuf, hhead⟩ := ih (ht.trans h)
      exact ⟨hsuf.trans (List.suffix_cons c t), hhead⟩
    | none =>
      rw [ht] at h
      obtain ⟨hc, hr⟩ := Option.ite_none_right_eq_some.mp h
      rw [← Option.some.inj hr, hc]
      exact ⟨List.suffix_refl _, t, rfl⟩

theorem splitVersion_endname (pkgname : List Char) :
    AtEnd (splitVersion pkgname).endname ∧
      (splitVersion pkgname).endname <:+ (splitVersion pkgname).versionstr := by
  simp only [splitVersion]
  generalize versionPart pkgname = v
  cases hu : strrchr v '_' with
  | some ch =>
    obtain ⟨hsuf, t, ht⟩ := strrchr_eq_some hu
    exact ⟨Or.inr ⟨t, Or.inl ht⟩, hsuf⟩
  | none =>
    cases hc : strrchr v ',' with
    | some ch =>
      obtain ⟨hsuf, t, ht⟩ := strrchr_eq_some hc
      exact ⟨Or.inr ⟨t, Or.inr ht⟩, hsuf⟩
    | none => exact ⟨Or.inl rfl, List.nil_suffix⟩

theorem versionTokens_splitVersion (pkgname : List Char) :
    let s := splitVersion pkgname
    let p := s.versionstr.take (s.versionstr.length - s.endname.length)
    versionTokens s.versionstr s.endname = versionTokens (p.map Char.toLower) [] := by
  obtain ⟨hend, q, hq⟩ := splitVersion_endname pkgname
  simp only
  rw [← hq]
  have htake : (q ++ (splitVersion pkgname).endname).take
      ((q ++ (splitVersion pkgname).endname).length - (splitVersion pkgname).endname.length) = q := by
    rw [List.length_append, Nat.add_sub_cancel, List.take_left]
  rw [htake, versionTokens, versionTokens, tokens_resumes hend _ (resumes_append _ q),
    tokens_map_toLower, List.length_map]
  exact tokens_fuel [] (by simp) (Nat.le_refl _)

def compareVersions (s1 s2 : SplitVersion) : Ordering :=
  (compare s1.epoch s2.epoch).then
    ((compareTokens (versionTokens s1.versionstr s1.endname)
      (versionTokens s2.versionstr s2.endname)).then (compare s1.revision s2.revision))

theorem compareVersions_transCmp : Std.TransCmp compareVersions :=
  then_transCmp (comap_transCmp SplitVersion.epoch inferInstance)
    (then_transCmp
      (comap_transCmp (fun s : SplitVersion => versionTokens s.versionstr s.endname)
        compareTokens_transCmp)
      (comap_transCmp SplitVersion.revision inferInstance))

theorem compareVersions_self (s : SplitVersion) : compareVersions s s = .eq :=
  have := compareVersions_transCmp
  Std.ReflCmp.compare_self

theorem toInt_compare_nat (x y : Nat) :
    (if x ≠ y then if x < y then (-1 : Int) else 1 else 0) = toInt (compare x y) := by
  rcases Nat.lt_trichotomy x y with h | h | h
  · rw [if_pos (by omega), if_pos h, Nat.compare_eq_lt.mpr h]; rfl
  · rw [if_neg (by omega), Nat.compare_eq_eq.mpr h]; rfl
  · rw [if_pos (by omega), if_neg (by omega), Nat.compare_eq_gt.mpr h]; rfl

theorem splitVersion_length (pkgname : List Char) :
    (splitVersion pkgname).versionstr.length ≤ pkgname.length := by
  show (versionPart pkgname).length ≤ pkgname.length
  cases h : strrchr pkgname '-' with
  | none => simp [versionPart, h]
  | some ch =>
    have hsuf := (strrchr_eq_some h).1.length_le
    simp only [versionPart, h, List.length_tail]
    omega

theorem pkgVersionCmp_eq {pkg1 pkg2 : String} {fuel : Nat}
    (hf : pkg1.length + pkg2.length ≤ fuel) :
    pkgVersionCmp fuel pkg1 pkg2 =
      some (toInt (compareVersions (splitVersion pkg1.toList) (splitVersion pkg2.toList))) := by
  have ht1 := versionTokens_splitVersion pkg1.toList
  have ht2 := versionTokens_splitVersion pkg2.toList
  have hlen1 := splitVersion_length pkg1.toList
  have hlen2 := splitVersion_length pkg2.toList
  rw [String.length_toList] at hlen1 hlen2
  simp only at ht1 ht2
  simp only [pkgVersionCmp, compareVersions]
  generalize splitVersion pkg1.toList = s1 at *
  generalize splitVersion pkg2.toList = s2 at *
  rw [toInt_compare_nat]
  have hloop := @versionLoop_eq s1.endname s2.endname fuel s1.versionstr s2.versionstr (by omega)
  cases compare s1.epoch s2.epoch with
  | lt => rfl
  | gt => rfl
  | eq =>
    have hresult : (if toInt .eq = 0 ∧
        (s1.versionstr.length - s1.endname.length ≠ s2.versionstr.length - s2.endname.length ∨
          strncaseEq s1.versionstr s2.versionstr
            (s1.versionstr.length - s1.endname.length) = false) then
          versionLoop s1.endname s2.endname fuel s1.versionstr s2.versionstr
        else some (toInt .eq)) =
        some (toInt (compareTokens (versionTokens s1.versionstr s1.endname)
          (versionTokens s2.versionstr s2.endname))) := by
      by_cases hdiff : s1.versionstr.length - s1.endname.length ≠
          s2.versionstr.length - s2.endname.length ∨ strncaseEq s1.versionstr s2.versionstr
            (s1.versionstr.length - s1.endname.length) = false
      · rw [if_pos ⟨rfl, hdiff⟩, hloop]
      · -- the shortcut: equal bytes up to case are equal tokens
        rw [if_neg (fun h => hdiff h.2)]
        simp only [not_or, not_not, Bool.not_eq_false, strncaseEq, decide_eq_true_eq] at hdiff
        rw [ht1, ht2, ← hdiff.1, hdiff.2, compareTokens_self]
    rw [hresult]
    have hrev := toInt_compare_nat s1.revision s2.revision
    cases compareTokens (versionTokens s1.versionstr s1.endname)
      (versionTokens s2.versionstr s2.endname) with
    | lt => rfl
    | gt => rfl
    | eq => simpa [toInt] using hrev

/-- `pkg_version_cmp` with as much fuel as it can need. -/
def versionCmp (pkg1 pkg2 : String) : Int :=
  (pkgVersionCmp (pkg1.length + pkg2.length) pkg1 pkg2).getD 0

theorem versionCmp_eq (a b : String) :
    versionCmp a b = toInt (compareVersions (splitVersion a.toList) (splitVersion b.toList)) := by
  unfold versionCmp
  rw [pkgVersionCmp_eq (Nat.le_refl _)]
  rfl

theorem versionCmp_self (pkg : String) : versionCmp pkg pkg = 0 := by
  rw [versionCmp_eq, compareVersions_self]
  rfl

theorem versionCmp_swap (a b : String) : versionCmp b a = -versionCmp a b := by
  have htrans := compareVersions_transCmp
  rw [versionCmp_eq, versionCmp_eq, ← toInt_swap]
  exact congrArg toInt Std.OrientedCmp.eq_swap

theorem versionCmp_trans {a b c : String} (hab : versionCmp a b ≤ 0) (hbc : versionCmp b c ≤ 0) :
    versionCmp a c ≤ 0 := by
  have htrans := compareVersions_transCmp
  rw [versionCmp_eq, toInt_le_zero] at hab hbc ⊢
  exact Std.TransCmp.isLE_trans hab hbc

/-- `pkg_version_cmp` is a total preorder on all strings, and its loop ends after at
most as many rounds as the two strings have characters. -/
theorem pkgVersionCmp_totalPreorder :
    ∃ cmp : String → String → Int,
      (∀ a b fuel, a.length + b.length ≤ fuel → pkgVersionCmp fuel a b = some (cmp a b)) ∧
      (∀ a b, cmp a b = -cmp b a) ∧ (∀ a, cmp a a = 0) ∧
      ∀ a b c, cmp a b ≤ 0 → cmp b c ≤ 0 → cmp a c ≤ 0 := by
  have htrans : Std.TransCmp
      (fun a b : String => compareVersions (splitVersion a.toList) (splitVersion b.toList)) :=
    comap_transCmp (fun a : String => splitVersion a.toList) compareVersions_transCmp
  refine ⟨fun a b => toInt (compareVersions (splitVersion a.toList) (splitVersion b.toList)),
    fun a b fuel hf => pkgVersionCmp_eq hf, fun a b => ?_, fun a => ?_, fun a b c hab hbc => ?_⟩
  · rw [← toInt_swap]
    exact congrArg toInt (htrans.eq_swap (a := a) (b := b))
  · exact toInt_eq_zero.mpr (compareVersions_self _)
  · rw [toInt_le_zero] at hab hbc ⊢
    exact htrans.isLE_trans (a := a) (b := b) (c := c) hab hbc

end NextBSD.Libpkg
