import Mathlib

/-!
# Case of ASCII letters

`Char.toLower` maps upper case letters and leaves every other character alone, so
a test that does not look at case cannot see it.
-/

namespace NextBSD.AsciiCase

theorem val_toLower (c : Char) : c.toLower.val.toNat =
    if 65 ≤ c.val.toNat ∧ c.val.toNat ≤ 90 then c.val.toNat + 32 else c.val.toNat := by
  have hA : 'A'.val.toNat = 65 := rfl
  have hZ : 'Z'.val.toNat = 90 := rfl
  have h32 : ('a'.val - 'A'.val).toNat = 32 := rfl
  simp only [Char.toLower, ge_iff_le, UInt32.le_iff_toNat_le, hA, hZ]
  split
  · show (c.val + ('a'.val - 'A'.val)).toNat = _
    rw [UInt32.toNat_add, h32]
    omega
  · rfl

theorem isAlpha_iff (c : Char) : c.isAlpha = true ↔
    (65 ≤ c.val.toNat ∧ c.val.toNat ≤ 90) ∨ (97 ≤ c.val.toNat ∧ c.val.toNat ≤ 122) := by
  have hA : 'A'.val.toNat = 65 := rfl
  have hZ : 'Z'.val.toNat = 90 := rfl
  have ha : 'a'.val.toNat = 97 := rfl
  have hz : 'z'.val.toNat = 122 := rfl
  simp only [Char.isAlpha, Char.isUpper, Char.isLower, Bool.or_eq_true, Bool.and_eq_true,
    decide_eq_true_eq, UInt32.le_iff_toNat_le, ge_iff_le, hA, hZ, ha, hz]

theorem isAlpha_of_isDigit {c : Char} (h : c.isDigit = true) : c.isAlpha = false := by
  have h9 : '9'.val.toNat = 57 := rfl
  simp only [Char.isDigit, Bool.and_eq_true, decide_eq_true_eq, UInt32.le_iff_toNat_le, h9] at h
  rw [← Bool.not_eq_true, isAlpha_iff]
  omega

theorem toLower_of_not_isAlpha {c : Char} (h : c.isAlpha = false) : c.toLower = c := by
  rw [← Bool.not_eq_true, isAlpha_iff] at h
  apply Char.ext
  apply UInt32.toNat_inj.mp
  rw [val_toLower, if_neg (by omega)]

theorem isAlpha_toLower (c : Char) : c.toLower.isAlpha = c.isAlpha := by
  rw [Bool.eq_iff_iff, isAlpha_iff, isAlpha_iff, val_toLower]
  split <;> omega

theorem toLower_toLower (c : Char) : c.toLower.toLower = c.toLower := by
  apply Char.ext
  apply UInt32.toNat_inj.mp
  rw [val_toLower, val_toLower]
  split
  · rw [if_neg (by omega)]
  · rfl

theorem isDigit_toLower (c : Char) : c.toLower.isDigit = c.isDigit := by
  by_cases h : c.isAlpha = true
  · have hc : c.isDigit = false := by
      by_contra hd
      rw [isAlpha_of_isDigit (by simpa using hd)] at h
      cases h
    rw [hc]
    by_contra hd
    have h0 := isAlpha_of_isDigit (by simpa using hd)
    rw [isAlpha_toLower, h] at h0
    cases h0
  · rw [toLower_of_not_isAlpha (by simpa using h)]

theorem toLower_eq_iff {c x : Char} (hx : x.isAlpha = false) : c.toLower = x ↔ c = x := by
  by_cases h : c.isAlpha = true
  · constructor
    · intro e
      rw [← isAlpha_toLower, e, hx] at h
      cases h
    · intro e
      rw [e, hx] at h
      cases h
  · rw [toLower_of_not_isAlpha (by simpa using h)]

theorem dropWhile_map_toLower {p : Char → Bool} (hp : ∀ c, p c.toLower = p c) (s : List Char) :
    (s.map Char.toLower).dropWhile p = (s.dropWhile p).map Char.toLower := by
  rw [List.dropWhile_map]
  congr 2
  funext c
  exact hp c

end NextBSD.AsciiCase

/-!
## Lines of a text and the occurrences of a word in it

Lines are joined with a mark behind each of them, and a text is split at the marks.  `replaceFrom`
replaces the occurrences of a word from left to right; the number says how many elements belong to
the occurrence before.
-/

namespace NextBSD.TextLines

universe u

variable {α : Type u} [DecidableEq α]

def joinLines (mark : α) (lines : List (List α)) : List α := lines.flatMap (fun l => l ++ [mark])

def splitLines (mark : α) : List α → List (List α)
  | [] => []
  | c :: rest =>
    if c = mark then [] :: splitLines mark rest
    else
      match splitLines mark rest with
      | [] => [[c]]
      | l :: lines => (c :: l) :: lines

variable {mark : α}

theorem joinLines_cons (l : List α) (lines : List (List α)) :
    joinLines mark (l :: lines) = l ++ mark :: joinLines mark lines := by
  show (l ++ [mark]) ++ joinLines mark lines = _
  rw [List.append_assoc]
  rfl

theorem splitLines_append {l : List α} (h : mark ∉ l) (rest : List α) :
    splitLines mark (l ++ mark :: rest) = l :: splitLines mark rest := by
  induction l with
  | nil => exact if_pos rfl
  | cons c l ih =>
    have hc : c ≠ mark := fun hsame => h (hsame ▸ List.mem_cons_self)
    have htail := ih (fun hmem => h (List.mem_cons_of_mem _ hmem))
    rw [List.cons_append, splitLines, if_neg hc, htail]

theorem splitLines_joinLines {lines : List (List α)} (h : ∀ l ∈ lines, mark ∉ l) :
    splitLines mark (joinLines mark lines) = lines := by
  induction lines with
  | nil => rfl
  | cons l lines ih =>
    rw [joinLines_cons, splitLines_append (h l List.mem_cons_self),
      ih (fun l hl => h l (List.mem_cons_of_mem _ hl))]

def replaceFrom (word value : List α) : Nat → List α → List α
  | _, [] => []
  | n + 1, _ :: rest => replaceFrom word value n rest
  | 0, c :: rest =>
    if word <+: c :: rest then value ++ replaceFrom word value (word.length - 1) rest
    else c :: replaceFrom word value 0 rest

def replace (word value text : List α) : List α := replaceFrom word value 0 text

theorem replaceFrom_zero_cons (word value : List α) (c : α) (rest : List α) :
    replaceFrom word value 0 (c :: rest) =
      if word <+: c :: rest then value ++ replaceFrom word value (word.length - 1) rest
      else c :: replaceFrom word value 0 rest := by
  rw [replaceFrom]

theorem mem_replaceFrom {word value : List α} {a : α} {n : Nat} {text : List α}
    (h : a ∈ replaceFrom word value n text) : a ∈ value ∨ a ∈ text := by
  induction text generalizing n with
  | nil => exact absurd h List.not_mem_nil
  | cons c rest ih =>
    cases n with
    | succ n => exact (ih h).imp_right (List.mem_cons_of_mem _)
    | zero =>
      rw [replaceFrom_zero_cons] at h
      split_ifs at h
      · cases List.mem_append.mp h with
        | inl hvalue => exact Or.inl hvalue
        | inr hrest => exact (ih hrest).imp_right (List.mem_cons_of_mem _)
      · cases List.mem_cons.mp h with
        | inl hc => exact Or.inr (hc ▸ List.mem_cons_self)
        | inr hrest => exact (ih hrest).imp_right (List.mem_cons_of_mem _)

end NextBSD.TextLines
