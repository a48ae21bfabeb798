import NextBSD.Zsh.Metafy

/-!
# hist.c: changing case

`casemodify` without `MULTIBYTE` and in the C locale.  The string is given without the `NUL` at its
end, and what is written with it.
-/

namespace NextBSD.Zsh.CaseModify

def isupper (c : UInt8) : Bool := 65 ≤ c && c ≤ 90

def islower (c : UInt8) : Bool := 97 ≤ c && c ≤ 122

def ialnum (c : UInt8) : Bool := isupper c || islower c || (48 ≤ c && c ≤ 57)

def tolower (c : UInt8) : UInt8 := if isupper c then c + 32 else c

def toupper (c : UInt8) : UInt8 := if islower c then c - 32 else c

inductive Casmod where
  | upper
  | lower
  | caps
  deriving DecidableEq, Repr

/-- A character, whether it was changed, and `nextupper` behind it. -/
structure Changed where
  c : UInt8
  mod : Bool
  nextupper : Bool
  deriving DecidableEq, Repr

def change (how : Casmod) (nextupper : Bool) (c : UInt8) : Changed :=
  match how with
  | .lower => { c := tolower c, mod := isupper c, nextupper := nextupper }
  | .upper => { c := toupper c, mod := islower c, nextupper := nextupper }
  | .caps =>
    if !ialnum c then { c := c, mod := false, nextupper := true }
    else if nextupper then { c := toupper c, mod := islower c, nextupper := false }
    else { c := tolower c, mod := isupper c, nextupper := nextupper }

def Changed.write (r : Changed) : Bytes :=
  if r.mod && imeta r.c then [0x83, r.c ^^^ 32] else [r.c]

/-- The loop over the string.  `none` is a read behind its end. -/
def casemodLoop (how : Casmod) : Bool → Bytes → Option Bytes
  | _, [] => some []
  | nextupper, c :: str =>
    if c = 0x83 then
      match str with
      | [] => none
      | d :: str =>
        let r := change how nextupper (d ^^^ 32)
        (casemodLoop how r.nextupper str).map (r.write ++ ·)
    else
      let r := change how nextupper c
      (casemodLoop how r.nextupper str).map (r.write ++ ·)

def casemodify (str : Bytes) (how : Casmod) : Option Bytes :=
  (casemodLoop how true str).map (· ++ [0])

/-- A letter is upper case behind a byte that is no letter and no digit, and lower case behind one
that is. -/
def capital (before c : UInt8) : UInt8 := if ialnum before then tolower c else toupper c

/-- The bytes with their case changed.  In front of the first one stands no letter. -/
def changed (how : Casmod) (x : Bytes) : Bytes :=
  match how with
  | .lower => x.map tolower
  | .upper => x.map toupper
  | .caps => List.zipWith capital (0 :: x) x

/-- The result is the metafied string with its case changed, and fits where it is written. -/
def Modifies (how : Casmod) (x : Bytes) : Prop :=
  ∃ out, casemodify (metafy x) how = some out ∧
    out.takeWhile (· ≠ 0) = metafy (changed how x) ∧ out.length ≤ 2 * (metafy x).length + 1

theorem length_changed (how : Casmod) (x : Bytes) : (changed how x).length = x.length := by
  cases how with
  | lower => exact List.length_map _
  | upper => exact List.length_map _
  | caps => simp [changed]

variable {how : Casmod} {u : Bool} {c : UInt8} {x : Bytes}

theorem isupper_iff : isupper c = true ↔ 65 ≤ c.toNat ∧ c.toNat ≤ 90 := by
  unfold isupper
  rw [Bool.and_eq_true, decide_eq_true_iff, decide_eq_true_iff, UInt8.le_iff_toNat_le,
    UInt8.le_iff_toNat_le]
  rfl

theorem islower_iff : islower c = true ↔ 97 ≤ c.toNat ∧ c.toNat ≤ 122 := by
  unfold islower
  rw [Bool.and_eq_true, decide_eq_true_iff, decide_eq_true_iff, UInt8.le_iff_toNat_le,
    UInt8.le_iff_toNat_le]
  rfl

theorem imeta_of_letter {d : UInt8} (hlow : 65 ≤ d.toNat) (hhigh : d.toNat ≤ 122) :
    imeta d = false := by
  rw [← Bool.not_eq_true, imeta_toNat]
  omega

theorem toNat_tolower (h : isupper c = true) : (tolower c).toNat = c.toNat + 32 := by
  have hc := isupper_iff.mp h
  rw [tolower, if_pos h, UInt8.toNat_add]
  show (c.toNat + 32) % 256 = _
  omega

theorem toNat_toupper (h : islower c = true) : (toupper c).toNat = c.toNat - 32 := by
  have hc := islower_iff.mp h
  have hle : (32 : UInt8) ≤ c := UInt8.le_iff_toNat_le.mpr (by show 32 ≤ _; omega)
  rw [toupper, if_pos h, UInt8.toNat_sub_of_le _ _ hle]
  rfl

theorem imeta_tolower (c : UInt8) : imeta (tolower c) = imeta c := by
  by_cases h : isupper c = true
  · have hc := isupper_iff.mp h
    have hlower := toNat_tolower h
    rw [imeta_of_letter (by omega) (by omega), imeta_of_letter (by omega) (by omega)]
  · rw [tolower, if_neg h]

theorem imeta_toupper (c : UInt8) : imeta (toupper c) = imeta c := by
  by_cases h : islower c = true
  · have hc := islower_iff.mp h
    have hupper := toNat_toupper h
    rw [imeta_of_letter (by omega) (by omega), imeta_of_letter (by omega) (by omega)]
  · rw [toupper, if_neg h]

theorem capital_of_not_ialnum (h : ialnum c = false) (before : UInt8) : capital before c = c := by
  unfold ialnum at h
  rw [Bool.or_eq_false_iff, Bool.or_eq_false_iff] at h
  unfold capital
  split_ifs
  · rw [tolower, if_neg (by rw [h.1.1]; exact Bool.false_ne_true)]
  · rw [toupper, if_neg (by rw [h.1.2]; exact Bool.false_ne_true)]

theorem write_change : (change how u c).write = [(change how u c).c] := by
  have hchange : (change how u c).mod = true → imeta (change how u c).c = false := by
    intro hmod
    cases how with
    | upper =>
      have hc := islower_iff.mp hmod
      exact (imeta_toupper c).trans (imeta_of_letter (by omega) (by omega))
    | lower =>
      have hc := isupper_iff.mp hmod
      exact (imeta_tolower c).trans (imeta_of_letter (by omega) (by omega))
    | caps =>
      unfold change at hmod ⊢
      dsimp only at hmod ⊢
      split_ifs at hmod ⊢
      · have hc := islower_iff.mp hmod
        exact (imeta_toupper c).trans (imeta_of_letter (by omega) (by omega))
      · have hc := isupper_iff.mp hmod
        exact (imeta_tolower c).trans (imeta_of_letter (by omega) (by omega))
  rw [Changed.write, if_neg]
  intro h
  rw [Bool.and_eq_true] at h
  rw [hchange h.1] at h
  cases h.2

def stream (how : Casmod) : Bool → Bytes → Bytes
  | _, [] => []
  | nextupper, c :: x =>
    (change how nextupper c).c :: stream how (change how nextupper c).nextupper x

theorem casemodLoop_metafy (how : Casmod) (u : Bool) (x : Bytes) :
    casemodLoop how u (metafy x) = some (stream how u x) := by
  induction x generalizing u with
  | nil => rfl
  | cons c x ih =>
    rw [metafy_cons, stream]
    split_ifs with himeta
    · show casemodLoop how u (0x83 :: (c ^^^ 32) :: metafy x) = _
      rw [casemodLoop, if_pos rfl]
      dsimp only
      rw [flip_flip, ih, Option.map_some, write_change, List.singleton_append]
    · have hc : c ≠ 0x83 := by
        rintro rfl
        exact himeta rfl
      rw [List.singleton_append, casemodLoop.eq_def]
      dsimp only
      rw [if_neg hc, ih, Option.map_some, write_change, List.singleton_append]

theorem stream_caps (before : UInt8) (x : Bytes) :
    stream .caps (!ialnum before) x = List.zipWith capital (before :: x) x := by
  induction x generalizing before with
  | nil => rfl
  | cons c x ih =>
    rw [stream, List.zipWith_cons_cons, ← ih c]
    cases hc : ialnum c with
    | false => simp [change, hc, capital_of_not_ialnum hc]
    | true => cases hbefore : ialnum before <;> simp [change, hc, hbefore, capital]

theorem stream_eq (how : Casmod) (x : Bytes) : stream how true x = changed how x := by
  cases how with
  | caps => exact stream_caps 0 x
  | lower =>
    have hmap (u : Bool) : stream .lower u x = x.map tolower := by
      induction x with
      | nil => rfl
      | cons c x ih => exact congrArg (tolower c :: ·) ih
    exact hmap true
  | upper =>
    have hmap (u : Bool) : stream .upper u x = x.map toupper := by
      induction x with
      | nil => rfl
      | cons c x ih => exact congrArg (toupper c :: ·) ih
    exact hmap true

theorem casemodify_metafy (how : Casmod) (x : Bytes) :
    casemodify (metafy x) how = some (changed how x ++ [0]) := by
  rw [casemodify, casemodLoop_metafy, stream_eq, Option.map_some]

theorem escapes_changed (how : Casmod) (x : Bytes) : escapes (changed how x) = escapes x := by
  cases how with
  | lower => simp only [escapes, changed, List.countP_map, Function.comp_def, imeta_tolower]
  | upper => simp only [escapes, changed, List.countP_map, Function.comp_def, imeta_toupper]
  | caps =>
    have hzip (before : UInt8) : escapes (List.zipWith capital (before :: x) x) = escapes x := by
      induction x generalizing before with
      | nil => rfl
      | cons c x ih =>
        have hc : imeta (capital before c) = imeta c := by
          unfold capital
          split_ifs
          · exact imeta_tolower c
          · exact imeta_toupper c
        have hrest := ih c
        unfold escapes at hrest ⊢
        rw [List.zipWith_cons_cons, List.countP_cons, List.countP_cons, hrest, hc]
    exact hzip 0

/-- The case of a string is changed as it should be exactly when nothing in it is metafied. -/
theorem casemodify_iff (how : Casmod) (x : Bytes) : Modifies how x ↔ ∀ c ∈ x, imeta c = false := by
  have hnone : escapes x = 0 ↔ ∀ c ∈ x, imeta c = false := by
    simp [escapes]
  have hstop : (changed how x ++ [0]).takeWhile (· ≠ 0) = (changed how x).takeWhile (· ≠ 0) := by
    rw [List.takeWhile_append]
    split_ifs with h
    · have hwhole := List.takeWhile_prefix (p := fun c : UInt8 => decide (c ≠ 0))
        (l := changed how x)
      rw [hwhole.eq_of_length h]
      simp
    · rfl
  rw [← hnone, ← escapes_changed how x]
  constructor
  · rintro ⟨out, hout, htext, -⟩
    obtain rfl := Option.some.inj ((casemodify_metafy how x).symm.trans hout)
    have hlength := congrArg List.length htext
    rw [hstop, length_metafy] at hlength
    have hle := (List.takeWhile_sublist (l := changed how x) fun c => decide (c ≠ 0)).length_le
    omega
  · intro h
    refine ⟨_, casemodify_metafy how x, ?_, ?_⟩
    · rw [hstop, metafy_of_escapes h]
      refine List.takeWhile_eq_self_iff.mpr fun c hc => decide_eq_true ?_
      rintro rfl
      exact absurd (List.countP_eq_zero.mp h 0 hc) (by decide)
    · rw [List.length_append, length_changed, length_metafy, List.length_singleton]
      omega

/-- `NUL` in front of a letter ends the result. -/
theorem not_modifies_nul : ¬Modifies .upper [0, 97] := by
  rintro ⟨out, hout, htext, -⟩
  have hcall : casemodify (metafy [0, 97]) .upper = some [0, 65, 0] := by decide
  obtain rfl := Option.some.inj (hcall.symm.trans hout)
  cases htext

end NextBSD.Zsh.CaseModify
