import NextBSD.Library.Compare
import NextBSD.Zsh.Metafy

/-!
# utils.c: the order of metafied names

Names in memory are metafied, and have no `NUL` in them.  Whether a `char` is signed depends on the
platform, while `Meta` is compared to as an `unsigned char`.
-/

namespace NextBSD.Zsh

open Compare (toInt)

def charValue (signed : Bool) (c : UInt8) : Int :=
  if signed = true ∧ 128 ≤ c.toNat then c.toNat - 256 else c.toNat

def skipEqual : Bytes → Bytes → Bytes × Bytes
  | c :: s1, d :: s2 => if c = d then skipEqual s1 s2 else (c :: s1, d :: s2)
  | s1, s2 => (s1, s2)

/-- The value of the character where a string differs: of the one behind `Meta` the bit is flipped
that `metafy` flips, and the end is before all. -/
def valueAt (signed : Bool) : Bytes → Int
  | [] => -1
  | c :: s =>
    if charValue signed c = 0x83 then charValue signed (s.headD 0 ^^^ 32) else charValue signed c

def cmpInt (c1 c2 : Int) : Int := if c1 = c2 then 0 else if c1 < c2 then -1 else 1

def ztrcmp (signed : Bool) (s1 s2 : Bytes) : Int :=
  cmpInt (valueAt signed (skipEqual s1 s2).1) (valueAt signed (skipEqual s1 s2).2)

def firstDifference : Bytes → Bytes → Option UInt8 × Option UInt8
  | c :: x, d :: y => if c = d then firstDifference x y else (some c, some d)
  | x, y => (x.head?, y.head?)

/-- Two bytes that `metafy` escapes and whose order the flipped bit turns. -/
def Turned (c d : UInt8) : Prop := 0x83 ≤ c ∧ c ≤ 0x9f ∧ 0xa0 ≤ d ∧ d ≤ 0xa2

/-- With a signed `char` a byte from 128 on is less than those below, and than the end. -/
def InOrder (signed : Bool) : Option UInt8 → Option UInt8 → Prop
  | none, none => True
  | none, some d | some d, none => signed = true → 1 ≤ d ∧ d < 128
  | some c, some d =>
    ¬ Turned c d ∧ ¬ Turned d c ∧
      (signed = true → (c < 128 ↔ d < 128) ∨ (c = 0 ∧ 0xa3 ≤ d) ∨ (d = 0 ∧ 0xa3 ≤ c))

theorem skipEqual_append (p s1 s2 : Bytes) : skipEqual (p ++ s1) (p ++ s2) = skipEqual s1 s2 := by
  induction p with
  | nil => rfl
  | cons c p ih => rw [List.cons_append, List.cons_append, skipEqual, if_pos rfl, ih]

theorem skipEqual_of_ne {c d : UInt8} (h : c ≠ d) (s1 s2 : Bytes) :
    skipEqual (c :: s1) (d :: s2) = (c :: s1, d :: s2) := if_neg h

theorem charValue_eq_meta {signed : Bool} {c : UInt8} :
    charValue signed c = 0x83 ↔ signed = false ∧ c = 0x83 := by
  unfold charValue
  rw [← UInt8.toNat_inj]
  have hlt := c.toNat_lt
  cases signed
  · simp
    omega
  · simp
    split <;> omega

theorem valueAt_of_ne {signed : Bool} {c : UInt8} (h : c ≠ 0x83) (s : Bytes) :
    valueAt signed (c :: s) = charValue signed c := by
  rw [valueAt, if_neg fun hc => h (charValue_eq_meta.mp hc).2]

theorem valueAt_metafy (signed : Bool) (c : UInt8) (x : Bytes) : valueAt signed (metafy (c :: x)) =
    if imeta c = true ∧ signed = true then -125 else charValue signed c := by
  rw [metafy_cons]
  by_cases hc : imeta c = true
  · rw [if_pos hc]
    show (if charValue signed 0x83 = 0x83 then charValue signed (c ^^^ 32 ^^^ 32)
      else charValue signed 0x83) = _
    cases signed with
    | false =>
      rw [if_pos (show charValue false 0x83 = 0x83 from rfl), if_neg fun h => Bool.noConfusion h.2,
        flip_flip]
    | true =>
      rw [if_neg (show charValue true 0x83 ≠ 0x83 by decide), if_pos ⟨hc, rfl⟩]
      rfl
  · have hne : c ≠ 0x83 := fun h => hc (h ▸ rfl)
    rw [if_neg hc, if_neg fun h => hc h.1]
    exact valueAt_of_ne hne (metafy x)

theorem ztrcmp_cons_self (signed : Bool) (c : UInt8) (x y : Bytes) :
    ztrcmp signed (metafy (c :: x)) (metafy (c :: y)) = ztrcmp signed (metafy x) (metafy y) := by
  rw [ztrcmp, metafy_cons, metafy_cons, skipEqual_append]
  rfl

theorem ztrcmp_escaped {c d : UInt8} (hcd : c ≠ d) (hc : imeta c = true) (hd : imeta d = true)
    (signed : Bool) (x y : Bytes) : ztrcmp signed (metafy (c :: x)) (metafy (d :: y)) =
      cmpInt (charValue signed (c ^^^ 32)) (charValue signed (d ^^^ 32)) := by
  have hne : c ^^^ 32 ≠ d ^^^ 32 := fun h => hcd (by rw [← flip_flip c, h, flip_flip])
  have hskip : skipEqual (metafy (c :: x)) (metafy (d :: y)) =
      ((c ^^^ 32) :: metafy x, (d ^^^ 32) :: metafy y) := by
    rw [metafy_cons, metafy_cons, if_pos hc, if_pos hd]
    exact skipEqual_of_ne hne _ _
  rw [ztrcmp, hskip]
  dsimp only
  rw [valueAt_of_ne (flip_ne_meta hc), valueAt_of_ne (flip_ne_meta hd)]

theorem ztrcmp_not_escaped {c d : UInt8} (hcd : c ≠ d) (h : ¬ (imeta c = true ∧ imeta d = true))
    (signed : Bool) (x y : Bytes) : ztrcmp signed (metafy (c :: x)) (metafy (d :: y)) =
      cmpInt (valueAt signed (metafy (c :: x))) (valueAt signed (metafy (d :: y))) := by
  have hskip : skipEqual (metafy (c :: x)) (metafy (d :: y)) =
      (metafy (c :: x), metafy (d :: y)) := by
    rw [metafy_cons, metafy_cons]
    by_cases hc : imeta c = true
    · have hd : ¬ imeta d = true := fun hd => h ⟨hc, hd⟩
      have hne : (0x83 : UInt8) ≠ d := fun h => hd (h ▸ rfl)
      rw [if_pos hc, if_neg hd]
      exact skipEqual_of_ne hne _ _
    · rw [if_neg hc]
      by_cases hd : imeta d = true
      · have hne : c ≠ 0x83 := fun h => hc (h ▸ rfl)
        rw [if_pos hd]
        exact skipEqual_of_ne hne _ _
      · rw [if_neg hd]
        exact skipEqual_of_ne hcd _ _
  rw [ztrcmp, hskip]

/-! ## Against the order of the bytes -/

theorem cmpInt_eq_iff {a b c d : Int} :
    cmpInt a b = cmpInt c d ↔ (a = b ↔ c = d) ∧ (a < b ↔ c < d) := by
  unfold cmpInt
  split <;> split <;> (try split) <;> (try split) <;> constructor <;> intro <;> omega

theorem cmpInt_swap (a b : Int) : cmpInt b a = -cmpInt a b := by
  unfold cmpInt
  rcases Int.lt_trichotomy a b with h | h | h
  · rw [if_neg (by omega), if_neg (by omega), if_neg (by omega), if_pos h]
    rfl
  · rw [if_pos h.symm, if_pos h]
    rfl
  · rw [if_neg (by omega), if_pos h, if_neg (by omega), if_neg (by omega)]

theorem toInt_compare_of_ne {c d : UInt8} (h : c ≠ d) (x y : Bytes) :
    toInt (compare (c :: x) (d :: y)) = cmpInt c.toNat d.toNat := by
  have hne : c.toNat ≠ d.toNat := fun heq => h (UInt8.toNat_inj.mp heq)
  have hcmp : compare c d = if c < d then .lt else if c = d then .eq else .gt := rfl
  rw [List.compare_cons_cons, hcmp, if_neg h]
  unfold cmpInt
  by_cases hlt : c < d
  · have hlt' := UInt8.lt_iff_toNat_lt.mp hlt
    rw [if_pos hlt, if_neg (by omega), if_pos (by omega)]
    rfl
  · have hge : ¬ c.toNat < d.toNat := fun h => hlt (UInt8.lt_iff_toNat_lt.mpr h)
    rw [if_neg hlt, if_neg (by omega), if_neg (by omega)]
    rfl

theorem turned_toNat {c d : UInt8} : Turned c d ↔
    0x83 ≤ c.toNat ∧ c.toNat ≤ 0x9f ∧ 0xa0 ≤ d.toNat ∧ d.toNat ≤ 0xa2 := Iff.rfl

theorem inOrder_unsigned {c d : UInt8} :
    InOrder false (some c) (some d) ↔ ¬ Turned c d ∧ ¬ Turned d c :=
  ⟨fun h => ⟨h.1, h.2.1⟩, fun h => ⟨h.1, h.2, fun hs => Bool.noConfusion hs⟩⟩

theorem inOrder_signed {c d : UInt8} : InOrder true (some c) (some d) ↔
    ¬ Turned c d ∧ ¬ Turned d c ∧
      ((c.toNat < 128 ↔ d.toNat < 128) ∨ (c.toNat = 0 ∧ 0xa3 ≤ d.toNat) ∨
        (d.toNat = 0 ∧ 0xa3 ≤ c.toNat)) := by
  have hzero {c : UInt8} : c = 0 ↔ c.toNat = 0 := UInt8.toNat_inj.symm
  rw [InOrder, hzero, hzero]
  exact ⟨fun h => ⟨h.1, h.2.1, h.2.2 rfl⟩, fun h => ⟨h.1, h.2.1, fun _ => h.2.2⟩⟩

theorem charValue_unsigned (c : UInt8) : charValue false c = c.toNat :=
  if_neg fun h => Bool.noConfusion h.1

theorem charValue_signed (c : UInt8) : (c.toNat < 128 ∧ charValue true c = c.toNat) ∨
    (128 ≤ c.toNat ∧ charValue true c = c.toNat - 256) := by
  unfold charValue
  by_cases h : 128 ≤ c.toNat
  · exact Or.inr ⟨h, if_pos ⟨rfl, h⟩⟩
  · exact Or.inl ⟨by omega, if_neg fun hs => h hs.2⟩

theorem ztrcmp_bytes_iff {c d : UInt8} (hcd : c ≠ d) (signed : Bool) (x y : Bytes) :
    ztrcmp signed (metafy (c :: x)) (metafy (d :: y)) = toInt (compare (c :: x) (d :: y)) ↔
      InOrder signed (some c) (some d) := by
  have hne : c.toNat ≠ d.toNat := fun heq => hcd (UInt8.toNat_inj.mp heq)
  rw [toInt_compare_of_ne hcd]
  by_cases hboth : imeta c = true ∧ imeta d = true
  · have hmc := imeta_toNat.mp hboth.1
    have hmd := imeta_toNat.mp hboth.2
    have hfc := flip_cases hboth.1
    have hfd := flip_cases hboth.2
    rw [ztrcmp_escaped hcd hboth.1 hboth.2, cmpInt_eq_iff]
    cases signed with
    | false =>
      rw [inOrder_unsigned, turned_toNat, turned_toNat, charValue_unsigned, charValue_unsigned]
      omega
    | true =>
      have hvc := charValue_signed (c ^^^ 32)
      have hvd := charValue_signed (d ^^^ 32)
      rw [inOrder_signed, turned_toNat, turned_toNat]
      omega
  · rw [ztrcmp_not_escaped hcd hboth, valueAt_metafy, valueAt_metafy, cmpInt_eq_iff]
    rw [imeta_toNat, imeta_toNat] at hboth
    cases signed with
    | false =>
      rw [inOrder_unsigned, turned_toNat, turned_toNat, charValue_unsigned, charValue_unsigned,
        if_neg fun h => Bool.noConfusion h.2, if_neg fun h => Bool.noConfusion h.2]
      omega
    | true =>
      have hvc := charValue_signed c
      have hvd := charValue_signed d
      have hc := c.toNat_lt
      have hd := d.toNat_lt
      rw [inOrder_signed, turned_toNat, turned_toNat]
      simp only [imeta_toNat, and_true]
      split <;> split <;> omega

theorem ztrcmp_nil_iff (d : UInt8) (signed : Bool) (y : Bytes) :
    ztrcmp signed (metafy []) (metafy (d :: y)) = toInt (compare [] (d :: y)) ↔
      InOrder signed none (some d) := by
  have hskip : ztrcmp signed (metafy []) (metafy (d :: y)) =
      cmpInt (-1) (valueAt signed (metafy (d :: y))) := by
    rw [ztrcmp, metafy_cons]
    by_cases hd : imeta d = true
    · rw [if_pos hd]
      rfl
    · rw [if_neg hd]
      rfl
  have hexpected : toInt (compare [] (d :: y)) = cmpInt 0 1 := rfl
  rw [hskip, valueAt_metafy, hexpected, cmpInt_eq_iff]
  have hd := d.toNat_lt
  have hin : InOrder signed none (some d) ↔ (signed = true → 1 ≤ d.toNat ∧ d.toNat < 128) := Iff.rfl
  rw [hin]
  cases signed with
  | false =>
    rw [charValue_unsigned, if_neg fun h => Bool.noConfusion h.2]
    simp only [Bool.false_eq_true, false_imp_iff, iff_true]
    omega
  | true =>
    have hvd := charValue_signed d
    simp only [imeta_toNat, and_true, true_imp_iff]
    split <;> omega

theorem ztrcmp_swap (signed : Bool) (s1 s2 : Bytes) : ztrcmp signed s2 s1 = -ztrcmp signed s1 s2 := by
  have hskip : skipEqual s2 s1 = (skipEqual s1 s2).swap := by
    induction s1 generalizing s2 with
    | nil => cases s2 <;> rfl
    | cons c s1 ih =>
      cases s2 with
      | nil => rfl
      | cons d s2 =>
        by_cases h : c = d
        · rw [skipEqual, skipEqual, if_pos h, if_pos h.symm, ih]
        · rw [skipEqual_of_ne h, skipEqual_of_ne (Ne.symm h)]
          rfl
  rw [ztrcmp, ztrcmp, hskip, Prod.fst_swap, Prod.snd_swap, cmpInt_swap]

/-- The order is that of the bytes just where the first bytes that differ are in order. -/
theorem ztrcmp_iff (signed : Bool) (x y : Bytes) :
    ztrcmp signed (metafy x) (metafy y) = toInt (compare x y) ↔
      InOrder signed (firstDifference x y).1 (firstDifference x y).2 := by
  induction x generalizing y with
  | nil =>
    cases y with
    | nil => exact iff_of_true rfl trivial
    | cons d y => exact ztrcmp_nil_iff d signed y
  | cons c x ih =>
    cases y with
    | nil =>
      rw [ztrcmp_swap, @Std.OrientedCmp.eq_swap _ compare _ (c :: x) [], Compare.toInt_swap,
        neg_inj]
      exact ztrcmp_nil_iff c signed x
    | cons d y =>
      by_cases hcd : c = d
      · subst hcd
        have hcmp : compare (c :: x) (c :: y) = compare x y := by
          rw [List.compare_cons_cons, Std.ReflOrd.compare_self]
          rfl
        rw [ztrcmp_cons_self, hcmp, firstDifference, if_pos rfl]
        exact ih y
      · rw [firstDifference, if_neg hcd]
        exact ztrcmp_bytes_iff hcd signed x y

/-- `a` and `é`, where a `char` is signed; two bytes that are escaped, where it is not. -/
theorem ztrcmp_not_bytes :
    ztrcmp true (metafy [97]) (metafy [0xc3, 0xa9]) ≠ toInt (compare ([97] : Bytes) [0xc3, 0xa9]) ∧
      ztrcmp false (metafy [0x9f]) (metafy [0xa0]) ≠
        toInt (compare ([0x9f] : Bytes) [0xa0]) := by decide

end NextBSD.Zsh
