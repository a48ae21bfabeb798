import Mathlib.Data.Nat.Digits.Lemmas

/-!
# Numbers in a base

The digits of a number are printed with the most significant one first, and are read by
multiplying and adding.
-/

namespace NextBSD.Digits

def printDigits (base n : Nat) : List Nat := (Nat.digits base n).reverse

def readDigits (base : Nat) (digits : List Nat) : Nat := digits.foldl (fun n d => n * base + d) 0

theorem readDigits_printDigits (base n : Nat) : readDigits base (printDigits base n) = n := by
  unfold readDigits printDigits
  rw [List.foldl_reverse]
  have hfold : (Nat.digits base n).foldr (fun d n => n * base + d) 0 =
      Nat.ofDigits base (Nat.digits base n) := by
    rw [Nat.ofDigits_eq_foldr]
    congr 1
    funext d n
    rw [Nat.mul_comm, Nat.add_comm, Nat.cast_id]
  rw [hfold, Nat.ofDigits_digits]

theorem readDigits_zeros (base k : Nat) (digits : List Nat) :
    readDigits base (List.replicate k 0 ++ digits) = readDigits base digits := by
  induction k with
  | zero => rfl
  | succ k ih =>
    rw [List.replicate_succ, List.cons_append]
    show (List.replicate k 0 ++ digits).foldl _ (0 * base + 0) = _
    rw [Nat.zero_mul]
    exact ih

theorem printDigits_lt {base n d : Nat} (hbase : 1 < base) (h : d ∈ printDigits base n) :
    d < base := Nat.digits_lt_base hbase (List.mem_reverse.mp h)

theorem length_printDigits_le {base n k : Nat} (hbase : 1 < base) (h : n < base ^ k) :
    (printDigits base n).length ≤ k := by
  unfold printDigits
  rw [List.length_reverse]
  exact (Nat.digits_length_le_iff hbase n).mpr h

/-! ## Reading on

A reader multiplies and adds one digit after the other, so that it passes through the numbers of
all prefixes. -/

def readFrom (base n : Nat) (digits : List Nat) : Nat := digits.foldl (fun n d => n * base + d) n

theorem readFrom_cons (base n d : Nat) (digits : List Nat) :
    readFrom base n (d :: digits) = readFrom base (n * base + d) digits := rfl

theorem readFrom_append (base n : Nat) (front digits : List Nat) :
    readFrom base n (front ++ digits) = readFrom base (readFrom base n front) digits :=
  List.foldl_append

theorem readDigits_append_singleton (base : Nat) (front : List Nat) (d : Nat) :
    readDigits base (front ++ [d]) = readDigits base front * base + d :=
  readFrom_append base 0 front [d]

theorem le_readFrom {base : Nat} (hbase : 0 < base) (n : Nat) (digits : List Nat) :
    n ≤ readFrom base n digits := by
  induction digits generalizing n with
  | nil => exact Nat.le_refl n
  | cons d digits ih =>
    have hstep : n ≤ n * base + d := Nat.le_trans (Nat.le_mul_of_pos_right n hbase)
      (Nat.le_add_right _ d)
    exact Nat.le_trans hstep (ih (n * base + d))

theorem readFrom_le_of_prefix {base : Nat} (hbase : 0 < base) (n : Nat) {front digits : List Nat}
    (h : front <+: digits) : readFrom base n front ≤ readFrom base n digits := by
  obtain ⟨back, rfl⟩ := h
  rw [readFrom_append]
  exact le_readFrom hbase _ back

/-- Reads while the number stays within the bound: where it ended, and whether nothing is left. -/
def readWithin (base : Nat) (bound : Int) : Nat → List Nat → Nat × Bool
  | n, [] => (n, true)
  | n, d :: digits =>
    if ((n * base + d : Nat) : Int) ≤ bound then readWithin base bound (n * base + d) digits
    else (n, false)

theorem readWithin_eq_true {base : Nat} {bound : Int} {n : Nat} {digits : List Nat}
    (h : (readWithin base bound n digits).2 = true) :
    (readWithin base bound n digits).1 = readFrom base n digits ∧
      (digits = [] ∨ (readFrom base n digits : Int) ≤ bound) := by
  induction digits generalizing n with
  | nil => exact ⟨rfl, Or.inl rfl⟩
  | cons d digits ih =>
    unfold readWithin at h ⊢
    by_cases hle : ((n * base + d : Nat) : Int) ≤ bound
    · rw [if_pos hle] at h ⊢
      obtain ⟨hvalue, hend⟩ := ih h
      refine ⟨hvalue, Or.inr ?_⟩
      rcases hend with rfl | hend
      · exact hle
      · exact hend
    · rw [if_neg hle] at h
      exact absurd h Bool.false_ne_true

/-- Where the reading stops, every prefix lies on one side: at most the number that is there, or
beyond the bound. -/
theorem readWithin_eq_false {base : Nat} (hbase : 0 < base) {bound : Int} {n : Nat}
    {digits : List Nat} (h : (readWithin base bound n digits).2 = false) :
    bound < readFrom base n digits ∧
      (∃ front, front <+: digits ∧ (readWithin base bound n digits).1 = readFrom base n front ∧
        (front = [] ∨ (readFrom base n front : Int) ≤ bound)) ∧
      ∀ front, front <+: digits → readFrom base n front ≤ (readWithin base bound n digits).1 ∨
        bound < readFrom base n front := by
  induction digits generalizing n with
  | nil => exact absurd h.symm Bool.false_ne_true
  | cons d digits ih =>
    unfold readWithin at h ⊢
    by_cases hle : ((n * base + d : Nat) : Int) ≤ bound
    · rw [if_pos hle] at h ⊢
      obtain ⟨hbeyond, ⟨front, hfront, hvalue, hwithin⟩, hsides⟩ := ih h
      refine ⟨hbeyond, ⟨d :: front, List.cons_prefix_cons.mpr ⟨rfl, hfront⟩, hvalue, Or.inr ?_⟩, ?_⟩
      · rcases hwithin with rfl | hwithin
        · exact hle
        · exact hwithin
      · intro front' hfront'
        rcases List.prefix_cons_iff.mp hfront' with rfl | ⟨front'', rfl, hfront''⟩
        · have hstart : n ≤ readFrom base n (d :: front) := le_readFrom hbase n (d :: front)
          rw [hvalue]
          exact Or.inl hstart
        · exact hsides front'' hfront''
    · rw [if_neg hle]
      have hnext : bound < ((n * base + d : Nat) : Int) := Int.not_le.mp hle
      refine ⟨?_, ⟨[], List.nil_prefix, rfl, Or.inl rfl⟩, ?_⟩
      · have hmono := le_readFrom hbase (n * base + d) digits
        rw [readFrom_cons]
        omega
      · intro front hfront
        rcases List.prefix_cons_iff.mp hfront with rfl | ⟨front', rfl, -⟩
        · exact Or.inl (Nat.le_refl n)
        · have hmono := le_readFrom hbase (n * base + d) front'
          rw [readFrom_cons]
          exact Or.inr (by omega)

/-! ## The order of numbers and that of their digits -/

theorem readFrom_lt {base : Nat} (n : Nat) {digits : List Nat} (h : ∀ d ∈ digits, d < base) :
    readFrom base n digits < (n + 1) * base ^ digits.length := by
  induction digits generalizing n with
  | nil => simp [readFrom]
  | cons d digits ih =>
    have hd : d < base := h d List.mem_cons_self
    have hih := ih (n * base + d) (fun e he => h e (List.mem_cons_of_mem d he))
    have hle : n * base + d + 1 ≤ (n + 1) * base := by rw [Nat.succ_mul]; omega
    calc readFrom base n (d :: digits) < (n * base + d + 1) * base ^ digits.length := hih
      _ ≤ (n + 1) * base * base ^ digits.length := Nat.mul_le_mul_right _ hle
      _ = (n + 1) * base ^ (d :: digits).length := by
        rw [List.length_cons, Nat.pow_succ, Nat.mul_assoc, Nat.mul_comm base]

theorem pow_le_readFrom (base n : Nat) (digits : List Nat) :
    n * base ^ digits.length ≤ readFrom base n digits := by
  induction digits generalizing n with
  | nil => simp [readFrom]
  | cons d digits ih =>
    calc n * base ^ (d :: digits).length = n * base * base ^ digits.length := by
          rw [List.length_cons, Nat.pow_succ, Nat.mul_assoc, Nat.mul_comm base]
      _ ≤ (n * base + d) * base ^ digits.length :=
        Nat.mul_le_mul_right _ (Nat.le_add_right _ _)
      _ ≤ readFrom base n (d :: digits) := ih (n * base + d)

theorem compare_mul_add {base n m d e : Nat} (hd : d < base) (he : e < base) :
    compare (n * base + d) (m * base + e) = (compare n m).then (compare d e) := by
  rcases Nat.lt_trichotomy n m with h | h | h
  · have hle : (n + 1) * base ≤ m * base := Nat.mul_le_mul_right _ h
    rw [Nat.succ_mul] at hle
    rw [Nat.compare_eq_lt.mpr h, Nat.compare_eq_lt.mpr (by omega)]
    rfl
  · subst h
    rw [Nat.compare_eq_eq.mpr rfl, Ordering.eq_then, Nat.compare_eq_ite_lt, Nat.compare_eq_ite_lt]
    simp only [Nat.add_lt_add_iff_left]
  · have hle : (m + 1) * base ≤ n * base := Nat.mul_le_mul_right _ h
    rw [Nat.succ_mul] at hle
    rw [Nat.compare_eq_gt.mpr h, Nat.compare_eq_gt.mpr (by omega)]
    rfl

theorem compare_readFrom {base : Nat} (n m : Nat) {as bs : List Nat}
    (hlen : as.length = bs.length) (ha : ∀ d ∈ as, d < base) (hb : ∀ d ∈ bs, d < base) :
    compare (readFrom base n as) (readFrom base m bs) = (compare n m).then (compare as bs) := by
  induction as generalizing bs n m with
  | nil =>
    rw [List.length_eq_zero_iff.mp hlen.symm, List.compare_nil_nil, Ordering.then_eq]
    rfl
  | cons a as ih =>
    cases bs with
    | nil => simp at hlen
    | cons b bs =>
      obtain ⟨ha0, ha⟩ := List.forall_mem_cons.mp ha
      obtain ⟨hb0, hb⟩ := List.forall_mem_cons.mp hb
      rw [readFrom_cons, readFrom_cons, ih _ _ (Nat.succ.inj hlen) ha hb,
        compare_mul_add ha0 hb0, List.compare_cons_cons, Ordering.then_assoc]

theorem readDigits_lt_of_length_lt {base : Nat} (hbase : 0 < base) {as bs : List Nat}
    (hlen : as.length < bs.length) (ha : ∀ d ∈ as, d < base) (hzero : bs.head? ≠ some 0) :
    readDigits base as < readDigits base bs := by
  cases bs with
  | nil => simp at hlen
  | cons b bs =>
    have hb : 0 < b := Nat.pos_of_ne_zero fun h => hzero (congrArg some h)
    have hlt := readFrom_lt 0 ha
    rw [Nat.zero_add, Nat.one_mul] at hlt
    calc readDigits base as < base ^ as.length := hlt
      _ ≤ base ^ bs.length := Nat.pow_le_pow_right hbase (Nat.lt_succ_iff.mp hlen)
      _ ≤ b * base ^ bs.length := Nat.le_mul_of_pos_left _ hb
      _ ≤ readFrom base b bs := pow_le_readFrom base b bs
      _ = readDigits base (b :: bs) := by
        show _ = readFrom base (0 * base + b) bs
        rw [Nat.zero_mul, Nat.zero_add]

theorem compare_readDigits {base : Nat} (hbase : 0 < base) {as bs : List Nat}
    (ha : ∀ d ∈ as, d < base) (hb : ∀ d ∈ bs, d < base) (hazero : as.head? ≠ some 0)
    (hbzero : bs.head? ≠ some 0) :
    compare (readDigits base as) (readDigits base bs) =
      (compare as.length bs.length).then (compare as bs) := by
  rcases Nat.lt_trichotomy as.length bs.length with hlen | hlen | hlen
  · rw [Nat.compare_eq_lt.mpr hlen,
      Nat.compare_eq_lt.mpr (readDigits_lt_of_length_lt hbase hlen ha hbzero)]
    rfl
  · rw [Nat.compare_eq_eq.mpr hlen]
    exact compare_readFrom 0 0 hlen ha hb
  · rw [Nat.compare_eq_gt.mpr hlen,
      Nat.compare_eq_gt.mpr (readDigits_lt_of_length_lt hbase hlen hb hazero)]
    rfl

end NextBSD.Digits

/-!
## Reading numbers in a word

A reader that multiplies and adds modulo the size of the word, and gives up when the number gets
smaller.  What it can see of the numbers of the prefixes are their residues.
-/

namespace NextBSD.Digits

def residue (base m : Nat) (digits : List Nat) : Nat := readDigits base digits % m

def Ascends (base m : Nat) (digits : List Nat) : Prop :=
  ∀ front d, front ++ [d] <+: digits → residue base m front ≤ residue base m (front ++ [d])

/-- The digit `d` is the first that makes the residue smaller; `front` stands before it. -/
structure FallsAt (base m : Nat) (digits front : List Nat) (d : Nat) : Prop where
  within : front ++ [d] <+: digits
  ascends : Ascends base m front
  falls : residue base m (front ++ [d]) < residue base m front

def readWrapping (base m : Nat) : Nat → List Nat → Nat × Bool
  | n, [] => (n, true)
  | n, d :: digits =>
    if (n * base + d) % m < n then (n, false) else readWrapping base m ((n * base + d) % m) digits

theorem residue_append_singleton (base m : Nat) (front : List Nat) (d : Nat) :
    residue base m (front ++ [d]) = (residue base m front * base + d) % m := by
  unfold residue
  rw [readDigits_append_singleton, Nat.add_mod _ d, Nat.add_mod _ d, Nat.mod_mul_mod]

theorem Ascends.nil (base m : Nat) : Ascends base m [] := by
  intro front d h
  exact absurd (List.prefix_nil.mp h) (List.append_ne_nil_of_right_ne_nil _ (List.cons_ne_nil _ _))

theorem Ascends.snoc {base m : Nat} {front : List Nat} {d : Nat} (h : Ascends base m front)
    (hd : residue base m front ≤ residue base m (front ++ [d])) :
    Ascends base m (front ++ [d]) := by
  intro front' d' hfront
  rcases List.prefix_concat_iff.mp hfront with heq | hfront
  · obtain ⟨rfl, hd'⟩ := List.append_inj' heq rfl
    rw [List.cons.inj hd' |>.1]
    exact hd
  · exact h front' d' hfront

theorem readWrapping_from {base m : Nat} {seen digits : List Nat} (h : Ascends base m seen) :
    (readWrapping base m (residue base m seen) digits =
        (residue base m (seen ++ digits), true) ∧ Ascends base m (seen ++ digits)) ∨
      ∃ front d, FallsAt base m (seen ++ digits) front d ∧
        readWrapping base m (residue base m seen) digits = (residue base m front, false) := by
  induction digits generalizing seen with
  | nil =>
    rw [List.append_nil]
    exact Or.inl ⟨rfl, h⟩
  | cons d digits ih =>
    unfold readWrapping
    rw [← residue_append_singleton, List.append_cons seen d digits]
    by_cases hfalls : residue base m (seen ++ [d]) < residue base m seen
    · rw [if_pos hfalls]
      exact Or.inr ⟨seen, d, ⟨List.prefix_append _ _, h, hfalls⟩, rfl⟩
    · rw [if_neg hfalls]
      exact ih (h.snoc (Nat.le_of_not_lt hfalls))

theorem readWrapping_cases (base m : Nat) (digits : List Nat) :
    (readWrapping base m 0 digits = (residue base m digits, true) ∧ Ascends base m digits) ∨
      ∃ front d, FallsAt base m digits front d ∧
        readWrapping base m 0 digits = (residue base m front, false) := by
  have hzero : residue base m [] = 0 := Nat.zero_mod m
  have hfrom := @readWrapping_from base m [] digits (Ascends.nil base m)
  rwa [hzero, List.nil_append] at hfrom

theorem FallsAt.unique {base m : Nat} {digits front front' : List Nat} {d d' : Nat}
    (h : FallsAt base m digits front d) (h' : FallsAt base m digits front' d') :
    front = front' := by
  have hnot : ∀ {front front' : List Nat} {d d' : Nat}, FallsAt base m digits front d →
      FallsAt base m digits front' d' → ¬ front.length < front'.length := by
    intro front front' d d' h h' hlt
    have hfront : front ++ [d] <+: front' := by
      refine List.prefix_of_prefix_length_le h.within
        ((List.prefix_append front' [d']).trans h'.within) ?_
      rw [List.length_append]
      exact hlt
    exact absurd (h'.ascends front d hfront) (Nat.not_le.mpr h.falls)
  have hlength : front.length = front'.length :=
    Nat.le_antisymm (Nat.le_of_not_lt (hnot h' h)) (Nat.le_of_not_lt (hnot h h'))
  have hfront : front <+: front' :=
    List.prefix_of_prefix_length_le ((List.prefix_append front [d]).trans h.within)
      ((List.prefix_append front' [d']).trans h'.within) (Nat.le_of_eq hlength)
  exact hfront.eq_of_length hlength

theorem FallsAt.not_ascends {base m : Nat} {digits front : List Nat} {d : Nat}
    (h : FallsAt base m digits front d) : ¬ Ascends base m digits :=
  fun hascends => absurd (hascends front d h.within) (Nat.not_le.mpr h.falls)

theorem ascends_of_lt {base m : Nat} (hbase : 0 < base) {digits : List Nat}
    (h : readDigits base digits < m) : Ascends base m digits := by
  intro front d hfront
  have hle : readDigits base front ≤ readDigits base (front ++ [d]) :=
    readFrom_le_of_prefix hbase 0 (List.prefix_append front [d])
  have hwhole : readDigits base (front ++ [d]) ≤ readDigits base digits :=
    readFrom_le_of_prefix hbase 0 hfront
  unfold residue
  rw [Nat.mod_eq_of_lt (by omega), Nat.mod_eq_of_lt (by omega)]
  exact hle

end NextBSD.Digits
