import Mathlib.Data.List.Basic

/-!
# Comparison functions

`Std.TransCmp` says of a comparison function that it is a total preorder.  Here
are two compositions that keep it so: one function and then another, and the
comparison of two lists entry by entry where the shorter list is continued with
a default entry.  `toInt` reads the answer as the sign that C functions return.
-/

namespace NextBSD.Compare

universe u v

variable {α : Type u} {β : Type v}

def toInt : Ordering → Int
  | .lt => -1
  | .eq => 0
  | .gt => 1

theorem toInt_swap (o : Ordering) : toInt o.swap = -toInt o := by
  cases o <;> rfl

theorem toInt_le_zero {o : Ordering} : toInt o ≤ 0 ↔ o.isLE := by
  cases o <;> simp [toInt]

theorem toInt_eq_zero {o : Ordering} : toInt o = 0 ↔ o = .eq := by
  cases o <;> simp [toInt]

theorem then_of_ne {o : Ordering} (h : o ≠ .eq) (o' : Ordering) : o.then o' = o := by
  cases o with
  | eq => exact absurd rfl h
  | lt => rfl
  | gt => rfl

theorem comap_transCmp (key : α → β) {cmp : β → β → Ordering} (h : Std.TransCmp cmp) :
    Std.TransCmp (fun a b => cmp (key a) (key b)) where
  eq_swap := h.eq_swap
  isLE_trans := h.isLE_trans

theorem then_transCmp {cmp cmp' : α → α → Ordering} (h : Std.TransCmp cmp)
    (h' : Std.TransCmp cmp') : Std.TransCmp (fun a b => (cmp a b).then (cmp' a b)) where
  eq_swap := by
    intro a b
    rw [h.eq_swap (a := a), h'.eq_swap (a := a), Ordering.swap_then]
  isLE_trans := by
    intro a b c hab hbc
    rw [Ordering.isLE_then_iff_or] at hab hbc ⊢
    rcases hab with hab | ⟨hab, hab'⟩
    · have hle := Ordering.isLE_left_of_isLE_then (Ordering.isLE_then_iff_or.mpr hbc)
      exact Or.inl (Std.TransCmp.lt_of_lt_of_isLE hab hle)
    · rcases hbc with hbc | ⟨hbc, hbc'⟩
      · exact Or.inl (Std.TransCmp.lt_of_eq_of_lt hab hbc)
      · exact Or.inr ⟨Std.TransCmp.eq_trans hab hbc, h'.isLE_trans hab' hbc'⟩

def padLex (cmp : α → α → Ordering) (d : α) : List α → List α → Ordering
  | [], bs => bs.foldr (fun b rest => (cmp d b).then rest) .eq
  | a :: as, bs => (cmp a (bs.headD d)).then (padLex cmp d as bs.tail)

section PadLex

variable {cmp : α → α → Ordering} {d : α}

theorem padLex_step [Std.ReflCmp cmp] (as bs : List α) :
    padLex cmp d as bs =
      (cmp (as.headD d) (bs.headD d)).then (padLex cmp d as.tail bs.tail) := by
  cases as with
  | nil =>
    cases bs with
    | nil => simp [padLex, Std.ReflCmp.compare_self]
    | cons b bs => rfl
  | cons a as => rfl

theorem padLex_transCmp [Std.TransCmp cmp] : Std.TransCmp (padLex cmp d) := by
  have hswap : ∀ (n : Nat) (as bs : List α), as.length ≤ n → bs.length ≤ n →
      padLex cmp d as bs = (padLex cmp d bs as).swap := by
    intro n
    induction n with
    | zero =>
      intro as bs ha hb
      rw [List.length_eq_zero_iff.mp (Nat.le_zero.mp ha),
        List.length_eq_zero_iff.mp (Nat.le_zero.mp hb)]
      rfl
    | succ n ih =>
      intro as bs ha hb
      rw [padLex_step as bs, padLex_step bs as, Ordering.swap_then,
        ← @Std.OrientedCmp.eq_swap α cmp,
        ← ih as.tail bs.tail (by simp; omega) (by simp; omega)]
  have htrans : ∀ (n : Nat) (as bs cs : List α), as.length ≤ n → bs.length ≤ n → cs.length ≤ n →
      (padLex cmp d as bs).isLE → (padLex cmp d bs cs).isLE → (padLex cmp d as cs).isLE := by
    intro n
    induction n with
    | zero =>
      intro as bs cs ha hb hc _ _
      rw [List.length_eq_zero_iff.mp (Nat.le_zero.mp ha),
        List.length_eq_zero_iff.mp (Nat.le_zero.mp hc)]
      rfl
    | succ n ih =>
      intro as bs cs ha hb hc hab hbc
      rw [padLex_step, Ordering.isLE_then_iff_or] at hab hbc ⊢
      rcases hab with hab | ⟨hab, hab'⟩
      · have hle := Ordering.isLE_left_of_isLE_then (Ordering.isLE_then_iff_or.mpr hbc)
        exact Or.inl (Std.TransCmp.lt_of_lt_of_isLE hab hle)
      · rcases hbc with hbc | ⟨hbc, hbc'⟩
        · exact Or.inl (Std.TransCmp.lt_of_eq_of_lt hab hbc)
        · exact Or.inr ⟨Std.TransCmp.eq_trans hab hbc,
            ih as.tail bs.tail cs.tail (by simp; omega) (by simp; omega) (by simp; omega)
              hab' hbc'⟩
  exact
    { eq_swap := fun {a b} => hswap (max a.length b.length) a b (by omega) (by omega)
      isLE_trans := fun {a b c} =>
        htrans (max a.length (max b.length c.length)) a b c (by omega) (by omega) (by omega) }

end PadLex

section Lex

variable [Ord α]

theorem compare_append_of_length_eq {as bs : List α} (h : as.length = bs.length) (xs ys : List α) :
    compare (as ++ xs) (bs ++ ys) = (compare as bs).then (compare xs ys) := by
  induction as generalizing bs with
  | nil =>
    rw [List.length_eq_zero_iff.mp h.symm]
    rfl
  | cons a as ih =>
    cases bs with
    | nil => simp at h
    | cons b bs =>
      rw [List.cons_append, List.cons_append, List.compare_cons_cons, List.compare_cons_cons,
        ih (Nat.succ.inj h), Ordering.then_assoc]

variable [Std.ReflOrd α]

theorem compare_append_left (as xs ys : List α) : compare (as ++ xs) (as ++ ys) = compare xs ys := by
  rw [compare_append_of_length_eq rfl, @Std.ReflCmp.compare_self (List α) compare _ as,
    Ordering.eq_then]

end Lex

end NextBSD.Compare
