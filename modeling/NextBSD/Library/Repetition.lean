import Mathlib.Data.List.Basic

/-!
# Repeated lists and fields of a given width

A field of a given width is the end, or the front, of a text that is filled up with copies of a
list.  Which part of the last copy stands in it is told by the remainder of the width.
-/

namespace NextBSD.Repetition

variable {α : Type} {k n : Nat} {p one x l l' : List α}

def takeLast (n : Nat) (l : List α) : List α := l.drop (l.length - n)

theorem takeLast_append_of_le (h : n ≤ l'.length) : takeLast n (l ++ l') = takeLast n l' := by
  rw [takeLast, takeLast, List.length_append, List.drop_append,
    List.drop_eq_nil_of_le (by omega), List.nil_append]
  congr 1
  omega

theorem takeLast_append (h : n = k + l'.length) : takeLast n (l ++ l') = takeLast k l ++ l' := by
  rw [takeLast, takeLast, List.length_append,
    show l.length + l'.length - n = l.length - k by omega,
    List.drop_append_of_le_length (by omega)]

def repeated (n : Nat) (p : List α) : List α := (List.replicate n p).flatten

theorem length_repeated (n : Nat) (p : List α) : (repeated n p).length = n * p.length := by
  simp [repeated]

theorem repeated_succ (n : Nat) (p : List α) : repeated (n + 1) p = p ++ repeated n p := by
  simp [repeated, List.replicate_succ]

theorem repeated_add (m n : Nat) (p : List α) :
    repeated (m + n) p = repeated m p ++ repeated n p := by
  simp [repeated, ← List.replicate_append_replicate]

theorem le_copies (hk : k ≤ n * p.length) :
    k = k / p.length * p.length + k % p.length ∧ k % p.length ≤ p.length ∧
      (k % p.length = 0 ∧ k / p.length ≤ n ∨ k / p.length + 1 ≤ n) := by
  have hdiv : k = k / p.length * p.length + k % p.length := by
    rw [Nat.mul_comm]
    exact (Nat.div_add_mod k p.length).symm
  rcases Nat.eq_zero_or_pos p.length with hzero | hpos
  · rw [hzero] at hk ⊢
    simp only [Nat.mul_zero, Nat.le_zero] at hk
    subst hk
    simp
  · have hlt := Nat.mod_lt k hpos
    refine ⟨hdiv, Nat.le_of_lt hlt, ?_⟩
    rcases Nat.eq_zero_or_pos (k % p.length) with hmod | hmod
    · exact .inl ⟨hmod, Nat.div_le_of_le_mul (by rwa [Nat.mul_comm])⟩
    · refine .inr (Nat.succ_le_of_lt ?_)
      by_contra hge
      have hmul : n * p.length ≤ k / p.length * p.length :=
        Nat.mul_le_mul_right _ (Nat.not_lt.mp hge)
      omega

theorem take_repeated (hk : k ≤ n * p.length) :
    (repeated n p).take k = repeated (k / p.length) p ++ p.take (k % p.length) := by
  obtain ⟨hdiv, hle, hcopies⟩ := le_copies hk
  generalize hq : k / p.length = q at hdiv hcopies ⊢
  generalize hr : k % p.length = r at hdiv hle hcopies ⊢
  have hlength := length_repeated q p
  rcases hcopies with ⟨hzero, hqn⟩ | hqn
  · obtain ⟨m, rfl⟩ := Nat.exists_eq_add_of_le hqn
    rw [repeated_add, hzero, List.take_zero, List.append_nil]
    exact List.take_left' (by omega)
  · obtain ⟨m, rfl⟩ := Nat.exists_eq_add_of_le hqn
    rw [repeated_add, repeated_add, List.append_assoc, hdiv, ← hlength,
      List.take_length_add_append]
    congr 1
    rw [repeated_succ, List.append_assoc]
    exact List.take_append_of_le_length hle

theorem takeLast_repeated (hk : k ≤ n * p.length) : takeLast k (repeated n p) =
    p.drop (p.length - k % p.length) ++ repeated (k / p.length) p := by
  obtain ⟨hdiv, hle, hcopies⟩ := le_copies hk
  generalize hq : k / p.length = q at hdiv hcopies ⊢
  generalize hr : k % p.length = r at hdiv hle hcopies ⊢
  have hlength := length_repeated q p
  rcases hcopies with ⟨hzero, hqn⟩ | hqn
  · obtain ⟨m, rfl⟩ := Nat.exists_eq_add_of_le hqn
    rw [Nat.add_comm q m, repeated_add, takeLast_append (k := 0) (by omega), hzero, Nat.sub_zero,
      List.drop_length, takeLast, Nat.sub_zero, List.drop_length]
  · obtain ⟨m, rfl⟩ := Nat.exists_eq_add_of_le hqn
    have hsplit : repeated (q + 1 + m) p = repeated m p ++ p ++ repeated q p := by
      rw [show q + 1 + m = m + (1 + q) by omega, repeated_add, repeated_add]
      simp [repeated]
    rw [hsplit, takeLast_append (k := r) (by omega), takeLast_append_of_le hle]
    rfl

def leftField (n : Nat) (p one x : List α) : List α := takeLast n (repeated n p ++ (one ++ x))

def rightField (n : Nat) (x one p : List α) : List α := (x ++ (one ++ repeated n p)).take n

theorem leftField_of_le (h : n ≤ x.length) : leftField n p one x = x.drop (x.length - n) := by
  rw [leftField, takeLast_append_of_le (by rw [List.length_append]; omega),
    takeLast_append_of_le h]
  rfl

theorem leftField_once (hx : x.length ≤ n) (h : n - x.length ≤ one.length) :
    leftField n p one x = one.drop (one.length - (n - x.length)) ++ x := by
  rw [leftField, takeLast_append_of_le (by rw [List.length_append]; omega),
    takeLast_append (k := n - x.length) (by omega)]
  rfl

theorem leftField_copies (hp : p ≠ []) (hx : x.length ≤ n) (h : one.length ≤ n - x.length) :
    leftField n p one x =
      p.drop (p.length - (n - x.length - one.length) % p.length) ++
        (repeated ((n - x.length - one.length) / p.length) p ++ (one ++ x)) := by
  have hpos := List.length_pos_of_ne_nil hp
  have hle : n - x.length - one.length ≤ n * p.length :=
    Nat.le_trans (by omega) (Nat.le_mul_of_pos_right n hpos)
  rw [leftField, takeLast_append (k := n - x.length - one.length)
    (by rw [List.length_append]; omega), takeLast_repeated hle, List.append_assoc]

theorem rightField_of_le (h : n ≤ x.length) : rightField n x one p = x.take n :=
  List.take_append_of_le_length h

theorem rightField_once (hx : x.length ≤ n) (h : n - x.length ≤ one.length) :
    rightField n x one p = x ++ one.take (n - x.length) := by
  rw [rightField, List.take_append, List.take_of_length_le hx,
    List.take_append_of_le_length h]

theorem rightField_copies (hp : p ≠ []) (hx : x.length ≤ n) (h : one.length ≤ n - x.length) :
    rightField n x one p =
      x ++ (one ++ (repeated ((n - x.length - one.length) / p.length) p ++
        p.take ((n - x.length - one.length) % p.length))) := by
  have hpos := List.length_pos_of_ne_nil hp
  have hle : n - x.length - one.length ≤ n * p.length :=
    Nat.le_trans (by omega) (Nat.le_mul_of_pos_right n hpos)
  rw [rightField, List.take_append, List.take_of_length_le hx, List.take_append,
    List.take_of_length_le h, take_repeated hle]

theorem length_leftField (hp : p ≠ []) : (leftField n p one x).length = n := by
  have hpos := List.length_pos_of_ne_nil hp
  have hle : n ≤ n * p.length := Nat.le_mul_of_pos_right n hpos
  simp only [leftField, takeLast, List.length_drop, List.length_append, length_repeated]
  omega

end NextBSD.Repetition
