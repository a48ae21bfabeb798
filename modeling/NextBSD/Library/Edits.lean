import Mathlib

/-!
# Optimal string alignment

Two lists are aligned from the left: elements are kept, replaced, left out, put in, or swapped with
their neighbour.  What was edited is not edited again.
-/

namespace NextBSD.EditDistance

universe u

variable {α : Type u}

inductive Align : List α → List α → Nat → Prop
  | nil : Align [] [] 0
  | keep (x : α) {xs ys : List α} {n : Nat} (h : Align xs ys n) : Align (x :: xs) (x :: ys) n
  | replace (x y : α) {xs ys : List α} {n : Nat} (h : Align xs ys n) :
      Align (x :: xs) (y :: ys) (n + 1)
  | delete (x : α) {xs ys : List α} {n : Nat} (h : Align xs ys n) : Align (x :: xs) ys (n + 1)
  | insert (y : α) {xs ys : List α} {n : Nat} (h : Align xs ys n) : Align xs (y :: ys) (n + 1)
  | swap (x y : α) {xs ys : List α} {n : Nat} (h : Align xs ys n) :
      Align (x :: y :: xs) (y :: x :: ys) (n + 1)

noncomputable def osaDistance (xs ys : List α) : Nat := sInf {n | Align xs ys n}

variable {x y : α} {xs ys : List α} {n : Nat}

theorem align_nil_left (ys : List α) : Align [] ys ys.length := by
  induction ys with
  | nil => exact .nil
  | cons y ys ih => exact .insert y ih

theorem Align.exists (xs ys : List α) : ∃ n, Align xs ys n := by
  induction xs with
  | nil => exact ⟨_, align_nil_left ys⟩
  | cons x xs ih =>
    obtain ⟨n, h⟩ := ih
    exact ⟨n + 1, .delete x h⟩

theorem osaDistance_le_iff : osaDistance xs ys ≤ n ↔ ∃ m ≤ n, Align xs ys m := by
  constructor
  · intro h
    exact ⟨_, h, Nat.sInf_mem (Align.exists xs ys)⟩
  · rintro ⟨m, hm, h⟩
    exact Nat.le_trans (Nat.sInf_le h) hm

theorem align_self (xs : List α) : Align xs xs 0 := by
  induction xs with
  | nil => exact .nil
  | cons x xs ih => exact .keep x ih

theorem osaDistance_eq_zero_iff : osaDistance xs ys = 0 ↔ xs = ys := by
  rw [← Nat.le_zero, osaDistance_le_iff]
  constructor
  · rintro ⟨m, hm, h⟩
    obtain rfl : m = 0 := Nat.le_zero.mp hm
    clear hm
    generalize hn : 0 = n at h
    induction h with
    | nil => rfl
    | keep x h ih => rw [ih hn]
    | replace | delete | insert | swap => omega
  · rintro rfl
    exact ⟨0, Nat.le_refl 0, align_self xs⟩

theorem Align.nil_left (h : Align [] ys n) : n = ys.length := by
  induction ys generalizing n with
  | nil =>
    cases h
    rfl
  | cons y ys ih =>
    cases h with
    | insert _ h => rw [ih h, List.length_cons]

theorem Align.tail_right (h : Align xs (y :: ys) n) : ∃ m ≤ n + 1, Align xs ys m := by
  generalize heq : y :: ys = zs at h
  induction h generalizing ys with
  | nil => exact absurd heq (List.cons_ne_nil _ _)
  | @keep x xs zs n h ih =>
    obtain ⟨rfl, rfl⟩ := List.cons.inj heq
    exact ⟨n + 1, Nat.le_refl _, .delete _ h⟩
  | @replace x z xs zs n h ih =>
    obtain ⟨rfl, rfl⟩ := List.cons.inj heq
    exact ⟨n + 1, by omega, .delete x h⟩
  | @delete x xs zs n h ih =>
    obtain ⟨m, hm, hxs⟩ := ih heq
    exact ⟨m + 1, by omega, .delete x hxs⟩
  | @insert z xs zs n h ih =>
    obtain ⟨rfl, rfl⟩ := List.cons.inj heq
    exact ⟨n, by omega, h⟩
  | @swap x z xs zs n h ih =>
    obtain ⟨rfl, rfl⟩ := List.cons.inj heq
    exact ⟨n + 1, by omega, .keep x (.delete _ h)⟩

theorem Align.tail_left (h : Align (x :: xs) ys n) : ∃ m ≤ n + 1, Align xs ys m := by
  generalize heq : x :: xs = zs at h
  induction h generalizing xs with
  | nil => exact absurd heq (List.cons_ne_nil _ _)
  | @keep y zs ys n h ih =>
    obtain ⟨rfl, rfl⟩ := List.cons.inj heq
    exact ⟨n + 1, Nat.le_refl _, .insert _ h⟩
  | @replace z y zs ys n h ih =>
    obtain ⟨rfl, rfl⟩ := List.cons.inj heq
    exact ⟨n + 1, by omega, .insert y h⟩
  | @delete z zs ys n h ih =>
    obtain ⟨rfl, rfl⟩ := List.cons.inj heq
    exact ⟨n, by omega, h⟩
  | @insert y zs ys n h ih =>
    obtain ⟨m, hm, hys⟩ := ih heq
    exact ⟨m + 1, by omega, .insert y hys⟩
  | @swap z y zs ys n h ih =>
    obtain ⟨rfl, rfl⟩ := List.cons.inj heq
    exact ⟨n + 1, by omega, .keep y (.insert _ h)⟩

theorem Align.of_cons_cons (h : Align (x :: xs) (x :: ys) n) : ∃ m ≤ n, Align xs ys m := by
  cases h with
  | keep _ h => exact ⟨n, Nat.le_refl n, h⟩
  | replace _ _ h => exact ⟨_, Nat.le_succ _, h⟩
  | delete _ h => exact h.tail_right
  | insert _ h => exact h.tail_left
  | swap _ _ h => exact ⟨_, Nat.le_succ _, .keep x h⟩

theorem exists_align_cons_cons_iff :
    (∃ m ≤ n, Align (x :: xs) (x :: ys) m) ↔ ∃ m ≤ n, Align xs ys m := by
  constructor
  · rintro ⟨m, hm, h⟩
    obtain ⟨k, hk, h⟩ := h.of_cons_cons
    exact ⟨k, by omega, h⟩
  · rintro ⟨m, hm, h⟩
    exact ⟨m, hm, .keep x h⟩

theorem exists_align_nil_left_iff : (∃ m ≤ n, Align [] ys m) ↔ ys.length ≤ n := by
  constructor
  · rintro ⟨m, hm, h⟩
    rwa [← h.nil_left]
  · intro h
    exact ⟨_, h, align_nil_left ys⟩

theorem exists_align_nil_right_iff :
    (∃ m ≤ n + 1, Align (x :: xs) [] m) ↔ ∃ m ≤ n, Align xs [] m := by
  constructor
  · rintro ⟨m, hm, h⟩
    cases h with
    | delete _ h => exact ⟨_, by omega, h⟩
  · rintro ⟨m, hm, h⟩
    exact ⟨m + 1, by omega, .delete x h⟩

theorem exists_align_cons_cons_of_ne (hxy : x ≠ y) :
    (∃ m ≤ n + 1, Align (x :: xs) (y :: ys) m) ↔
      (∃ m ≤ n, Align (x :: xs) ys m) ∨
      (∃ xs' ys', xs = y :: xs' ∧ ys = x :: ys' ∧ ∃ m ≤ n, Align xs' ys' m) ∨
      (∃ m ≤ n, Align xs ys m) ∨ ∃ m ≤ n, Align xs (y :: ys) m := by
  constructor
  · rintro ⟨m, hm, h⟩
    cases h with
    | keep => exact absurd rfl hxy
    | replace _ _ h => exact Or.inr (Or.inr (Or.inl ⟨_, by omega, h⟩))
    | delete _ h => exact Or.inr (Or.inr (Or.inr ⟨_, by omega, h⟩))
    | insert _ h => exact Or.inl ⟨_, by omega, h⟩
    | swap _ _ h => exact Or.inr (Or.inl ⟨_, _, rfl, rfl, _, by omega, h⟩)
  · rintro (⟨m, hm, h⟩ | ⟨xs, ys, rfl, rfl, m, hm, h⟩ | ⟨m, hm, h⟩ | ⟨m, hm, h⟩)
    · exact ⟨m + 1, by omega, .insert y h⟩
    · exact ⟨m + 1, by omega, .swap x y h⟩
    · exact ⟨m + 1, by omega, .replace x y h⟩
    · exact ⟨m + 1, by omega, .delete x h⟩

end NextBSD.EditDistance

/-!
## Edit scripts

A script turns one list into another.  Each of its steps copies elements that both have,
deletes elements of the first and inserts elements of the second.
-/

namespace NextBSD

structure Edit where
  copy : Nat
  del : Nat
  ins : Nat
  deriving DecidableEq, Repr

namespace Edit

universe u

variable {α : Type u}

def zero : Edit := { copy := 0, del := 0, ins := 0 }

def add (t u : Edit) : Edit :=
  { copy := t.copy + u.copy, del := t.del + u.del, ins := t.ins + u.ins }

inductive Converts : List Edit → List α → List α → Prop where
  | nil : Converts [] [] []
  | cons (c d i : List α) {s : List Edit} {a b : List α} (rest : Converts s a b) :
      Converts ({ copy := c.length, del := d.length, ins := i.length } :: s)
        (c ++ (d ++ a)) (c ++ (i ++ b))

/-- The script is carried out: copied elements have to be the same in both lists, and elements to
insert are the next ones of the second list. -/
def replay [DecidableEq α] : List Edit → List α → List α → Option (List α)
  | [], _, _ => some []
  | t :: s, a, b =>
    if a.take t.copy = b.take t.copy then
      (replay s (a.drop (t.copy + t.del)) (b.drop (t.copy + t.ins))).map fun r =>
        a.take t.copy ++ ((b.drop t.copy).take t.ins ++ r)
    else none

theorem Converts.replay [DecidableEq α] {s : List Edit} {a b : List α} (h : Converts s a b) :
    replay s a b = some b := by
  induction h with
  | nil => rfl
  | @cons c d i s a b _ ih =>
    have hdrop : (c ++ (d ++ a)).drop (c.length + d.length) = a := by
      rw [← List.append_assoc, ← List.length_append, List.drop_left]
    have hdrop' : (c ++ (i ++ b)).drop (c.length + i.length) = b := by
      rw [← List.append_assoc, ← List.length_append, List.drop_left]
    unfold Edit.replay
    rw [List.take_left, List.take_left, if_pos rfl, hdrop, hdrop', ih, List.drop_left,
      List.take_left]
    rfl

theorem Converts.sum_from {s : List Edit} {a b : List α} (h : Converts s a b) :
    (s.map fun e => e.copy + e.del).sum = a.length := by
  induction h with
  | nil => rfl
  | cons c d i _ ih =>
    rw [List.map_cons, List.sum_cons, ih, List.length_append, List.length_append]
    exact Nat.add_assoc _ _ _

theorem Converts.sum_to {s : List Edit} {a b : List α} (h : Converts s a b) :
    (s.map fun e => e.copy + e.ins).sum = b.length := by
  induction h with
  | nil => rfl
  | cons c d i _ ih =>
    rw [List.map_cons, List.sum_cons, ih, List.length_append, List.length_append]
    exact Nat.add_assoc _ _ _

theorem Converts.append {s t : List Edit} {a b a' b' : List α} (hs : Converts s a b)
    (ht : Converts t a' b') : Converts (s ++ t) (a ++ a') (b ++ b') := by
  induction hs with
  | nil => exact ht
  | cons c d i _ ih =>
    have h := Converts.cons c d i ih
    simpa only [List.append_assoc, List.cons_append] using h

theorem Converts.split {s t : List Edit} {a b : List α} (h : Converts (s ++ t) a b) :
    ∃ a₁ a₂ b₁ b₂, a = a₁ ++ a₂ ∧ b = b₁ ++ b₂ ∧ Converts s a₁ b₁ ∧ Converts t a₂ b₂ := by
  induction s generalizing a b with
  | nil => exact ⟨[], a, [], b, rfl, rfl, .nil, h⟩
  | cons e s ih =>
    cases h with
    | cons c d i rest =>
      obtain ⟨a₁, a₂, b₁, b₂, rfl, rfl, h₁, h₂⟩ := ih rest
      refine ⟨c ++ (d ++ a₁), a₂, c ++ (i ++ b₁), b₂, ?_, ?_, .cons c d i h₁, h₂⟩
      · simp only [List.append_assoc]
      · simp only [List.append_assoc]

theorem converts_singleton {t : Edit} {a b : List α} :
    Converts [t] a b ↔ ∃ c d i, a = c ++ d ∧ b = c ++ i ∧ c.length = t.copy ∧
      d.length = t.del ∧ i.length = t.ins := by
  constructor
  · intro h
    cases h with
    | cons c d i rest =>
      cases rest
      exact ⟨c, d, i, by simp, by simp, rfl, rfl, rfl⟩
  · intro ⟨c, d, i, ha, hb, hc, hd, hi⟩
    have h : Converts [{ copy := c.length, del := d.length, ins := i.length }]
        (c ++ (d ++ [])) (c ++ (i ++ [])) := .cons c d i .nil
    rw [hc, hd, hi, List.append_nil, List.append_nil, ← ha, ← hb] at h
    exact h

theorem Converts.join {s : List Edit} {t u : Edit} {a b : List α}
    (h : Converts (s ++ [t, u]) a b) (hjoin : (t.del = 0 ∧ t.ins = 0) ∨ u.copy = 0) :
    Converts (s ++ [t.add u]) a b := by
  obtain ⟨a₁, a₂, b₁, b₂, rfl, rfl, hs, htu⟩ := h.split
  refine hs.append ?_
  obtain ⟨a₃, a₄, b₃, b₄, rfl, rfl, ht, hu⟩ := Converts.split (s := [t]) (t := [u]) htu
  obtain ⟨c, d, i, rfl, rfl, hc, hd, hi⟩ := converts_singleton.mp ht
  obtain ⟨c', d', i', rfl, rfl, hc', hd', hi'⟩ := converts_singleton.mp hu
  apply converts_singleton.mpr
  obtain ⟨hd0, hi0⟩ | hc0 := hjoin
  · obtain rfl := List.eq_nil_of_length_eq_zero (hd.trans hd0)
    obtain rfl := List.eq_nil_of_length_eq_zero (hi.trans hi0)
    refine ⟨c ++ c', d', i', by simp, by simp, ?_, ?_, ?_⟩
    · rw [List.length_append, hc, hc']; rfl
    · rw [hd']; show u.del = t.del + u.del; omega
    · rw [hi']; show u.ins = t.ins + u.ins; omega
  · obtain rfl := List.eq_nil_of_length_eq_zero (hc'.trans hc0)
    refine ⟨c, d ++ d', i ++ i', by simp, by simp, ?_, ?_, ?_⟩
    · rw [hc]; show t.copy = t.copy + u.copy; omega
    · rw [List.length_append, hd, hd']; rfl
    · rw [List.length_append, hi, hi']; rfl

structure Neat (s : List Edit) : Prop where
  ne_zero : ∀ t ∈ s, t ≠ zero
  copies : ∀ t ∈ s.tail, 0 < t.copy

theorem Neat.tail {t : Edit} {s : List Edit} (h : Neat (t :: s)) : Neat s where
  ne_zero := fun u hu => h.ne_zero u (List.mem_cons_of_mem t hu)
  copies := fun u hu => h.copies u (List.mem_of_mem_tail hu)

theorem Neat.head {t u : Edit} {s : List Edit} (h : Neat (t :: s)) (hu : u ≠ zero) :
    Neat (u :: s) where
  ne_zero := fun e he => by
    obtain rfl | he := List.mem_cons.mp he
    · exact hu
    · exact h.ne_zero e (List.mem_cons_of_mem t he)
  copies := h.copies

theorem ne_zero_iff {t : Edit} : t ≠ zero ↔ 0 < t.copy ∨ 0 < t.del ∨ 0 < t.ins := by
  obtain ⟨c, d, i⟩ := t
  rw [Ne, zero, Edit.mk.injEq]
  show ¬ (c = 0 ∧ d = 0 ∧ i = 0) ↔ 0 < c ∨ 0 < d ∨ 0 < i
  omega

theorem Neat.of_nil {s : List Edit} {b : List α} (h : Neat s) (hs : Converts s [] b) :
    (s = [] ∧ b = []) ∨ s = [{ copy := 0, del := 0, ins := b.length }] := by
  generalize ha : ([] : List α) = a at hs
  cases hs with
  | nil => exact Or.inl ⟨rfl, rfl⟩
  | cons c d i rest =>
    right
    obtain ⟨rfl, hda⟩ := List.append_eq_nil_iff.mp ha.symm
    obtain ⟨rfl, rfl⟩ := List.append_eq_nil_iff.mp hda
    generalize ha' : ([] : List α) = a' at rest
    cases rest with
    | nil => simp
    | cons c' d' i' rest' =>
      have hc := h.copies _ List.mem_cons_self
      have hc' : c' = [] := (List.append_eq_nil_iff.mp ha'.symm).1
      rw [hc'] at hc
      exact absurd hc (Nat.lt_irrefl 0)

end Edit
end NextBSD
