import Mathlib.Data.List.Basic

/-!
# Groups with a separator between them

All groups have the same length, but for the one at the end that they are not counted from.
-/

namespace NextBSD.Grouping

universe u

variable {α : Type u} {sep : α} {width : Nat} {xs out : List α}

/-- Groups of `width` from the left; the last may be shorter. -/
inductive FromLeft (sep : α) (width : Nat) : List α → List α → Prop
  | nil : FromLeft sep width [] []
  | last {g : List α} (hne : g ≠ []) (hlen : g.length ≤ width) : FromLeft sep width g g
  | more {g xs out : List α} (hlen : g.length = width) (hne : xs ≠ [])
      (hrest : FromLeft sep width xs out) : FromLeft sep width (g ++ xs) (g ++ sep :: out)

/-- Groups of `width` from the right; the first may be shorter. -/
def FromRight (sep : α) (width : Nat) (xs out : List α) : Prop :=
  FromLeft sep width xs.reverse out.reverse

theorem FromLeft.length (h : FromLeft sep width xs out) (hwidth : 0 < width) :
    out.length = xs.length + (xs.length - 1) / width := by
  induction h with
  | nil => rw [List.length_nil, Nat.zero_sub, Nat.zero_div]
  | @last g hne hlen =>
    have hpos := List.length_pos_iff.mpr hne
    rw [Nat.div_eq_of_lt (by omega), Nat.add_zero]
  | @more g xs out hlen hne hrest ih =>
    have hpos := List.length_pos_iff.mpr hne
    have hdiv : (g.length + xs.length - 1) / width = (xs.length - 1) / width + 1 := by
      rw [show g.length + xs.length - 1 = (xs.length - 1) + width by omega,
        Nat.add_div_right _ hwidth]
    rw [List.length_append, List.length_append, List.length_cons, ih, hdiv]
    omega

theorem FromRight.length (h : FromRight sep width xs out) (hwidth : 0 < width) :
    out.length = xs.length + (xs.length - 1) / width := by
  have hlen := FromLeft.length h hwidth
  rwa [List.length_reverse, List.length_reverse] at hlen

theorem FromLeft.filter [DecidableEq α] (h : FromLeft sep width xs out) (hsep : sep ∉ xs) :
    out.filter (· ≠ sep) = xs := by
  have hkeep {g : List α} (hg : sep ∉ g) : g.filter (· ≠ sep) = g :=
    List.filter_eq_self.mpr fun x hx => decide_eq_true fun heq => hg (heq ▸ hx)
  induction h with
  | nil => rfl
  | last hne hlen => exact hkeep hsep
  | more hlen hne hrest ih =>
    rw [List.mem_append, not_or] at hsep
    rw [List.filter_append, hkeep hsep.1, List.filter_cons_of_neg (by simp), ih hsep.2]

theorem FromRight.filter [DecidableEq α] (h : FromRight sep width xs out) (hsep : sep ∉ xs) :
    out.filter (· ≠ sep) = xs := by
  have hrev := FromLeft.filter h fun hmem => hsep (List.mem_reverse.mp hmem)
  rw [List.filter_reverse] at hrev
  exact List.reverse_injective hrev

theorem FromLeft.getLast? (h : FromLeft sep width xs out) : out.getLast? = xs.getLast? := by
  induction h with
  | nil => rfl
  | last hne hlen => rfl
  | @more g xs out hlen hne hrest ih =>
    have hout : out ≠ [] := by
      rintro rfl
      exact hne (List.getLast?_eq_none_iff.mp ih.symm)
    obtain ⟨x, xs, rfl⟩ := List.exists_cons_of_ne_nil hne
    obtain ⟨y, out, rfl⟩ := List.exists_cons_of_ne_nil hout
    rw [List.getLast?_append_cons, List.getLast?_append_cons, List.getLast?_cons_cons, ih]

theorem FromRight.head? (h : FromRight sep width xs out) : out.head? = xs.head? := by
  have hlast := FromLeft.getLast? h
  rwa [List.getLast?_reverse, List.getLast?_reverse] at hlast

theorem FromLeft.concat (h : FromLeft sep width xs out) (hwidth : 0 < width) (x : α) :
    FromLeft sep width (xs ++ [x])
      (if xs ≠ [] ∧ xs.length % width = 0 then out ++ [sep, x] else out ++ [x]) := by
  have hone : FromLeft sep width [x] [x] := .last (List.cons_ne_nil x []) hwidth
  induction h with
  | nil => exact hone
  | @last g hne hlen =>
    by_cases hfull : g.length = width
    · rw [if_pos ⟨hne, by rw [hfull, Nat.mod_self]⟩]
      exact .more hfull (List.cons_ne_nil x []) hone
    · rw [if_neg fun h => ?_]
      · refine .last (List.append_ne_nil_of_left_ne_nil hne _) ?_
        rw [List.length_append, List.length_singleton]
        omega
      · have hpos := List.length_pos_iff.mpr hne
        rw [Nat.mod_eq_of_lt (by omega)] at h
        omega
  | @more g xs out hlen hne hrest ih =>
    have hcond : (g ++ xs ≠ [] ∧ (g ++ xs).length % width = 0) ↔
        (xs ≠ [] ∧ xs.length % width = 0) := by
      rw [List.length_append, hlen, Nat.add_mod_left]
      exact and_congr_left fun _ => iff_of_true (List.append_ne_nil_of_right_ne_nil _ hne) hne
    have hnext := FromLeft.more hlen (List.append_ne_nil_of_left_ne_nil hne [x]) ih
    rw [List.append_assoc]
    by_cases h : xs ≠ [] ∧ xs.length % width = 0
    · rw [if_pos (hcond.mpr h)]
      rw [if_pos h] at hnext
      rwa [List.append_assoc, List.cons_append]
    · rw [if_neg fun hc => h (hcond.mp hc)]
      rw [if_neg h] at hnext
      rwa [List.append_assoc, List.cons_append]

theorem FromRight.cons (h : FromRight sep width xs out) (hwidth : 0 < width) (x : α) :
    FromRight sep width (x :: xs)
      (if xs ≠ [] ∧ xs.length % width = 0 then x :: sep :: out else x :: out) := by
  have hrev := FromLeft.concat h hwidth x
  have hnil : xs.reverse ≠ [] ↔ xs ≠ [] := not_congr List.reverse_eq_nil_iff
  rw [List.length_reverse] at hrev
  unfold FromRight
  rw [List.reverse_cons]
  split
  · next hc =>
    rw [if_pos ⟨hnil.mpr hc.1, hc.2⟩] at hrev
    rw [List.reverse_cons, List.reverse_cons, List.append_assoc]
    exact hrev
  · next hc =>
    rw [if_neg fun h => hc ⟨hnil.mp h.1, h.2⟩] at hrev
    rw [List.reverse_cons]
    exact hrev

/-- A separator is put behind so many, unless nothing follows; `count` is the number since the last
one. -/
def separate (sep : α) (width : Nat) : Nat → List α → List α
  | _, [] => []
  | count, x :: xs =>
    if xs ≠ [] ∧ count + 1 = width then x :: sep :: separate sep width 0 xs
    else x :: separate sep width (count + 1) xs

theorem separate_fromLeft {g : List α} (hxs : xs ≠ []) (hlen : g.length < width) :
    FromLeft sep width (g ++ xs) (g ++ separate sep width g.length xs) := by
  induction xs generalizing g with
  | nil => exact absurd rfl hxs
  | cons x xs ih =>
    have hg : (g ++ [x]).length = g.length + 1 := by
      rw [List.length_append, List.length_singleton]
    unfold separate
    by_cases h : xs ≠ [] ∧ g.length + 1 = width
    · rw [if_pos h]
      have hnext := FromLeft.more (hg.trans h.2) h.1 (@ih [] h.1 (by rw [List.length_nil]; omega))
      rw [List.append_assoc, List.append_assoc] at hnext
      exact hnext
    · rw [if_neg h]
      by_cases hnil : xs = []
      · subst hnil
        exact .last (List.append_ne_nil_of_right_ne_nil _ (List.cons_ne_nil x [])) (by omega)
      · have hnext := @ih (g ++ [x]) hnil (by
          rw [hg]
          have hne : g.length + 1 ≠ width := fun heq => h ⟨hnil, heq⟩
          omega)
        rw [hg, List.append_assoc, List.append_assoc] at hnext
        exact hnext

theorem separate_zero (hwidth : 0 < width) (xs : List α) :
    FromLeft sep width xs (separate sep width 0 xs) := by
  by_cases h : xs = []
  · subst h
    exact .nil
  · exact @separate_fromLeft _ sep width xs [] h hwidth

end NextBSD.Grouping
