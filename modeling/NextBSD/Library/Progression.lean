import Mathlib.Data.List.Basic
import Mathlib.Algebra.Order.Group.Int
import Mathlib.Tactic.Ring

/-!
# Arithmetic progressions

The members of a progression from one number to another, and a loop that counts down.
-/

namespace NextBSD.Progression

def members (first step : Int) (n : Nat) : List Int :=
  (List.range n).map fun i : Nat => first + step * (i : Int)

theorem length_members (first step : Int) (n : Nat) : (members first step n).length = n := by
  rw [members, List.length_map, List.length_range]

theorem members_succ (first step : Int) (n : Nat) :
    members first step (n + 1) = first :: members (first + step) step n := by
  rw [members, List.range_succ_eq_map, List.map_cons, List.map_map, Nat.cast_zero, Int.mul_zero,
    Int.add_zero, members]
  refine congrArg (first :: ·) (List.map_congr_left fun i _ => ?_)
  show first + step * ((i + 1 : Nat) : Int) = first + step + step * i
  push_cast
  ring

theorem members_one (first step : Int) : members first step 1 = [first] := members_succ first step 0

theorem members_concat (first step : Int) (n : Nat) :
    members first step (n + 1) = members first step n ++ [first + step * n] := by
  rw [members, List.range_succ, List.map_append]
  rfl

theorem reverse_members (first step : Int) (n : Nat) :
    (members first step (n + 1)).reverse = members (first + step * n) (-step) (n + 1) := by
  induction n generalizing first with
  | zero =>
    rw [Nat.cast_zero, Int.mul_zero, Int.add_zero, members_one, members_one]
    rfl
  | succ n ih =>
    have hlast : first + step + step * n = first + step * ((n + 1 : Nat) : Int) := by
      push_cast
      ring
    rw [members_succ, List.reverse_cons, ih, hlast, members_concat _ _ (n + 1)]
    refine congrArg (_ ++ [·]) ?_
    push_cast
    ring

theorem members_eq_iff {first first' step step' : Int} {n n' : Nat} :
    members first step (n + 1) = members first' step' (n' + 1) ↔
      n = n' ∧ first = first' ∧ (n = 0 ∨ step = step') := by
  constructor
  · intro h
    have hlength := congrArg List.length h
    rw [length_members, length_members] at hlength
    obtain rfl : n = n' := by omega
    rw [members_succ, members_succ] at h
    obtain ⟨rfl, htail⟩ := List.cons.inj h
    refine ⟨rfl, rfl, ?_⟩
    cases n with
    | zero => exact .inl rfl
    | succ n =>
      rw [members_succ, members_succ] at htail
      have hsecond := (List.cons.inj htail).1
      exact .inr (by omega)
  · rintro ⟨rfl, rfl, rfl | rfl⟩
    · rw [members_one, members_one]
    · rfl

def direction (a b : Int) : Int := if a ≤ b then 1 else -1

/-- `a`, and further numbers at the distance `|c|` that do not pass `b`; backwards when `c` is
negative. -/
def between (a b c : Int) : List Int :=
  let up := members a (direction a b * c.natAbs) ((b - a).natAbs / c.natAbs + 1)
  if 0 < c then up else up.reverse

theorem between_eq_members (a b c : Int) :
    between a b c = members
      (if 0 < c then a else a - direction a b * c * ((b - a).natAbs / c.natAbs : Nat))
      (direction a b * c) ((b - a).natAbs / c.natAbs + 1) := by
  unfold between
  dsimp only
  split_ifs with hpos
  · rw [show ((c.natAbs : Nat) : Int) = c by omega]
  · have habs : ((c.natAbs : Nat) : Int) = -c := by omega
    rw [reverse_members, habs]
    refine congr (congrArg₂ members ?_ ?_) rfl <;> ring

theorem between_eq_iff {a b c c' : Int} (hc : c ≠ 0) (hc' : c' ≠ 0) :
    between a b c = between a b c' ↔
      c = c' ∨ (b - a).natAbs < c.natAbs ∧ (b - a).natAbs < c'.natAbs := by
  have hdir : direction a b ≠ 0 := by
    unfold direction
    split_ifs <;> decide
  have hzero (d : Int) (hd : d ≠ 0) :
      (b - a).natAbs / d.natAbs = 0 ↔ (b - a).natAbs < d.natAbs := by
    rw [Nat.div_eq_zero_iff]
    omega
  rw [between_eq_members, between_eq_members, members_eq_iff, ← hzero c hc,
    ← hzero c' hc']
  constructor
  · rintro ⟨hcount, -, hone | hstep⟩
    · exact .inr ⟨hone, hcount ▸ hone⟩
    · exact .inl (Int.eq_of_mul_eq_mul_left hdir hstep)
  · rintro (rfl | ⟨hone, hone'⟩)
    · exact ⟨rfl, rfl, .inr rfl⟩
    · refine ⟨hone.trans hone'.symm, ?_, .inl hone⟩
      rw [hone, hone', Nat.cast_zero, Int.mul_zero, Int.mul_zero, Int.sub_zero]
      split_ifs <;> rfl

theorem mem_between {a b c n : Int} (h : n ∈ between a b c) : min a b ≤ n ∧ n ≤ max a b := by
  have hup : n ∈ members a (direction a b * c.natAbs) ((b - a).natAbs / c.natAbs + 1) := by
    unfold between at h
    dsimp only at h
    split_ifs at h
    · exact h
    · exact List.mem_reverse.mp h
  obtain ⟨i, hi, rfl⟩ := List.mem_map.mp hup
  have hmul : c.natAbs * i ≤ (b - a).natAbs :=
    (Nat.mul_le_mul_left _ (Nat.lt_succ_iff.mp (List.mem_range.mp hi))).trans (Nat.mul_div_le _ _)
  have hcast : (c.natAbs : Int) * (i : Int) ≤ (b - a).natAbs := by exact_mod_cast hmul
  have hpos : 0 ≤ (c.natAbs : Int) * (i : Int) := Int.mul_nonneg (by omega) (by omega)
  unfold direction
  split_ifs with hle
  · rw [Int.one_mul]
    omega
  · rw [show (-1 : Int) * (c.natAbs : Int) * i = -((c.natAbs : Int) * i) by ring]
    omega

theorem between_ne_nil (a b c : Int) : between a b c ≠ [] := by
  rw [between_eq_members, members_succ]
  exact List.cons_ne_nil _ _

/-- The numbers from `high` down to `low`; `none` when one more step falls below `least`, or does
not go down. -/
def countDown (least low step high : Int) : Option (List Int) :=
  if high < low then some []
  else if _h : step ≤ 0 ∨ high - step < least then none
  else (countDown least low step (high - step)).map (high :: ·)
termination_by (high - low + 1).toNat
decreasing_by omega

theorem countDown_eq {least low step high : Int} (hstep : 0 < step) (hleast : least ≤ low)
    (hle : low ≤ high) :
    countDown least low step high =
      if least ≤ high - step * (((high - low) / step).toNat + 1 : Nat) then
        some (members high (-step) (((high - low) / step).toNat + 1))
      else none := by
  generalize hn : ((high - low) / step).toNat = n
  induction n generalizing high with
  | zero =>
    have hdiv : 0 ≤ (high - low) / step := Int.ediv_nonneg (by omega) (by omega)
    have hlt : high - low < step := by
      rcases Int.lt_or_le (high - low) step with h | h
      · exact h
      · have hone := Int.ediv_le_ediv hstep h
        rw [Int.ediv_self (by omega)] at hone
        omega
    rw [countDown, if_neg (by omega), Nat.zero_add, Nat.cast_one, Int.mul_one]
    by_cases hfalls : high - step < least
    · rw [dif_pos (.inr hfalls), if_neg (by omega)]
    · rw [dif_neg (by omega), if_pos (by omega), countDown, if_pos (by omega), members_succ]
      rfl
  | succ n ih =>
    have hnext : (high - step - low) / step = (high - low) / step - 1 := by
      rw [show high - step - low = (high - low) + (-1) * step by ring,
        Int.add_mul_ediv_right _ _ (by omega)]
      rfl
    have hle' : low ≤ high - step := by
      have hmul := Int.ediv_mul_le (high - low) (show step ≠ 0 by omega)
      have hone : 1 * step ≤ (high - low) / step * step :=
        Int.mul_le_mul_of_nonneg_right (by omega) (by omega)
      omega
    have hrest := ih hle' (by rw [hnext]; omega)
    have hend : high - step - step * ((n + 1 : Nat) : Int) =
        high - step * ((n + 1 + 1 : Nat) : Int) := by
      push_cast
      ring
    rw [countDown, if_neg (by omega), dif_neg (by omega), hrest, hend]
    split_ifs
    · rw [members_succ high, Option.map_some, Int.sub_eq_add_neg]
    · rfl

end NextBSD.Progression
