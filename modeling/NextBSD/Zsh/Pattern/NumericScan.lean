import Mathlib.Algebra.Order.Ring.Nat
import NextBSD.Zsh.Pattern.Numeric

/-!
# The digits of a numeric glob

The matcher reads all digits first, leaving out those that do not fit, and goes back over them
dividing by ten.  What it tries is compared with the values of the digits: `bounded_iff` and
`from_iff` say when the two agree at every place.
-/

namespace NextBSD.Zsh.Pattern.Numeric

open Digits

variable {cs : Charset} {low compend comp left n k : Nat} {high : Option Nat} {once first : Bool}
  {next : Bytes → Bool} {s : Bytes}

def compAt (comp compend k : Nat) : Nat := comp / 10 ^ (compend - k)

def Accepts (low : Nat) (high : Option Nat) (comp compend k : Nat) : Prop :=
  (compend < k ∨ low ≤ compAt comp compend k) ∧ high.all (compAt comp compend k ≤ ·) = true

theorem compAt_mono (comp compend : Nat) {j : Nat} (h : j ≤ k) :
    compAt comp compend j ≤ compAt comp compend k :=
  Nat.div_le_div_left (Nat.pow_le_pow_right (by decide) (by omega)) (by positivity)

theorem compAt_pred : compAt comp compend left =
    if left < compend then compAt comp compend (left + 1) / 10
    else compAt comp compend (left + 1) := by
  unfold compAt
  split_ifs with h
  · rw [Nat.div_div_eq_div_mul, ← Nat.pow_succ,
      show (compend - (left + 1)).succ = compend - left by omega]
  · rw [Nat.sub_eq_zero_of_le (by omega), Nat.sub_eq_zero_of_le (by omega)]

theorem numberBack_iff (hnext : first = true → once = true → ∀ k, 0 < k → k < left →
    next (s.drop k) = false) :
    numberBack low high once next s compend first left (compAt comp compend left) = true ↔
      ∃ k, 0 < k ∧ k ≤ left ∧ Accepts low high comp compend k ∧ next (s.drop k) = true := by
  induction left generalizing first with
  | zero =>
    refine iff_of_false Bool.false_ne_true ?_
    rintro ⟨k, hpos, hle, -⟩
    omega
  | succ left ih =>
    rw [numberBack, ← compAt_pred]
    split_ifs with hbreak hmatch hfirst
    · refine iff_of_false not_false ?_
      rintro ⟨k, -, hle, ⟨hlow, -⟩, -⟩
      have hmono := compAt_mono comp compend hle
      omega
    · rw [Bool.and_eq_true] at hmatch
      exact iff_of_true rfl ⟨left + 1, by omega, le_rfl, ⟨by omega, hmatch.1⟩, hmatch.2⟩
    · refine iff_of_false not_false ?_
      rw [Bool.and_eq_true] at hfirst
      rintro ⟨k, hpos, hle, haccepts, hk⟩
      rcases Nat.lt_or_eq_of_le hle with hlt | rfl
      · rw [hnext hfirst.1 hfirst.2 k hpos hlt] at hk
        cases hk
      · exact hmatch (by rw [Bool.and_eq_true]; exact ⟨haccepts.2, hk⟩)
    · rw [ih (fun h => absurd h Bool.false_ne_true)]
      constructor
      · rintro ⟨k, hpos, hle, h⟩
        exact ⟨k, hpos, by omega, h⟩
      · rintro ⟨k, hpos, hle, haccepts, hk⟩
        rcases Nat.lt_or_eq_of_le hle with hlt | rfl
        · exact ⟨k, hpos, by omega, haccepts, hk⟩
        · exact absurd (by rw [Bool.and_eq_true]; exact ⟨haccepts.2, hk⟩) hmatch

theorem numanyBack_iff (hnext : first = true → once = true → ∀ k, 0 < k → k < left →
    next (s.drop k) = false) :
    numanyBack once next s first left = true ↔
      ∃ k, 0 < k ∧ k ≤ left ∧ next (s.drop k) = true := by
  induction left generalizing first with
  | zero =>
    refine iff_of_false Bool.false_ne_true ?_
    rintro ⟨k, hpos, hle, -⟩
    omega
  | succ left ih =>
    rw [numanyBack]
    split_ifs with hmatch hfirst
    · exact iff_of_true rfl ⟨left + 1, by omega, le_rfl, hmatch⟩
    · refine iff_of_false not_false ?_
      rw [Bool.and_eq_true] at hfirst
      rintro ⟨k, hpos, hle, hk⟩
      rcases Nat.lt_or_eq_of_le hle with hlt | rfl
      · rw [hnext hfirst.1 hfirst.2 k hpos hlt] at hk
        cases hk
      · exact hmatch hk
    · rw [ih (fun h => absurd h Bool.false_ne_true)]
      constructor
      · rintro ⟨k, hpos, hle, h⟩
        exact ⟨k, hpos, by omega, h⟩
      · rintro ⟨k, hpos, hle, hk⟩
        rcases Nat.lt_or_eq_of_le hle with hlt | rfl
        · exact ⟨k, hpos, by omega, hk⟩
        · exact absurd hk hmatch

def value (d : Bytes) : Nat := readDigits 10 (d.map digit)

variable {run d : Bytes} {c : UInt8}

theorem value_snoc (d : Bytes) (c : UInt8) : value (d ++ [c]) = value d * 10 + digit c := by
  rw [value, List.map_append]
  exact readDigits_append_singleton 10 _ _

theorem digit_le (h : idigit c = true) : digit c ≤ 9 := by
  have hc := (idigit_iff c).mp h
  unfold digit
  omega

theorem value_take (hrun : ∀ c ∈ run, idigit c = true) {i : Nat} (h : k + i ≤ run.length) :
    value (run.take (k + i)) / 10 ^ i = value (run.take k) := by
  induction i with
  | zero => rw [Nat.pow_zero, Nat.div_one, Nat.add_zero]
  | succ i ih =>
    have hlt : k + i < run.length := by omega
    have hdigit := digit_le (hrun run[k + i] (List.getElem_mem hlt))
    have hten : (value (run.take (k + i)) * 10 + digit run[k + i]) / 10 =
        value (run.take (k + i)) := by omega
    rw [← Nat.add_assoc, List.take_succ_eq_append_getElem hlt, value_snoc, Nat.pow_succ',
      ← Nat.div_div_eq_div_mul, hten]
    exact ih (by omega)

theorem value_take_mono (hrun : ∀ c ∈ run, idigit c = true) {j : Nat} (h : j ≤ k)
    (hk : k ≤ run.length) : value (run.take j) ≤ value (run.take k) := by
  have hdiv := value_take hrun (k := j) (i := k - j) (by omega)
  rw [Nat.add_sub_cancel' h] at hdiv
  rw [← hdiv]
  exact Nat.div_le_self _ _

/-! ## The loop over the digits -/

theorem scanNumber_takeWhile (isFrom : Bool) (scan : NumberScan) (s : Bytes) :
    scanNumber isFrom scan s = scanNumber isFrom scan (s.takeWhile idigit) := by
  induction s generalizing scan with
  | nil => rfl
  | cons c s ih =>
    cases hc : idigit c with
    | false => simp only [scanNumber, hc, List.takeWhile_cons, Bool.false_eq_true, if_false]
    | true =>
      have htwice : (s.takeWhile idigit).takeWhile idigit = s.takeWhile idigit := by
        rw [List.takeWhile_takeWhile]
        simp
      rw [List.takeWhile_cons_of_pos hc]
      simp only [scanNumber, hc, if_true, htwice, ih]

/-- A bounded number goes on with the digits that do not put it out of range. -/
def foldNumber (comp : Nat) (run : Bytes) : Nat :=
  run.foldl (fun comp c => (addDigit comp c).getD comp) comp

theorem scanNumber_bounded (hrun : ∀ c ∈ run, idigit c = true) (scan : NumberScan) :
    scanNumber false scan run = { comp := foldNumber scan.comp run
                                  length := scan.length + run.length
                                  compend := scan.compend + run.length } := by
  induction run generalizing scan with
  | nil => rfl
  | cons c run ih =>
    have hc := hrun c (.head _)
    rw [scanNumber]
    simp only [hc, if_true, Bool.false_eq_true, and_false, if_false]
    rw [ih fun c hc => hrun c (.tail _ hc)]
    simp only [foldNumber, List.foldl_cons, List.length_cons, NumberScan.mk.injEq, true_and]
    omega

theorem addDigit_some (h : comp * 10 + digit c ≤ ZRANGE_MAX) :
    addDigit comp c = some (comp * 10 + digit c) := by
  unfold addDigit
  rw [if_neg (by omega), if_neg (by omega)]

theorem addDigit_none (h : ZRANGE_MAX < comp * 10 + digit c) : addDigit comp c = none := by
  unfold addDigit
  split_ifs
  · rfl
  · rfl
  · omega

theorem foldNumber_of_le (h : value (d ++ run) ≤ ZRANGE_MAX) :
    foldNumber (value d) run = value (d ++ run) := by
  induction run generalizing d with
  | nil => rw [List.append_nil]; rfl
  | cons c run ih =>
    have hfront : value (d ++ [c]) ≤ value (d ++ c :: run) := by
      simp only [value, List.map_append]
      exact readFrom_le_of_prefix (by decide) 0
        (List.prefix_append_right_inj _ |>.mpr (List.cons_prefix_cons.mpr ⟨rfl, List.nil_prefix⟩))
    have hsum : value d * 10 + digit c ≤ ZRANGE_MAX := by
      rw [← value_snoc]
      exact hfront.trans h
    have hrest := ih (d := d ++ [c]) (by rwa [List.append_assoc])
    rw [List.append_assoc] at hrest
    show foldNumber ((addDigit (value d) c).getD (value d)) run = _
    rw [addDigit_some hsum, Option.getD_some, ← value_snoc]
    exact hrest

theorem foldNumber_stuck (h : ∀ c ∈ run, addDigit comp c = none) (rest : Bytes) :
    foldNumber comp (run ++ rest) = foldNumber comp rest := by
  induction run with
  | nil => rfl
  | cons c run ih =>
    show foldNumber ((addDigit comp c).getD comp) (run ++ rest) = _
    rw [h c (.head _), Option.getD_none]
    exact ih fun c hc => h c (.tail _ hc)

theorem addDigit_large (h : ZRANGE_MAX / 10 < comp) (c : UInt8) : addDigit comp c = none := by
  unfold addDigit
  rw [if_pos h]

theorem foldNumber_large (h : ZRANGE_MAX / 10 < comp) (run : Bytes) :
    foldNumber comp run = comp := by
  have hstuck := foldNumber_stuck (fun c (_ : c ∈ run) => addDigit_large h c) []
  rwa [List.append_nil] at hstuck

/-- The digits are read as `v`, although there are too many of them: digits above 7 do not fit
behind the digits of `ZRANGE_MAX / 10`, and the next one does. -/
def Wraps (run : Bytes) (v : Nat) : Prop :=
  ∃ p q c r, run = p ++ (q ++ c :: r) ∧ value p = ZRANGE_MAX / 10 ∧ q ≠ [] ∧
    (∀ x ∈ q, 7 < digit x) ∧ digit c ≤ 7 ∧ v = value (p ++ [c])

theorem foldNumber_append (comp : Nat) (run rest : Bytes) :
    foldNumber comp (run ++ rest) = foldNumber (foldNumber comp run) rest := List.foldl_append

theorem foldNumber_wraps {v : Nat} (h : Wraps run v) : foldNumber 0 run = v := by
  obtain ⟨p, q, c, r, rfl, hp, -, hq, hc, rfl⟩ := h
  have hmax : ZRANGE_MAX / 10 * 10 + 7 = ZRANGE_MAX := by decide
  have hread : foldNumber 0 p = value p := by
    refine foldNumber_of_le (d := []) ?_
    show value p ≤ _
    rw [hp]
    exact Nat.div_le_self _ _
  have hnone : ∀ x ∈ q, addDigit (value p) x = none := fun x hx =>
    addDigit_none (by rw [hp]; have := hq x hx; omega)
  have hsome : addDigit (value p) c = some (value p * 10 + digit c) :=
    addDigit_some (by rw [hp]; omega)
  rw [foldNumber_append, hread, foldNumber_stuck hnone]
  show foldNumber ((addDigit (value p) c).getD (value p)) r = _
  rw [hsome, Option.getD_some, ← value_snoc]
  refine foldNumber_large ?_ r
  rw [value_snoc, hp]
  have hpos : 0 < ZRANGE_MAX / 10 := by decide
  omega

/-- How digits are read that spell more than `ZRANGE_MAX`: as the longest part in front that
fits, or as that part with a digit from further on. -/
theorem foldNumber_beyond (hrun : ∀ c ∈ run, idigit c = true) (hd : value d ≤ ZRANGE_MAX)
    (h : ZRANGE_MAX < value (d ++ run)) :
    ∃ p r, d ++ run = p ++ r ∧ value p ≤ ZRANGE_MAX ∧
      (∃ x r', r = x :: r' ∧ ZRANGE_MAX < value (p ++ [x])) ∧
      (foldNumber (value d) run = value p ∨
        Wraps (d ++ run) (foldNumber (value d) run) ∧ 2 ≤ r.length ∧
          foldNumber (value d) run / 10 = value p) := by
  have hmax : ZRANGE_MAX / 10 * 10 + 7 = ZRANGE_MAX := by decide
  induction run generalizing d with
  | nil =>
    rw [List.append_nil] at h
    omega
  | cons c run ih =>
    have hc := digit_le (hrun c (.head _))
    by_cases hfits : value (d ++ [c]) ≤ ZRANGE_MAX
    · have hsum : value d * 10 + digit c ≤ ZRANGE_MAX := by rwa [← value_snoc]
      have hnext := ih (fun c hc => hrun c (.tail _ hc)) hfits (by rwa [List.append_assoc])
      have hfold : foldNumber (value d) (c :: run) = foldNumber (value (d ++ [c])) run := by
        show foldNumber ((addDigit (value d) c).getD (value d)) run = _
        rw [addDigit_some hsum, Option.getD_some, value_snoc]
      rw [List.append_assoc] at hnext
      rw [hfold]
      exact hnext
    · rw [Nat.not_le] at hfits
      refine ⟨d, c :: run, rfl, hd, ⟨c, run, rfl, hfits⟩, ?_⟩
      have hnone : addDigit (value d) c = none := addDigit_none (by rwa [← value_snoc])
      have hfold : foldNumber (value d) (c :: run) = foldNumber (value d) run := by
        show foldNumber ((addDigit (value d) c).getD (value d)) run = _
        rw [hnone, Option.getD_none]
      rw [hfold]
      rw [value_snoc] at hfits
      by_cases hlarge : ZRANGE_MAX / 10 < value d
      · exact .inl (foldNumber_large hlarge run)
      have hvalue : value d = ZRANGE_MAX / 10 := by omega
      have hdigit : 7 < digit c := by omega
      -- the digits above 7 that follow
      have happend := List.takeWhile_append_dropWhile (p := (7 < digit ·)) (l := run)
      have hq : ∀ x ∈ run.takeWhile (7 < digit ·), 7 < digit x := fun x hx =>
        of_decide_eq_true (List.all_eq_true.mp List.all_takeWhile x hx)
      have hstuck : ∀ x ∈ run.takeWhile (7 < digit ·), addDigit (value d) x = none := fun x hx =>
        addDigit_none (by rw [hvalue]; have := hq x hx; omega)
      cases hdrop : run.dropWhile (7 < digit ·) with
      | nil =>
        rw [hdrop] at happend
        rw [← happend, foldNumber_stuck hstuck]
        exact .inl rfl
      | cons x r =>
        have hx : digit x ≤ 7 := by
          have hnot := List.head?_dropWhile_not (7 < digit ·) run
          rw [hdrop] at hnot
          simpa using hnot
        have hwraps : Wraps (d ++ c :: run) (value (d ++ [x])) := by
          refine ⟨d, c :: run.takeWhile (7 < digit ·), x, r, ?_, hvalue, List.cons_ne_nil _ _,
            ?_, hx, rfl⟩
          · rw [List.cons_append, ← hdrop, happend]
          · intro y hy
            cases hy with
            | head => exact hdigit
            | tail _ hy => exact hq y hy
        have hread : foldNumber (value d) run = value (d ++ [x]) := by
          have hwhole := foldNumber_wraps hwraps
          rw [foldNumber_append] at hwhole
          have hfront : foldNumber 0 d = value d := foldNumber_of_le (d := []) hd
          rw [hfront, hfold] at hwhole
          exact hwhole
        rw [hread]
        refine .inr ⟨hwraps, ?_, ?_⟩
        · have hlength := congrArg List.length happend
          rw [hdrop, List.length_append, List.length_cons] at hlength
          rw [List.length_cons]
          omega
        · rw [value_snoc]
          omega

/-! ## When the numbers that are tried are those of the digits -/

theorem within_iff_of_shift {f g : Nat → Nat} {a b i j m n : Nat} (hshift : 0 < i)
    (hm : m = j + i) (hmn : m ≤ n) (hfg : ∀ k, k ≤ m → f k = g (k - i)) (hzero : g 0 = 0)
    (hlarge : ∀ k, j < k → k ≤ n → b < g k) :
    (∀ k, 0 < k → k ≤ n → (a ≤ f k ∧ f k ≤ b ↔ a ≤ g k ∧ g k ≤ b)) ↔
      0 < a ∧ (∀ k, 0 < k → k ≤ n → ¬(a ≤ g k ∧ g k ≤ b)) ∧
        ∀ k, m < k → k ≤ n → ¬(a ≤ f k ∧ f k ≤ b) := by
  constructor
  · intro h
    -- the last place within the bounds would have another one behind it
    have hnone : ∀ left k, j - k = left → k ≤ j → ¬(a ≤ g k ∧ g k ≤ b) := by
      intro left
      induction left using Nat.strong_induction_on with
      | _ left ih =>
        intro k hleft hk hwithin
        have hlater : a ≤ g (k + i) ∧ g (k + i) ≤ b := by
          refine (h (k + i) (by omega) (by omega)).mp ?_
          rw [hfg _ (by omega), Nat.add_sub_cancel]
          exact hwithin
        by_cases hj : k + i ≤ j
        · exact ih (j - (k + i)) (by omega) (k + i) rfl hj hlater
        · have hbeyond := hlarge (k + i) (by omega) (by omega)
          omega
    have hnot : ∀ k, 0 < k → k ≤ n → ¬(a ≤ g k ∧ g k ≤ b) := by
      intro k hpos hk hwithin
      by_cases hj : k ≤ j
      · exact hnone _ k rfl hj hwithin
      · have hbeyond := hlarge k (by omega) hk
        omega
    refine ⟨?_, hnot, fun k hmk hk hwithin => hnot k (by omega) hk ((h k (by omega) hk).mp hwithin)⟩
    have hstart := hnone _ 0 rfl (Nat.zero_le j)
    rw [hzero] at hstart
    omega
  · rintro ⟨ha, hnot, hlast⟩ k hpos hk
    refine iff_of_false (fun hwithin => ?_) (hnot k hpos hk)
    by_cases hkm : k ≤ m
    · rw [hfg k hkm] at hwithin
      by_cases hks : k ≤ i
      · rw [Nat.sub_eq_zero_of_le hks, hzero] at hwithin
        omega
      · exact hnot (k - i) (by omega) (by omega) hwithin
    · exact hlast k (by omega) hk hwithin

theorem value_div (hrun : ∀ c ∈ run, idigit c = true) {j i : Nat} (hj : j ≤ run.length) :
    value (run.take j) / 10 ^ i = value (run.take (j - i)) := by
  by_cases hi : i ≤ j
  · have htake := value_take hrun (k := j - i) (i := i) (by omega)
    rwa [Nat.sub_add_cancel hi] at htake
  · have hlt : value (run.take j) < 10 ^ (run.take j).length := by
      have hdigits : ∀ x ∈ (run.take j).map digit, x < 10 := by
        intro x hx
        obtain ⟨c, hc, rfl⟩ := List.mem_map.mp hx
        have hle := digit_le (hrun c (List.mem_of_mem_take hc))
        omega
      have hread := readFrom_lt 0 hdigits
      rwa [List.length_map, Nat.zero_add, Nat.one_mul] at hread
    have hlen : (run.take j).length ≤ i := by
      rw [List.length_take]
      omega
    rw [Nat.sub_eq_zero_of_le (by omega), List.take_zero]
    exact Nat.div_eq_of_lt (hlt.trans_le (Nat.pow_le_pow_right (by decide) hlen))

/-- No part of the digits is within the bounds, nor what too many of them are read as. -/
def Apart (a b : Nat) (run : Bytes) : Prop :=
  0 < a ∧ (∀ p, p ≠ [] → p <+: run → ¬(a ≤ value p ∧ value p ≤ b)) ∧
    ∀ v, Wraps run v → ¬(a ≤ v ∧ v ≤ b)

theorem forall_prefix_iff {P : Nat → Prop} :
    (∀ p, p ≠ [] → p <+: run → P (value p)) ↔
      ∀ k, 0 < k → k ≤ run.length → P (value (run.take k)) := by
  constructor
  · intro h k hpos hk
    refine h _ (fun hnil => ?_) (List.take_prefix k run)
    have hlength := congrArg List.length hnil
    rw [List.length_take, List.length_nil] at hlength
    omega
  · intro h p hne hp
    have hlength := h p.length (List.length_pos_of_ne_nil hne) hp.length_le
    rwa [← List.prefix_iff_eq_take.mp hp] at hlength

theorem accepts_bounded {a b : Nat} (hk : k ≤ n) :
    Accepts a (some b) comp n k ↔ a ≤ compAt comp n k ∧ compAt comp n k ≤ b := by
  unfold Accepts
  rw [Option.all_some, decide_eq_true_eq, or_iff_right (by omega)]

/-- With an upper bound the digits are read right if there are not too many of them, or if no
number comes into question. -/
theorem bounded_iff {a b : Nat} (hrun : ∀ c ∈ run, idigit c = true) (hb : b ≤ ZRANGE_MAX) :
    (∀ k, 0 < k → k ≤ run.length →
      (Accepts a (some b) (foldNumber 0 run) run.length k ↔
        a ≤ value (run.take k) ∧ value (run.take k) ≤ b)) ↔
      value run ≤ ZRANGE_MAX ∨ Apart a b run := by
  have haccepts : (∀ k, 0 < k → k ≤ run.length →
      (Accepts a (some b) (foldNumber 0 run) run.length k ↔
        a ≤ value (run.take k) ∧ value (run.take k) ≤ b)) ↔
      ∀ k, 0 < k → k ≤ run.length →
        (a ≤ compAt (foldNumber 0 run) run.length k ∧
          compAt (foldNumber 0 run) run.length k ≤ b ↔
            a ≤ value (run.take k) ∧ value (run.take k) ≤ b) :=
    forall_congr' fun k => imp_congr_right fun _ => imp_congr_right fun hk => by
      rw [accepts_bounded hk]
  rw [haccepts]
  by_cases hmax : value run ≤ ZRANGE_MAX
  · refine iff_of_true (fun k hpos hk => ?_) (.inl hmax)
    have hread : foldNumber 0 run = value run := foldNumber_of_le (d := []) hmax
    have hcomp : compAt (foldNumber 0 run) run.length k = value (run.take k) := by
      have htake := value_take hrun (k := k) (i := run.length - k) (by omega)
      rwa [Nat.add_sub_cancel' hk, List.take_length, ← hread] at htake
    rw [hcomp]
  rw [or_iff_right hmax]
  obtain ⟨p, r, happend, hp, ⟨x, r', hr, hx⟩, hread⟩ :=
    foldNumber_beyond (d := []) hrun (Nat.zero_le _) (Nat.not_le.mp hmax)
  rw [List.nil_append] at happend hread
  change foldNumber 0 run = value p ∨ Wraps run (foldNumber 0 run) ∧ 2 ≤ r.length ∧
    foldNumber 0 run / 10 = value p at hread
  have hlength : run.length = p.length + r.length := by rw [happend, List.length_append]
  have hrlength : 0 < r.length := by rw [hr]; exact Nat.succ_pos _
  have htake : run.take p.length = p := by rw [happend, List.take_left]
  have hlarge : ∀ k, p.length < k → k ≤ run.length → b < value (run.take k) := by
    intro k hk hkn
    have hnext : run.take (p.length + 1) = p ++ [x] := by
      rw [happend, hr, List.append_cons]
      exact List.take_left' (by rw [List.length_append, List.length_singleton])
    have hmono := value_take_mono hrun (j := p.length + 1) hk hkn
    rw [hnext] at hmono
    omega
  have hdiv (i : Nat) : value p / 10 ^ i = value (run.take (p.length - i)) := by
    have h := value_div hrun (j := p.length) (i := i) (by omega)
    rwa [htake] at h
  rw [Apart, forall_prefix_iff (P := fun v => ¬(a ≤ v ∧ v ≤ b))]
  rcases hread with hread | ⟨hwraps, hrtwo, hread⟩
  · rw [within_iff_of_shift (j := p.length) (m := run.length) (i := r.length) hrlength hlength
      le_rfl (fun k hk => ?_) rfl hlarge]
    · refine and_congr_right fun ha => and_congr_right fun hnot => ?_
      refine iff_of_true (fun k hlt hle => by omega) (fun v hv => ?_)
      rw [← foldNumber_wraps hv, hread]
      by_cases hp0 : p.length = 0
      · rw [List.length_eq_zero_iff.mp hp0]
        show ¬(a ≤ 0 ∧ 0 ≤ b)
        omega
      · have h := hnot p.length (by omega) (by omega)
        rwa [htake] at h
    · rw [hread, compAt, hdiv]
      congr 2
      omega
  · rw [within_iff_of_shift (j := p.length) (m := run.length - 1) (i := r.length - 1)
      (by omega) (by omega) (by omega) (fun k hk => ?_) rfl hlarge]
    · refine and_congr_right fun ha => and_congr_right fun hnot => ?_
      constructor
      · intro hlast v hv
        have h := hlast run.length (by omega) le_rfl
        rw [compAt, Nat.sub_self, Nat.pow_zero, Nat.div_one] at h
        rwa [← foldNumber_wraps hv]
      · intro h k hk hkn
        have hkeq : k = run.length := by omega
        rw [hkeq, compAt, Nat.sub_self, Nat.pow_zero, Nat.div_one]
        exact h _ hwraps
    · rw [compAt, show run.length - k = (run.length - 1 - k) + 1 by omega, Nat.pow_succ',
        ← Nat.div_div_eq_div_mul, hread, hdiv]
      congr 2
      omega

/-- No digit takes the number from below `2 ^ 62` beyond `ZRANGE_MAX`. -/
def NoJump (run : Bytes) : Prop :=
  ∀ p c, p ++ [c] <+: run → value p < 2 ^ 62 → value (p ++ [c]) ≤ ZRANGE_MAX

theorem scanNumber_from (hrun : ∀ c ∈ run, idigit c = true) (hd : value d < 2 ^ 62)
    (length compend : Nat) :
    ∃ comp k, scanNumber true ⟨value d, length, compend⟩ run =
        ⟨comp, length + run.length, compend + k⟩ ∧ k ≤ run.length ∧
      (k = run.length ∧ comp = value (d ++ run) ∧ comp < 2 ^ 62 ∨
        0 < k ∧ comp = value (d ++ run.take k) ∧ 2 ^ 62 ≤ comp ∧ comp ≤ ZRANGE_MAX ∨
        0 < k ∧ comp = value (d ++ run.take (k - 1)) ∧ comp < 2 ^ 62 ∧
          ZRANGE_MAX < value (d ++ run.take k)) := by
  induction run generalizing d length compend with
  | nil =>
    refine ⟨value d, 0, rfl, le_rfl, .inl ⟨rfl, ?_, hd⟩⟩
    rw [List.append_nil]
  | cons c run ih =>
    have hc := hrun c (.head _)
    have hdigits : run.takeWhile idigit = run :=
      List.takeWhile_eq_self_iff.mpr fun x hx => hrun x (.tail _ hx)
    have hone : d ++ (c :: run).take 1 = d ++ [c] := rfl
    rw [scanNumber]
    simp only [hc, if_true, and_true, hdigits]
    by_cases hfits : value (d ++ [c]) ≤ ZRANGE_MAX
    · have hsum : addDigit (value d) c = some (value (d ++ [c])) := by
        rw [value_snoc] at hfits ⊢
        exact addDigit_some hfits
      rw [hsum, Option.getD_some]
      by_cases hbit : 2 ^ 62 ≤ value (d ++ [c])
      · refine ⟨value (d ++ [c]), 1, ?_, by simp, .inr (.inl ⟨Nat.one_pos, rfl, hbit, hfits⟩)⟩
        rw [if_pos (.inr hbit)]
        simp only [List.length_cons, NumberScan.mk.injEq, true_and, and_true]
        omega
      · obtain ⟨comp, k, hscan, hk, hcases⟩ := ih (fun x hx => hrun x (.tail _ hx))
          (Nat.not_le.mp hbit) (length + 1) (compend + 1)
        refine ⟨comp, k + 1, ?_, by simpa using hk, ?_⟩
        · rw [if_neg (by simpa using hbit), hscan]
          simp only [List.length_cons, NumberScan.mk.injEq, true_and]
          omega
        · simp only [List.append_assoc, List.cons_append, List.nil_append] at hcases
          rcases hcases with ⟨rfl, hcomp⟩ | ⟨hpos, hcomp⟩ | ⟨hpos, hcomp⟩
          · exact .inl ⟨rfl, hcomp⟩
          · exact .inr (.inl ⟨Nat.succ_pos k, hcomp⟩)
          · refine .inr (.inr ⟨Nat.succ_pos k, ?_⟩)
            obtain ⟨i, rfl⟩ : ∃ i, k = i + 1 := ⟨k - 1, by omega⟩
            exact hcomp
    · have hnone : addDigit (value d) c = none := by
        rw [value_snoc, Nat.not_le] at hfits
        exact addDigit_none hfits
      refine ⟨value d, 1, ?_, by simp, .inr (.inr ⟨Nat.one_pos, ?_, hd, Nat.not_le.mp hfits⟩)⟩
      · rw [hnone, Option.getD_none, if_pos (.inl rfl)]
        simp only [List.length_cons, NumberScan.mk.injEq, true_and, and_true]
        omega
      · rw [Nat.sub_self, List.take_zero, List.append_nil]

theorem accepts_from {a : Nat} :
    Accepts a none comp compend k ↔ compend < k ∨ a ≤ compAt comp compend k := by
  unfold Accepts
  simp only [Option.all_none, and_true]

theorem from_iff {a : Nat} (hrun : ∀ c ∈ run, idigit c = true) (ha : a ≤ ZRANGE_MAX)
    (hscan : scanNumber true ⟨0, 0, 0⟩ run = ⟨comp, n, compend⟩) :
    n = run.length ∧ compend ≤ n ∧
      ((∀ k, 0 < k → k ≤ run.length → (Accepts a none comp compend k ↔
        a ≤ value (run.take k))) ↔ a = 0 ∨ NoJump run) := by
  have hmax : 2 ^ 62 ≤ ZRANGE_MAX ∧ ZRANGE_MAX < 10 * 2 ^ 62 := by decide
  obtain ⟨comp', k', hscan', hk', hcases⟩ := scanNumber_from hrun (d := []) (by decide) 0 0
  have heq := hscan.symm.trans hscan'
  simp only [NumberScan.mk.injEq, Nat.zero_add] at heq
  obtain ⟨rfl, rfl, rfl⟩ := heq
  refine ⟨rfl, hk', ?_⟩
  simp only [List.nil_append] at hcases
  simp only [accepts_from]
  rcases hcases with ⟨rfl, rfl, hlt⟩ | ⟨hpos, rfl, hle, hfits⟩ | ⟨hpos, hcomp, hlt, hbeyond⟩
  · -- all digits are counted
    refine iff_of_true (fun k hpos hk => ?_) (.inr fun p c hp _ => ?_)
    · have htake := value_take hrun (k := k) (i := run.length - k) (by omega)
      rw [Nat.add_sub_cancel' hk, List.take_length] at htake
      rw [or_iff_right (by omega), compAt, htake]
    · have hmono := value_take_mono hrun hp.length_le le_rfl
      rw [← List.prefix_iff_eq_take.mp hp, List.take_length] at hmono
      omega
  · -- the number has become large, and what follows makes it larger
    refine iff_of_true (fun k hkpos hk => ?_) (.inr fun p c hp hsmall => ?_)
    · by_cases hlater : compend < k
      · refine iff_of_true (.inl hlater) ?_
        have hstep : value (run.take compend) * 10 ≤ value (run.take (compend + 1)) := by
          rw [List.take_succ_eq_append_getElem (by omega), value_snoc]
          exact Nat.le_add_right _ _
        have hmono := value_take_mono hrun (j := compend + 1) hlater hk
        omega
      · have htake := value_take hrun (k := k) (i := compend - k) (by omega)
        rw [Nat.add_sub_cancel' (by omega)] at htake
        rw [or_iff_right hlater, compAt, htake]
    · have hplen : p.length < compend := by
        by_contra hge
        have hmono := value_take_mono hrun (j := compend) (k := p.length) (by omega)
          (by have := hp.length_le; rw [List.length_append] at this; omega)
        rw [← List.prefix_iff_eq_take.mp ((List.prefix_append p [c]).trans hp)] at hmono
        omega
      have hmono := value_take_mono hrun (j := (p ++ [c]).length) (k := compend)
        (by rw [List.length_append, List.length_singleton]; omega) hk'
      rw [← List.prefix_iff_eq_take.mp hp] at hmono
      omega
  · -- the digit that does not fit is taken for no digit
    obtain ⟨i, rfl⟩ : ∃ i, compend = i + 1 := ⟨compend - 1, by omega⟩
    rw [Nat.add_sub_cancel] at hcomp
    have hjump : ¬NoJump run := by
      intro hno
      have hprefix := List.take_prefix (i + 1) run
      rw [List.take_succ_eq_append_getElem (by omega)] at hprefix hbeyond
      have hle := hno _ _ hprefix (by rw [← hcomp]; exact hlt)
      omega
    rw [or_iff_left hjump]
    constructor
    · intro h
      by_contra hne
      -- the first place at which the number is large enough
      have hex : ∃ k, a ≤ value (run.take k) := ⟨i + 1, by omega⟩
      have hspec := Nat.find_spec hex
      have hle : Nat.find hex ≤ i + 1 := Nat.find_min' hex (by omega)
      have hkpos : 0 < Nat.find hex := by
        rcases Nat.eq_zero_or_pos (Nat.find hex) with hzero | hpos'
        · rw [hzero, List.take_zero] at hspec
          exact absurd (Nat.le_zero.mp hspec) hne
        · exact hpos'
      have hmin := Nat.find_min hex (m := Nat.find hex - 1) (by omega)
      have haccepts := (h _ hkpos (hle.trans hk')).mpr hspec
      rw [or_iff_right (by omega), hcomp, compAt, value_div hrun (by omega),
        show i - (i + 1 - Nat.find hex) = Nat.find hex - 1 by omega] at haccepts
      exact hmin haccepts
    · rintro rfl k - -
      exact iff_of_true (.inr (Nat.zero_le _)) (Nat.zero_le _)

end NextBSD.Zsh.Pattern.Numeric
