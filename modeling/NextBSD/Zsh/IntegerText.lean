import NextBSD.Library.Grouping
import NextBSD.Zsh.Number

/-!
# params.c: integers as text

The digits are counted first and then filled in from the last one, in a base that may be marked in
front of them.
-/

namespace NextBSD.Zsh

open Digits Grouping

structure NumberOptions where
  cbases : Bool
  octalzeroes : Bool
  forcefloat : Bool
  cprecedences : Bool
  deriving DecidableEq, Repr

def digitByte (dig : Nat) : UInt8 :=
  if dig < 10 then UInt8.ofNat (48 + dig) else UInt8.ofNat (dig - 10 + 65)

/-- `for (x = v; x; digs++) x /= base`, for at most so many rounds. -/
def countDigits (base : Nat) : Nat → Nat → Nat
  | 0, _ => 0
  | rounds + 1, x => if x = 0 then 0 else countDigits base rounds (x / base) + 1

/-- The digits from the last one; `out` is what stands behind them. -/
def fillDigits (base : Nat) : Nat → Nat → Bytes → Bytes
  | 0, _, out => out
  | digs + 1, x, out => fillDigits base digs (x / base) (digitByte (x % base) :: out)

/-- `%d` of a positive number. -/
def decimalBytes (n : Nat) : Bytes := (printDigits 10 n).map digitByte

def baseMark (o : NumberOptions) (base : Int) : Bytes :=
  if base > 0 then
    if o.cbases = true ∧ base = 16 then [48, 120]
    else if o.cbases = true ∧ base = 8 ∧ o.octalzeroes = true then [48]
    else if base ≠ 10 then decimalBytes base.toNat ++ [35]
    else []
  else []

/-- What `convbase_ptr` writes, and `*ndigits`. -/
structure BaseDigits where
  text : Bytes
  ndigits : Nat
  deriving DecidableEq, Repr

/-- `convbase_ptr`.  The lowest `zlong` stays what it is when it is negated. -/
def convbasePtr (o : NumberOptions) (v base : Int) : BaseDigits :=
  let sign : Bytes := if v < 0 then [45] else []
  let v := if v < 0 then zlong (-v) else v
  let base := if -1 ≤ base ∧ base ≤ 1 then -10 else base
  let x := (v % 2 ^ 64).toNat
  let digs := countDigits base.natAbs 64 x
  let digs := if digs = 0 then 1 else digs
  { text := sign ++ (baseMark o base ++ fillDigits base.natAbs digs x []), ndigits := digs }

/-- The loop from the end of the text, which `sptr` holds backwards. -/
def underscoreLoop (underscore : Nat) : Nat → Nat → Bytes → Bytes → Bytes
  | 0, _, _, out => out
  | ndigits + 1, mod, sptr, out =>
    if ndigits = 0 then sptr.headD 0 :: out
    else if mod + 1 = underscore then
      underscoreLoop underscore ndigits 0 sptr.tail (95 :: sptr.headD 0 :: out)
    else underscoreLoop underscore ndigits (mod + 1) sptr.tail (sptr.headD 0 :: out)

def convbaseUnderscore (o : NumberOptions) (v base underscore : Int) : Bytes :=
  let s := convbasePtr o v base
  if underscore ≤ 0 then s.text
  else if (s.ndigits - 1) / underscore.toNat = 0 then s.text
  else s.text.take (s.text.length - s.ndigits) ++
    underscoreLoop underscore.toNat s.ndigits 0 s.text.reverse []

/-! ## Digits -/

def intDigits (base n : Nat) : List Nat := if n = 0 then [0] else printDigits base n

theorem intDigits_pos {base n : Nat} (h : n ≠ 0) : intDigits base n = printDigits base n :=
  if_neg h

theorem readDigits_intDigits (base n : Nat) : readDigits base (intDigits base n) = n := by
  by_cases h : n = 0
  · subst h
    show 0 * base + 0 = 0
    omega
  · rw [intDigits_pos h, readDigits_printDigits]

theorem intDigits_lt {base n d : Nat} (hbase : 1 < base) (h : d ∈ intDigits base n) : d < base := by
  by_cases hn : n = 0
  · rw [intDigits, if_pos hn, List.mem_singleton] at h
    omega
  · exact printDigits_lt hbase (intDigits_pos hn ▸ h)

theorem printDigits_step {base n : Nat} (hbase : 1 < base) (hn : n ≠ 0) :
    printDigits base n = printDigits base (n / base) ++ [n % base] := by
  unfold printDigits
  rw [Nat.digits_def' hbase (Nat.pos_of_ne_zero hn), List.reverse_cons]

theorem intDigits_ne_nil {base n : Nat} (hbase : 1 < base) : intDigits base n ≠ [] := by
  by_cases hn : n = 0
  · rw [intDigits, if_pos hn]
    exact List.cons_ne_nil 0 []
  · rw [intDigits_pos hn, printDigits_step hbase hn]
    exact List.append_ne_nil_of_right_ne_nil _ (List.cons_ne_nil _ _)

theorem head?_printDigits {base n : Nat} : (printDigits base n).head? ≠ some 0 := by
  by_cases hn : n = 0
  · subst hn
    unfold printDigits
    rw [Nat.digits_zero]
    exact nofun
  · intro h
    unfold printDigits at h
    rw [List.head?_reverse, List.getLast?_eq_some_getLast
      (Nat.digits_ne_nil_iff_ne_zero.mpr hn)] at h
    exact Nat.getLast_digit_ne_zero base hn (Option.some.inj h)

theorem countDigits_eq {base : Nat} (hbase : 1 < base) {rounds x : Nat} (h : x < 2 ^ rounds) :
    countDigits base rounds x = (printDigits base x).length := by
  induction rounds generalizing x with
  | zero =>
    obtain rfl : x = 0 := by omega
    unfold printDigits
    rw [Nat.digits_zero]
    rfl
  | succ rounds ih =>
    unfold countDigits
    by_cases hx : x = 0
    · subst hx
      unfold printDigits
      rw [if_pos rfl, Nat.digits_zero]
      rfl
    · have hlt : x / base < 2 ^ rounds := by
        refine (Nat.div_lt_iff_lt_mul (by omega)).mpr (Nat.lt_of_lt_of_le h ?_)
        rw [Nat.pow_succ]
        exact Nat.mul_le_mul_left _ hbase
      rw [if_neg hx, ih hlt, printDigits_step hbase hx, List.length_append]
      rfl

theorem fillDigits_eq {base : Nat} (hbase : 1 < base) {x : Nat} (out : Bytes) :
    fillDigits base (printDigits base x).length x out =
      (printDigits base x).map digitByte ++ out := by
  induction x using Nat.strong_induction_on generalizing out with
  | _ x ih =>
    by_cases hx : x = 0
    · subst hx
      unfold printDigits
      rw [Nat.digits_zero]
      rfl
    · have hlt : x / base < x := Nat.div_lt_self (Nat.pos_of_ne_zero hx) hbase
      rw [printDigits_step hbase hx, List.length_append, List.length_singleton, fillDigits,
        ih _ hlt, List.map_append, List.append_assoc]
      rfl

theorem filled_eq {base x : Nat} (hbase : 1 < base) (hx : x < 2 ^ 64) :
    (if countDigits base 64 x = 0 then 1 else countDigits base 64 x) =
        (intDigits base x).length ∧
      fillDigits base (intDigits base x).length x [] = (intDigits base x).map digitByte := by
  rw [countDigits_eq hbase hx]
  by_cases h : x = 0
  · subst h
    refine ⟨?_, ?_⟩
    · unfold printDigits
      rw [Nat.digits_zero]
      rfl
    · show [digitByte (0 % base)] = [digitByte 0]
      rw [Nat.zero_mod]
  · have hne : printDigits base x ≠ [] := intDigits_pos h ▸ intDigits_ne_nil hbase
    rw [intDigits_pos h, if_neg fun h => hne (List.length_eq_zero_iff.mp h), fillDigits_eq hbase,
      List.append_nil]
    exact ⟨rfl, rfl⟩

theorem negated_eq {v : Int} (hv : -2 ^ 63 ≤ v ∧ v < 2 ^ 63) :
    ((if v < 0 then zlong (-v) else v) % 2 ^ 64).toNat = v.natAbs := by
  unfold zlong
  split <;> omega

def signText (v : Int) : Bytes := if v < 0 then [45] else []

theorem convbasePtr_eq {o : NumberOptions} {v base : Int} (hv : -2 ^ 63 ≤ v ∧ v < 2 ^ 63)
    (hbase : 2 ≤ base.natAbs) :
    convbasePtr o v base =
      { text := signText v ++
          (baseMark o base ++ (intDigits base.natAbs v.natAbs).map digitByte)
        ndigits := (intDigits base.natAbs v.natAbs).length } := by
  have hkeep : ¬ (-1 ≤ base ∧ base ≤ 1) := by omega
  have hlt : v.natAbs < 2 ^ 64 := by omega
  obtain ⟨hcount, hfill⟩ := @filled_eq base.natAbs v.natAbs (by omega) hlt
  unfold convbasePtr
  simp only [if_neg hkeep, negated_eq hv]
  rw [hcount, hfill]
  rfl

theorem underscoreLoop_eq (width mod : Nat) (digits rest out : Bytes) :
    underscoreLoop width digits.length mod (digits ++ rest) out =
      (separate 95 width mod digits).reverse ++ out := by
  induction digits generalizing mod out with
  | nil => rfl
  | cons c digits ih =>
    have hne : digits ≠ [] ↔ digits.length ≠ 0 := not_congr List.length_eq_zero_iff.symm
    rw [List.length_cons, underscoreLoop, separate]
    dsimp only [List.cons_append, List.tail_cons, List.headD_cons]
    by_cases hlast : digits.length = 0
    · have hnil : ¬ (digits ≠ [] ∧ mod + 1 = width) := fun h => hne.mp h.1 hlast
      rw [if_pos hlast, if_neg hnil, List.length_eq_zero_iff.mp hlast]
      rfl
    · rw [if_neg hlast, ih, ih]
      by_cases hfull : mod + 1 = width
      · rw [if_pos hfull, if_pos ⟨hne.mpr hlast, hfull⟩]
        simp
      · rw [if_neg hfull, if_neg fun h => hfull h.2]
        simp

theorem convbaseUnderscore_eq {o : NumberOptions} {v base underscore : Int}
    (hv : -2 ^ 63 ≤ v ∧ v < 2 ^ 63) (hbase : 2 ≤ base.natAbs) :
    ∃ grouped, convbaseUnderscore o v base underscore =
        signText v ++ (baseMark o base ++ grouped) ∧
      (underscore ≤ 0 → grouped = (intDigits base.natAbs v.natAbs).map digitByte) ∧
      (0 < underscore → FromRight 95 underscore.toNat
        ((intDigits base.natAbs v.natAbs).map digitByte) grouped) := by
  have hne : (intDigits base.natAbs v.natAbs).map digitByte ≠ [] :=
    fun h => intDigits_ne_nil (by omega) (List.map_eq_nil_iff.mp h)
  unfold convbaseUnderscore
  rw [convbasePtr_eq hv hbase]
  dsimp only
  rw [← List.length_map digitByte]
  generalize (intDigits base.natAbs v.natAbs).map digitByte = digits at hne ⊢
  by_cases hu : underscore ≤ 0
  · rw [if_pos hu]
    exact ⟨digits, rfl, fun _ => rfl, fun h => absurd hu (by omega)⟩
  · rw [if_neg hu]
    have hwidth : 0 < underscore.toNat := by omega
    by_cases hfew : (digits.length - 1) / underscore.toNat = 0
    · rw [if_pos hfew]
      refine ⟨digits, rfl, fun h => absurd h hu, fun _ => ?_⟩
      refine .last (fun h => hne (List.reverse_eq_nil_iff.mp h)) ?_
      rw [Nat.div_eq_zero_iff] at hfew
      rw [List.length_reverse]
      omega
    · rw [if_neg hfew]
      have hfront : (signText v ++ (baseMark o base ++ digits)).take
          ((signText v ++ (baseMark o base ++ digits)).length - digits.length) =
            signText v ++ baseMark o base := by
        rw [← List.append_assoc, @List.length_append _ _ digits, Nat.add_sub_cancel]
        exact List.take_left
      have hback : (signText v ++ (baseMark o base ++ digits)).reverse =
          digits.reverse ++ (signText v ++ baseMark o base).reverse := by
        rw [← List.append_assoc, List.reverse_append]
      rw [hfront, hback, ← List.length_reverse, underscoreLoop_eq, List.append_nil,
        List.append_assoc]
      refine ⟨_, rfl, fun h => absurd h hu, fun _ => ?_⟩
      unfold FromRight
      rw [List.reverse_reverse]
      exact separate_zero hwidth digits.reverse

end NextBSD.Zsh
