import NextBSD.Library.Grouping
import NextBSD.Zsh.Number

/-!
# params.c: the digits of a floating point number in groups

The number of underscores that memory is taken for is counted by itself, with a division that
truncates.
-/

namespace NextBSD.Zsh

open Grouping

/-- The text that is returned, and how many bytes were allocated if it is a new one. -/
structure UnderscoreText where
  allocated : Option Int
  text : Bytes
  deriving DecidableEq, Repr

/-- The loop over the digits in front of the point: what it writes, and where it ends. -/
def intLoop (underscore : Nat) : Nat → Bytes → Bytes × Bytes
  | 0, sptr => ([], sptr)
  | ndigits + 1, sptr =>
    let r := intLoop underscore ndigits sptr.tail
    (if ndigits ≠ 0 ∧ ndigits % underscore = 0 then sptr.headD 0 :: 95 :: r.1
      else sptr.headD 0 :: r.1, r.2)

def fracLoop (underscore : Nat) : Nat → Nat → Bytes → Bytes × Bytes
  | 0, _, sptr => ([], sptr)
  | ndigits + 1, mod, sptr =>
    if ndigits ≠ 0 ∧ mod + 1 = underscore then
      let r := fracLoop underscore ndigits 0 sptr.tail
      (sptr.headD 0 :: 95 :: r.1, r.2)
    else
      let r := fracLoop underscore ndigits (mod + 1) sptr.tail
      (sptr.headD 0 :: r.1, r.2)

def countUnderscores (ndigits : Nat) (underscore : Int) : Int :=
  ((ndigits : Int) - 1).tdiv underscore

/-- `convfloat_underscore`, of the text `s` that `convfloat` returns. -/
def convfloatUnderscore (s : Bytes) (underscore : Int) : UnderscoreText :=
  if underscore ≤ 0 then { allocated := none, text := s }
  else
    let sign := if s.head? = some 45 then [45] else []
    let sptr := if s.head? = some 45 then s.tail else s
    let ndigitsInt := (sptr.takeWhile idigit).length
    let point := sptr.dropWhile idigit
    let ndigitsFrac := if point.head? = some 46 then (point.tail.takeWhile idigit).length else 0
    let nunderscore := countUnderscores ndigitsInt underscore + countUnderscores ndigitsFrac underscore
    if nunderscore = 0 then { allocated := none, text := s }
    else
      let int := intLoop underscore.toNat ndigitsInt sptr
      let frac := if ndigitsFrac ≠ 0 then
          let r := fracLoop underscore.toNat ndigitsFrac 0 int.2.tail
          (int.2.headD 0 :: r.1, r.2)
        else ([], int.2)
      { allocated := some (s.length + nunderscore + 1)
        text := sign ++ int.1 ++ frac.1 ++ frac.2 }

/-! ## The texts of floating point numbers -/

def isDigits (s : Bytes) : Prop := s.all idigit = true

theorem isDigits.mem {s : Bytes} (h : isDigits s) {c : UInt8} (hc : c ∈ s) : idigit c = true :=
  List.all_eq_true.mp h c hc

theorem isDigits.clean {s : Bytes} (h : isDigits s) : 95 ∉ s := fun hmem =>
  absurd (h.mem hmem) (by decide)

/-- A sign, digits with or without a point, and an exponent, `Inf` or `NaN`. -/
structure FloatShape (sign int point frac tail : Bytes) : Prop where
  sign_eq : sign = [] ∨ sign = [45]
  int_digits : isDigits int
  point_eq : point = [] ∧ frac = [] ∨ point = [46]
  frac_digits : isDigits frac
  tail_eq : tail = [] ∨ (∃ c exponent, tail = 101 :: c :: exponent ∧ (c = 43 ∨ c = 45) ∧
    isDigits exponent) ∨ int = [] ∧ point = [] ∧ (tail = [73, 110, 102] ∨ tail = [78, 97, 78])

/-- What is written fits, and the digits are grouped on both sides of the point. -/
structure GroupedText (sign int point frac tail : Bytes) (width : Nat) (r : UnderscoreText) :
    Prop where
  fits : ∀ n, r.allocated = some n → (r.text.length : Int) + 1 ≤ n
  filter : r.text.filter (· ≠ 95) = sign ++ (int ++ (point ++ (frac ++ tail)))
  grouped : ∃ int' frac', FromRight 95 width int int' ∧ FromLeft 95 width frac frac' ∧
    r.text = sign ++ (int' ++ (point ++ (frac' ++ tail)))

theorem intLoop_grouped {width : Nat} (hwidth : 0 < width) (digits rest : Bytes) :
    ∃ out, intLoop width digits.length (digits ++ rest) = (out, rest) ∧
      FromRight 95 width digits out := by
  induction digits with
  | nil => exact ⟨[], rfl, .nil⟩
  | cons c digits ih =>
    obtain ⟨out, heq, hout⟩ := ih
    have hcons := FromRight.cons hout hwidth c
    have hne : digits ≠ [] ↔ digits.length ≠ 0 := not_congr List.length_eq_zero_iff.symm
    rw [List.length_cons, intLoop]
    dsimp only [List.cons_append, List.tail_cons, List.headD_cons]
    rw [heq]
    refine ⟨_, rfl, ?_⟩
    by_cases h : digits ≠ [] ∧ digits.length % width = 0
    · rw [if_pos h] at hcons
      rwa [if_pos ⟨hne.mp h.1, h.2⟩]
    · rw [if_neg h] at hcons
      rwa [if_neg fun hc => h ⟨hne.mpr hc.1, hc.2⟩]

theorem fracLoop_separate (width mod : Nat) (digits rest : Bytes) :
    fracLoop width digits.length mod (digits ++ rest) = (separate 95 width mod digits, rest) := by
  induction digits generalizing mod with
  | nil => rfl
  | cons c digits ih =>
    have hne : digits ≠ [] ↔ digits.length ≠ 0 := not_congr List.length_eq_zero_iff.symm
    rw [List.length_cons, fracLoop, separate]
    dsimp only [List.cons_append, List.tail_cons, List.headD_cons]
    by_cases h : digits ≠ [] ∧ mod + 1 = width
    · rw [if_pos h, if_pos ⟨hne.mp h.1, h.2⟩, ih]
    · rw [if_neg h, if_neg fun hc => h ⟨hne.mpr hc.1, hc.2⟩, ih]

theorem span_digits {digits rest : Bytes} (hd : isDigits digits)
    (hrest : rest.head?.all (fun c => !idigit c) = true) :
    (digits ++ rest).takeWhile idigit = digits ∧ (digits ++ rest).dropWhile idigit = rest := by
  rw [List.takeWhile_append_of_pos fun c hc => hd.mem hc,
    List.dropWhile_append_of_pos fun c hc => hd.mem hc]
  cases rest with
  | nil => exact ⟨List.append_nil digits, rfl⟩
  | cons c rest =>
    have hc : ¬ idigit c = true := by simpa using hrest
    rw [List.takeWhile_cons_of_neg hc, List.dropWhile_cons_of_neg hc]
    exact ⟨List.append_nil digits, rfl⟩

section Shape

variable {sign int point frac tail : Bytes} (h : FloatShape sign int point frac tail)

include h

theorem FloatShape.tail_head : tail.head?.all (fun c => !idigit c && c ≠ 46) = true := by
  rcases h.tail_eq with rfl | ⟨c, exponent, rfl, -⟩ | ⟨-, -, rfl | rfl⟩ <;> rfl

theorem FloatShape.tail_clean : 95 ∉ tail := by
  rcases h.tail_eq with rfl | ⟨c, exponent, rfl, hc, hexp⟩ | ⟨-, -, rfl | rfl⟩
  · exact List.not_mem_nil
  · have hd := hexp.clean
    rcases hc with rfl | rfl <;> simp [hd]
  · decide
  · decide

theorem FloatShape.body_head : (int ++ (point ++ (frac ++ tail))).head? ≠ some 45 := by
  intro hhead
  cases hint : int with
  | cons c int' =>
    rw [hint] at hhead
    have hc : idigit c = true := h.int_digits.mem (by rw [hint]; exact List.mem_cons_self)
    obtain rfl : c = 45 := by simpa using hhead
    exact absurd hc (by decide)
  | nil =>
    rw [hint] at hhead
    rcases h.point_eq with ⟨hp, hf⟩ | hp
    · rw [hp, hf] at hhead
      rcases h.tail_eq with ht | ⟨c, exponent, ht, -⟩ | ⟨-, -, ht | ht⟩ <;>
        · rw [ht] at hhead
          exact absurd hhead (by simp)
    · rw [hp] at hhead
      exact absurd hhead (by simp)

theorem convfloatUnderscore_shape {underscore : Int} (hu : ¬ underscore ≤ 0) :
    ∃ int', FromRight 95 underscore.toNat int int' ∧
      convfloatUnderscore (sign ++ (int ++ (point ++ (frac ++ tail)))) underscore =
        if countUnderscores int.length underscore + countUnderscores frac.length underscore = 0 then
          { allocated := none, text := sign ++ (int ++ (point ++ (frac ++ tail))) }
        else
          { allocated := some ((sign ++ (int ++ (point ++ (frac ++ tail)))).length +
              (countUnderscores int.length underscore + countUnderscores frac.length underscore) + 1)
            text := sign ++ (int' ++
              (point ++ (separate 95 underscore.toNat 0 frac ++ tail))) } := by
  obtain ⟨int', hloop, hint⟩ := intLoop_grouped (by omega : 0 < underscore.toNat) int
    (point ++ (frac ++ tail))
  refine ⟨int', hint, ?_⟩
  have htail := h.tail_head
  have hbody := h.body_head
  have hpoint : (point ++ (frac ++ tail)).head?.all (fun c => !idigit c) = true := by
    rcases h.point_eq with ⟨rfl, rfl⟩ | rfl
    · cases tail with
      | nil => rfl
      | cons c tail =>
        have hc : (!idigit c && decide (c ≠ 46)) = true := htail
        exact (Bool.and_eq_true_iff.mp hc).1
    · rfl
  obtain ⟨htake, hdrop⟩ := span_digits h.int_digits hpoint
  have hsign : (if (sign ++ (int ++ (point ++ (frac ++ tail)))).head? = some 45 then [45] else []) =
      sign ∧ (if (sign ++ (int ++ (point ++ (frac ++ tail)))).head? = some 45 then
        (sign ++ (int ++ (point ++ (frac ++ tail)))).tail
        else sign ++ (int ++ (point ++ (frac ++ tail)))) = int ++ (point ++ (frac ++ tail)) := by
    rcases h.sign_eq with rfl | rfl
    · rw [List.nil_append, if_neg hbody, if_neg hbody]
      exact ⟨rfl, rfl⟩
    · exact ⟨rfl, rfl⟩
  have hfrac : (if (point ++ (frac ++ tail)).head? = some 46 then
      ((point ++ (frac ++ tail)).tail.takeWhile idigit).length else 0) = frac.length := by
    have hclean : tail.head?.all (fun c => !idigit c) = true := by
      cases tail with
      | nil => rfl
      | cons c tail =>
        have hc : (!idigit c && decide (c ≠ 46)) = true := htail
        exact (Bool.and_eq_true_iff.mp hc).1
    rcases h.point_eq with ⟨rfl, rfl⟩ | rfl
    · refine if_neg fun hhead => ?_
      rw [List.nil_append, List.nil_append] at hhead
      rw [hhead] at htail
      exact absurd htail (by decide)
    · show ((frac ++ tail).takeWhile idigit).length = frac.length
      rw [(span_digits h.frac_digits hclean).1]
  unfold convfloatUnderscore
  rw [if_neg hu]
  dsimp only
  rw [hsign.1, hsign.2, htake, hdrop, hfrac, hloop]
  split
  · rfl
  · congr 1
    dsimp only
    rw [List.append_assoc, List.append_assoc]
    congr 2
    by_cases hzero : frac.length = 0
    · rw [if_neg (not_not.mpr hzero), List.length_eq_zero_iff.mp hzero]
      rfl
    · rw [if_pos hzero]
      rcases h.point_eq with ⟨-, rfl⟩ | rfl
      · exact absurd rfl hzero
      · dsimp only [List.cons_append, List.nil_append, List.tail_cons, List.headD_cons]
        rw [fracLoop_separate]

end Shape

/-! ## When the digits are grouped -/

theorem countUnderscores_pos {n : Nat} (hn : 0 < n) {underscore : Int} (hu : 1 ≤ underscore) :
    countUnderscores n underscore = ((n - 1) / underscore.toNat : Nat) := by
  unfold countUnderscores
  obtain ⟨u, rfl⟩ := Int.eq_ofNat_of_zero_le (by omega : 0 ≤ underscore)
  rw [show ((n : Int) - 1) = ((n - 1 : Nat) : Int) by omega, Int.toNat_natCast]
  exact (Int.ofNat_tdiv (n - 1) u).symm

theorem countUnderscores_zero {underscore : Int} (hu : 1 ≤ underscore) :
    countUnderscores 0 underscore = if underscore = 1 then -1 else 0 := by
  unfold countUnderscores
  by_cases h : underscore = 1
  · subst h
    rfl
  · rw [if_neg h]
    exact Int.neg_inj.mp (by
      rw [← Int.neg_tdiv]
      exact Int.tdiv_eq_zero_of_lt (by decide) (by show (1 : Int) < underscore; omega))

theorem fromLeft_self {width : Nat} (hwidth : 0 < width) {digits : Bytes}
    (h : (digits.length - 1) / width = 0) : FromLeft 95 width digits digits := by
  by_cases hnil : digits = []
  · subst hnil
    exact .nil
  · have hlt := (Nat.div_eq_zero_iff_lt hwidth).mp h
    exact .last hnil (by omega)

theorem fromRight_self {width : Nat} (hwidth : 0 < width) {digits : Bytes}
    (h : (digits.length - 1) / width = 0) : FromRight 95 width digits digits := by
  refine fromLeft_self hwidth ?_
  rwa [List.length_reverse]

theorem filter_clean {s : Bytes} (hs : 95 ∉ s) : s.filter (· ≠ 95) = s :=
  List.filter_eq_self.mpr fun _ hc => decide_eq_true fun h => hs (h ▸ hc)

section Shape

variable {sign int point frac tail int' frac' : Bytes}

theorem groupedText_filter (h : FloatShape sign int point frac tail) {width : Nat}
    (hint : FromRight 95 width int int') (hfrac : FromLeft 95 width frac frac') :
    (sign ++ (int' ++ (point ++ (frac' ++ tail)))).filter (· ≠ 95) =
      sign ++ (int ++ (point ++ (frac ++ tail))) := by
  have hsign : 95 ∉ sign := by
    rcases h.sign_eq with rfl | rfl
    · exact List.not_mem_nil
    · decide
  have hpoint : 95 ∉ point := by
    rcases h.point_eq with ⟨rfl, -⟩ | rfl
    · exact List.not_mem_nil
    · decide
  rw [List.filter_append, List.filter_append, List.filter_append, List.filter_append,
    filter_clean hsign, filter_clean hpoint, filter_clean h.tail_clean,
    FromRight.filter hint h.int_digits.clean, FromLeft.filter hfrac h.frac_digits.clean]

theorem length_groupedText {width : Nat} (hwidth : 0 < width) (hint : FromRight 95 width int int')
    (hfrac : FromLeft 95 width frac frac') :
    (sign ++ (int' ++ (point ++ (frac' ++ tail)))).length =
      (sign ++ (int ++ (point ++ (frac ++ tail)))).length +
        ((int.length - 1) / width + (frac.length - 1) / width) := by
  have hi := FromRight.length hint hwidth
  have hf := FromLeft.length hfrac hwidth
  simp only [List.length_append]
  omega

/-- The digits are grouped in the memory that is taken for them just where each counts for more
than one, or there are some on both sides of the point. -/
theorem convfloatUnderscore_iff (h : FloatShape sign int point frac tail) {underscore : Int}
    (hu : 1 ≤ underscore) :
    GroupedText sign int point frac tail underscore.toNat
      (convfloatUnderscore (sign ++ (int ++ (point ++ (frac ++ tail)))) underscore) ↔
      2 ≤ underscore ∨ int ≠ [] ∧ frac ≠ [] := by
  have hwidth : 0 < underscore.toNat := by omega
  have hgroup : ¬ underscore ≤ 0 := by omega
  obtain ⟨int', hint, hshape⟩ := convfloatUnderscore_shape h hgroup
  rw [hshape]
  constructor
  · intro hgrouped
    by_contra hbad
    rw [not_or] at hbad
    obtain rfl : underscore = 1 := by omega
    have hcount (n : Nat) : countUnderscores n 1 = n - 1 := Int.tdiv_one _
    have hempty : int.length = 0 ∨ frac.length = 0 := by
      by_contra hlen
      rw [not_or, List.length_eq_zero_iff, List.length_eq_zero_iff] at hlen
      exact hbad.2 hlen
    obtain ⟨int1, frac1, hint1, hfrac1, htext⟩ := hgrouped.grouped
    have hlen := @length_groupedText sign int point frac tail int1 frac1 _ hwidth hint1 hfrac1
    have hfits := hgrouped.fits
    rw [← htext] at hlen
    rw [hcount, hcount, show (1 : Int).toNat = 1 from rfl] at hlen hfits
    rw [Nat.div_one, Nat.div_one] at hlen
    by_cases hzero : ((int.length : Int) - 1) + ((frac.length : Int) - 1) = 0
    · rw [if_pos hzero] at hlen
      dsimp only at hlen
      omega
    · rw [if_neg hzero] at hlen hfits
      have hle := hfits _ rfl
      dsimp only at hlen hle
      omega
  · intro hgood
    have hcount {n : Nat} (hn : 2 ≤ underscore ∨ 0 < n) :
        countUnderscores n underscore = ((n - 1) / underscore.toNat : Nat) := by
      by_cases hpos : 0 < n
      · exact countUnderscores_pos hpos hu
      · obtain rfl : n = 0 := by omega
        rw [countUnderscores_zero hu, if_neg (by omega), Nat.zero_sub, Nat.zero_div]
        rfl
    have hi := hcount (n := int.length) (hgood.imp_right fun hne => List.length_pos_iff.mpr hne.1)
    have hf := hcount (n := frac.length) (hgood.imp_right fun hne => List.length_pos_iff.mpr hne.2)
    have hfrac := @separate_zero _ (95 : UInt8) _ hwidth frac
    have hlen := @length_groupedText sign int point frac tail _ _ _ hwidth hint hfrac
    rw [hi, hf]
    generalize hni : (int.length - 1) / underscore.toNat = ni at hlen ⊢
    generalize hnf : (frac.length - 1) / underscore.toNat = nf at hlen ⊢
    by_cases hzero : (ni : Int) + nf = 0
    · rw [if_pos hzero]
      have hint0 := @fromRight_self _ hwidth int (by omega)
      have hfrac0 := @fromLeft_self _ hwidth frac (by omega)
      exact
        { fits := fun n hn => nomatch hn
          filter := groupedText_filter h hint0 hfrac0
          grouped := ⟨int, frac, hint0, hfrac0, rfl⟩ }
    · rw [if_neg hzero]
      refine
        { fits := fun n hn => ?_
          filter := groupedText_filter h hint hfrac
          grouped := ⟨int', _, hint, hfrac, rfl⟩ }
      obtain rfl := Option.some.inj hn
      dsimp only
      omega

end Shape

/-- Digits of 1234.5 in twos. -/
theorem convfloatUnderscore_twos :
    GroupedText [] [49, 50, 51, 52] [46] [53] [] 2
        (convfloatUnderscore [49, 50, 51, 52, 46, 53] 2) ↔
      (2 : Int) ≤ 2 ∨ [49, 50, 51, 52] ≠ ([] : Bytes) ∧ [53] ≠ ([] : Bytes) :=
  @convfloatUnderscore_iff [] [49, 50, 51, 52] [46] [53] []
    { sign_eq := Or.inl rfl
      int_digits := rfl
      point_eq := Or.inr rfl
      frac_digits := rfl
      tail_eq := Or.inl rfl } 2 (by decide)

/-- Of `1e+20` and a width of 1 one byte too few is allocated. -/
theorem not_groupedText_exponent :
    ¬ GroupedText [] [49] [] [] [101, 43, 50, 48] 1 (convfloatUnderscore [49, 101, 43, 50, 48] 1) :=
  fun h => absurd (h.fits 5 rfl) (by decide)

end NextBSD.Zsh
