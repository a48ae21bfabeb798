import NextBSD.Zsh.BraceRange

/-!
# What a range of numbers in braces expands to

The members of the progression are listed, unless the step or the width does not fit an `int` or the
count leaves 64 bits.
-/

namespace NextBSD.Zsh.Braces

open Padding (int)
open Progression
open Pattern.Numeric (digit)

/-! ## Digits as characters -/

theorem rangeChar_plain (cc : CharConv) {c : UInt8} (h : Plain c) (s : Bytes) :
    ∃ n, rangeChar cc (c :: s) = some (n, s) ∧ (idigit c = true → n = c.toNat) := by
  have hascii (h : c.toNat < 128) (hc : itok c = false) :
      rangeChar cc (c :: s) = some (c.toNat, s) := by
    unfold rangeChar
    dsimp only
    rw [hc, if_neg Bool.false_ne_true, cc.conv_ascii c s h]
    rfl
  rcases h with hdigit | hdash
  · have hrange := (idigit_iff c).mp hdigit
    have hc : itok c = false := by
      unfold itok
      rw [decide_eq_false (by rw [UInt8.le_iff_toNat_le]; simp; omega), Bool.false_and]
    exact ⟨c.toNat, hascii (by omega) hc, fun _ => rfl⟩
  · unfold isDash at hdash
    rw [Bool.or_eq_true, decide_eq_true_iff, decide_eq_true_iff] at hdash
    rcases hdash with rfl | rfl
    · exact ⟨_, hascii (by decide) rfl, fun h => absurd h (by decide)⟩
    · refine ⟨45, ?_, fun h => absurd h (by decide)⟩
      unfold rangeChar
      dsimp only
      rw [show itok 0x9b = true from rfl, if_pos rfl, if_neg (by decide),
        cc.conv_ascii (untoken 0x9b) [] (by decide)]
      rfl

theorem bracechardots_digits (cc : CharConv) {a b : Numeral} {x y : UInt8} (ha : a.bytes = [x])
    (hb : b.bytes = [y]) (hx : idigit x = true) (hy : idigit y = true) (back : Bytes) :
    bracechardots cc (groupText a b none back) = some (x.toNat, y.toNat) := by
  obtain ⟨n, hn, hnx⟩ := rangeChar_plain cc (.inl hx) (46 :: 46 :: (y :: Outbrace :: back))
  obtain ⟨m, hm, hmy⟩ := rangeChar_plain cc (.inl hy) (Outbrace :: back)
  unfold bracechardots groupText
  rw [ha, hb]
  show ((rangeChar cc (x :: 46 :: 46 :: (y :: Outbrace :: back))).bind _) = _
  rw [hn, Option.bind_some]
  dsimp only
  rw [if_pos ⟨twoDots_dots _, List.cons_ne_nil _ _⟩, List.drop_succ_cons, List.drop_succ_cons,
    List.drop_zero, hm, Option.bind_some]
  dsimp only
  rw [if_pos (List.head?_cons ..), hnx hx, hmy hy]

theorem bracechardots_longer (cc : CharConv) (a b : Numeral) (c : Option Numeral) (back : Bytes)
    (h : ¬(c = none ∧ a.bytes.length = 1 ∧ b.bytes.length = 1)) :
    bracechardots cc (groupText a b c back) = none := by
  obtain ⟨x, xs, hxs⟩ := List.exists_cons_of_ne_nil a.bytes_ne
  obtain ⟨y, ys, hys⟩ := List.exists_cons_of_ne_nil b.bytes_ne
  have hx := a.plain (c := x) (hxs ▸ List.mem_cons_self)
  have hy := b.plain (c := y) (hys ▸ List.mem_cons_self)
  obtain ⟨n, hn, -⟩ := rangeChar_plain cc hx
    (xs ++ 46 :: 46 :: (b.bytes ++ (incrText c ++ Outbrace :: back)))
  obtain ⟨m, hm, -⟩ := rangeChar_plain cc hy (ys ++ (incrText c ++ Outbrace :: back))
  unfold bracechardots groupText
  rw [hxs, List.cons_append, hn, Option.bind_some]
  dsimp only
  cases xs with
  | cons x' xs =>
    have hx' := (a.plain (c := x') (by rw [hxs]; simp)).ne.2.2.2
    rw [if_neg]
    rintro ⟨hdots, -⟩
    simp [twoDots, hx'] at hdots
  | nil =>
    rw [List.nil_append, if_pos ⟨twoDots_dots _, by rw [hys]; exact List.cons_ne_nil _ _⟩,
      List.drop_succ_cons, List.drop_succ_cons, List.drop_zero, hys, List.cons_append, hm,
      Option.bind_some]
    dsimp only
    rw [if_neg]
    cases ys with
    | cons y' ys =>
      have hy' := (b.plain (c := y') (by rw [hys]; simp)).ne.2.1
      simp [hy']
    | nil =>
      cases c with
      | none => exact absurd ⟨rfl, by rw [hxs]; rfl, by rw [hys]; rfl⟩ h
      | some c =>
        show ¬some (46 : UInt8) = some Outbrace
        decide

theorem charLoop_digits (cc : CharConv) (front back : Bytes) {low n : Nat} (h : low + n ≤ 9) :
    charLoop cc front back (48 + low) (48 + low + n) =
      (members ((low + n : Nat) : Int) (-1) (n + 1)).map fun m =>
        front ++ [UInt8.ofNat (48 + m.toNat)] ++ back := by
  induction n with
  | zero =>
    rw [show 48 + low + 0 = 47 + low + 1 by omega, charLoop, if_neg (by omega), members_one,
      cc.nicechar_print _ (by omega) (by omega), show 47 + low + 1 = 48 + (low + 0) by omega]
    rfl
  | succ n ih =>
    have hnext : ((low + (n + 1) : Nat) : Int) + -1 = ((low + n : Nat) : Int) := by omega
    rw [show 48 + low + (n + 1) = 48 + low + n + 1 by omega, charLoop, if_pos (by omega),
      ih (by omega), members_succ ((low + (n + 1) : Nat) : Int), List.map_cons, hnext,
      cc.nicechar_print _ (by omega) (by omega), show 48 + low + n + 1 = 48 + (low + (n + 1)) by
        omega]
    rfl

theorem charRange_digits (cc : CharConv) (front back : Bytes) {a b : Nat} (ha : a ≤ 9)
    (hb : b ≤ 9) :
    charRange cc front back (48 + a) (48 + b) =
      (between a b 1).map fun m => front ++ [UInt8.ofNat (48 + m.toNat)] ++ back := by
  unfold charRange
  by_cases hlt : 48 + b < 48 + a
  · obtain ⟨n, rfl⟩ := Nat.exists_eq_add_of_le (show b ≤ a by omega)
    rw [if_pos hlt, show 48 + (b + n) = 48 + b + n by omega, charLoop_digits cc front back ha]
    unfold between
    dsimp only
    rw [if_pos (by decide), show direction ((b + n : Nat) : Int) b = -1 from if_neg (by omega),
      show ((b : Int) - ((b + n : Nat) : Int)).natAbs / Int.natAbs 1 = n by
        rw [Int.natAbs_one, Nat.div_one]
        omega]
    rfl
  · obtain ⟨n, rfl⟩ := Nat.exists_eq_add_of_le (show a ≤ b by omega)
    have hback := reverse_members a 1 n
    rw [Int.one_mul, ← Nat.cast_add] at hback
    rw [if_neg hlt, show 48 + (a + n) = 48 + a + n by omega, charLoop_digits cc front back hb,
      ← hback]
    unfold between
    dsimp only
    rw [if_pos (by decide), show direction (a : Int) ((a + n : Nat) : Int) = 1 from
      if_pos (by omega), show (((a + n : Nat) : Int) - (a : Int)).natAbs / Int.natAbs 1 = n by
        rw [Int.natAbs_one, Nat.div_one]
        omega]
    show ((members (a : Int) 1 (n + 1)).reverse.map _).reverse = _
    rw [List.map_reverse, List.reverse_reverse]
    rfl

theorem zeroPadded_digit {width : Nat} (hwidth : width ≤ 1) {n : Int} (hn : 0 ≤ n ∧ n ≤ 9) :
    zeroPadded width n = [UInt8.ofNat (48 + n.toNat)] := by
  obtain ⟨hn0, hn9⟩ := hn
  interval_cases n <;> interval_cases width <;> rfl

theorem Numeral.single {m : Numeral} (h : m.bytes.length = 1) :
    ∃ x, m.bytes = [x] ∧ idigit x = true ∧ x.toNat = 48 + m.value.toNat ∧ 0 ≤ m.value ∧
      m.value ≤ 9 := by
  have hpos : 0 < m.digits.length := List.length_pos_iff.mpr m.digits_ne
  have hbytes : m.bytes.length = m.sign.length + m.digits.length := List.length_append
  have hsign : m.sign = [] := List.length_eq_zero_iff.mp (by omega)
  obtain ⟨x, hx⟩ := List.length_eq_one_iff.mp (show m.digits.length = 1 by omega)
  have hdigit := m.idigits x (hx ▸ List.mem_cons_self)
  have hrange := (idigit_iff x).mp hdigit
  have hvalue : m.value = ((x.toNat - 48 : Nat) : Int) := by
    unfold Numeral.value
    rw [hsign, hx]
    show (((0 * 10 + digit x : Nat)) : Int) = _
    rw [Nat.zero_mul, Nat.zero_add]
    rfl
  refine ⟨x, ?_, hdigit, ?_, ?_, ?_⟩
  · unfold Numeral.bytes
    rw [hsign, hx, List.nil_append]
  · omega
  · omega
  · omega

/-! ## The words -/

theorem mapM_writeNumber {front back : Bytes} {size : Nat} {width : Int} {numbers : List Int}
    {words : List Bytes} (h : numbers.mapM (writeNumber front back size width) = some words) :
    words = numbers.map fun n => front ++ formatLong width n ++ back := by
  induction numbers generalizing words with
  | nil =>
    cases h
    rfl
  | cons n numbers ih =>
    rw [List.mapM_cons] at h
    obtain ⟨word, hword, h⟩ := Option.bind_eq_some_iff.mp h
    obtain ⟨rest, hrest, h⟩ := Option.bind_eq_some_iff.mp h
    cases h
    unfold writeNumber at hword
    dsimp only at hword
    split_ifs at hword
    rw [List.map_cons, ← Option.some.inj hword, ih hrest]

theorem mapM_fits {front back : Bytes} {size : Nat} {width : Int} {numbers : List Int}
    (h : ∀ n ∈ numbers, (front ++ formatLong width n ++ back).length < size) :
    numbers.mapM (writeNumber front back size width) =
      some (numbers.map fun n => front ++ formatLong width n ++ back) := by
  induction numbers with
  | nil => rfl
  | cons n numbers ih =>
    have hword : writeNumber front back size width n =
        some (front ++ formatLong width n ++ back) := if_pos (h n List.mem_cons_self)
    rw [List.mapM_cons, hword, ih fun m hm => h m (List.mem_cons_of_mem n hm)]
    rfl

def numberWord (front back : Bytes) (width : Nat) (n : Int) : Bytes :=
  front ++ zeroPadded width n ++ back

theorem numberWord_injective (front back : Bytes) (width : Nat) :
    Function.Injective (numberWord front back width) := fun _ _ h =>
  zeroPadded_injective width (List.append_cancel_left (List.append_cancel_right h))

theorem int_fits {n : Nat} (h : n < 2 ^ 31) : int n = n := by
  unfold int
  omega

theorem formatLong_fits {width : Nat} (h : width < 2 ^ 31) (n : Int) :
    formatLong (int width) n = zeroPadded width n := by
  rw [int_fits h]
  unfold formatLong
  rw [if_neg (by omega), Int.toNat_natCast]

section

variable {a b : Numeral} {c : Option Numeral} {front back : Bytes}

theorem minWidth_le (a b : Numeral) (c : Option Numeral) :
    minWidth a b c ≤ a.bytes.length + b.bytes.length + (incrText c).length := by
  unfold minWidth
  split_ifs
  · omega
  · omega
  · cases c with
    | none => exact Nat.zero_le _
    | some c =>
      show (if c.padded then c.bytes.length else 0) ≤
        _ + (46 :: 46 :: c.bytes : Bytes).length
      rw [List.length_cons, List.length_cons]
      split_ifs <;> omega

theorem length_numberWord {n : Int} (h : min a.value b.value ≤ n ∧ n ≤ max a.value b.value) :
    (numberWord front back (minWidth a b c) n).length <
      front.length + (groupText a b c back).length + 2 := by
  have hwidth := minWidth_le a b c
  have hprint : (printLong n).length ≤ max a.bytes.length b.bytes.length := by
    rcases Int.lt_or_le n 0 with hneg | hpos
    · rcases le_total a.value b.value with hab | hab
      · rw [min_eq_left hab] at h
        exact (length_printLong_le a (.inr ⟨h.1, hneg⟩)).trans (le_max_left _ _)
      · rw [min_eq_right hab] at h
        exact (length_printLong_le b (.inr ⟨h.1, hneg⟩)).trans (le_max_right _ _)
    · rcases le_total a.value b.value with hab | hab
      · rw [max_eq_right hab] at h
        exact (length_printLong_le b (.inl ⟨hpos, h.2⟩)).trans (le_max_right _ _)
      · rw [max_eq_left hab] at h
        exact (length_printLong_le a (.inl ⟨hpos, h.2⟩)).trans (le_max_left _ _)
  have hgroup : (groupText a b c back).length =
      a.bytes.length + b.bytes.length + (incrText c).length + back.length + 3 := by
    unfold groupText
    simp only [List.length_append, List.length_cons]
    omega
  unfold numberWord
  rw [List.length_append, List.length_append, length_zeroPadded, hgroup]
  omega

theorem Range.words_eq {r : Range} (hr : r.rincr ≠ 0) (hstart : r.rstart = a.value)
    (hend : r.rend = b.value) (hminw : r.minw (groupText a b c back) = int (minWidth a b c))
    (hwidth : minWidth a b c < 2 ^ 31) :
    r.words front (groupText a b c back) back (front.length + (groupText a b c back).length + 2) =
      if Safe a.value b.value r.rincr then
        some ((between a.value b.value r.rincr).map (numberWord front back (minWidth a b c)))
      else none := by
  have hspec := r.numbers_spec hr (hstart ▸ a.value_range.1) (hend ▸ b.value_range.1)
  rw [hstart, hend] at hspec
  unfold Range.words
  rw [hminw]
  by_cases hsafe : Safe a.value b.value r.rincr
  · rw [if_pos hsafe] at hspec ⊢
    obtain ⟨⟨rev, numbers⟩, hnumbers, hbetween⟩ := Option.map_eq_some_iff.mp hspec
    have hmem : ∀ n ∈ numbers, n ∈ between a.value b.value r.rincr := by
      rw [← hbetween]
      intro n hn
      cases rev
      · exact List.mem_reverse.mpr hn
      · exact hn
    have hformat : (fun n => front ++ formatLong (int (minWidth a b c)) n ++ back) =
        numberWord front back (minWidth a b c) :=
      funext fun n => congrArg (front ++ · ++ back) (formatLong_fits hwidth n)
    have hfits : ∀ n ∈ numbers, (front ++ formatLong (int (minWidth a b c)) n ++ back).length <
        front.length + (groupText a b c back).length + 2 := by
      intro n hn
      rw [congrFun hformat n]
      exact length_numberWord (mem_between (hmem n hn))
    rw [hnumbers, Option.bind_some]
    dsimp only at hbetween ⊢
    rw [mapM_fits hfits, hformat, Option.map_some, inserted_map, hbetween]
  · rw [if_neg hsafe] at hspec ⊢
    rw [Option.map_eq_none_iff.mp hspec]
    rfl

theorem Range.words_ne {r : Range} (hr : r.rincr ≠ 0) (hstart : r.rstart = a.value)
    (hend : r.rend = b.value) (hminw : r.minw (groupText a b c back) = int (minWidth a b c))
    (hwidth : 2 ^ 31 ≤ minWidth a b c) (size : Nat) (numbers : List Int) :
    r.words front (groupText a b c back) back size ≠
      some (numbers.map (numberWord front back (minWidth a b c))) := by
  intro h
  have hspec := r.numbers_spec hr (hstart ▸ a.value_range.1) (hend ▸ b.value_range.1)
  unfold Range.words at h
  obtain ⟨⟨rev, ns⟩, hns, h⟩ := Option.bind_eq_some_iff.mp h
  obtain ⟨words, hwords, h⟩ := Option.map_eq_some_iff.mp h
  have hbetween : (if rev then ns else ns.reverse) = between r.rstart r.rend r.rincr := by
    rw [hns, Option.map_some] at hspec
    by_cases hsafe : Safe r.rstart r.rend r.rincr
    · rw [if_pos hsafe] at hspec
      exact Option.some.inj hspec
    · rw [if_neg hsafe] at hspec
      cases hspec
  rw [mapM_writeNumber hwords, hminw, inserted_map, hbetween] at h
  obtain ⟨n, ms, hn⟩ := List.exists_cons_of_ne_nil (between_ne_nil r.rstart r.rend r.rincr)
  have hrange := mem_between (hn ▸ List.mem_cons_self : n ∈ between r.rstart r.rend r.rincr)
  have ha := a.value_range
  have hb := b.value_range
  rw [hstart, hend] at hrange
  rw [hn, List.map_cons] at h
  cases numbers with
  | nil => cases h
  | cons m numbers =>
    rw [List.map_cons] at h
    exact formatLong_ne_zeroPadded hwidth (by omega) m
      (List.append_cancel_left (List.append_cancel_right (List.cons.inj h).1))

/-! ## Expanding -/

def step (c : Option Numeral) : Int := (c.map Numeral.value).getD 1

def Expands (cc : CharConv) (front : Bytes) (a b : Numeral) (c : Option Numeral) (back : Bytes) :
    Prop :=
  xpandrange cc front (groupText a b c back) =
    some (some ((between a.value b.value (step c)).map (numberWord front back (minWidth a b c))))

/-- The width and the step can be kept in an `int`, and the count stays in 64 bits. -/
structure Countable (a b : Numeral) (c : Option Numeral) : Prop where
  width : minWidth a b c < 2 ^ 31
  incr_ne : incr c ≠ 0
  safe : Safe a.value b.value (incr c)
  kept : incr c = step c ∨ (b.value - a.value).natAbs < (incr c).natAbs ∧
    (b.value - a.value).natAbs < (step c).natAbs

theorem xpandrange_group (cc : CharConv) (front : Bytes) (a b : Numeral) (c : Option Numeral)
    (back : Bytes) :
    xpandrange cc front (groupText a b c back) =
      match bracechardots cc (groupText a b c back) with
      | some (cstart, cend) => some (some (charRange cc front back cstart cend))
      | none =>
        match parseRange (if c = none then 1 else 2) (groupText a b c back) (Outbrace :: back) with
        | some r => (r.words front (groupText a b c back) back
            (front.length + (groupText a b c back).length + 2)).map some
        | none => some none := by
  unfold xpandrange
  rw [matchBraces_group]
  dsimp only
  rw [drop_group, if_pos ⟨rfl, by split_ifs <;> decide⟩]
  rfl

theorem step_ne {c : Option Numeral} (h : incr c ≠ 0) : step c ≠ 0 := by
  cases c with
  | none => exact Int.one_ne_zero
  | some c =>
    intro hzero
    have hvalue : c.value = 0 := hzero
    refine h ?_
    show int c.value = 0
    rw [hvalue, int_zero]

theorem expands_digits (cc : CharConv) (front : Bytes) {a b : Numeral} (back : Bytes)
    (ha : a.bytes.length = 1) (hb : b.bytes.length = 1) :
    Expands cc front a b none back ∧ Countable a b none := by
  obtain ⟨x, hx, hxd, hxa, ha0, ha9⟩ := Numeral.single ha
  obtain ⟨y, hy, hyd, hyb, hb0, hb9⟩ := Numeral.single hb
  have hwidth : minWidth a b none ≤ 1 := by
    unfold minWidth
    rw [ha, hb]
    split_ifs <;> decide
  have hsafe : Safe a.value b.value 1 := by
    unfold Safe ZLONG_MIN
    rw [Int.natAbs_one, Nat.cast_one, Int.ediv_one]
    split_ifs <;> omega
  refine ⟨?_, by omega, by decide, hsafe, .inl rfl⟩
  unfold Expands
  rw [xpandrange_group, bracechardots_digits cc hx hy hxd hyd]
  dsimp only
  rw [hxa, hyb, charRange_digits cc front back (by omega) (by omega), Int.toNat_of_nonneg ha0,
    Int.toNat_of_nonneg hb0]
  refine congrArg (fun words => some (some words)) (List.map_congr_left fun n hn => ?_)
  have hrange := mem_between hn
  unfold numberWord
  rw [zeroPadded_digit hwidth ⟨by omega, by omega⟩]

theorem xpandrange_incr_zero (cc : CharConv) (front : Bytes) (a b : Numeral) {c : Option Numeral}
    (back : Bytes) (h : incr c = 0) : xpandrange cc front (groupText a b c back) = some none := by
  have hlonger : ¬(c = none ∧ a.bytes.length = 1 ∧ b.bytes.length = 1) := by
    rintro ⟨rfl, -⟩
    exact absurd h (by decide)
  rw [xpandrange_group, bracechardots_longer cc a b c back hlonger]
  dsimp only
  rw [(parseRange_group a b c back).1 h]

/-- A range of numbers is expanded as it should be exactly if it can be counted. -/
theorem expands_iff_countable (cc : CharConv) (front : Bytes) (a b : Numeral) (c : Option Numeral)
    (back : Bytes) : Expands cc front a b c back ↔ Countable a b c := by
  by_cases hdigits : c = none ∧ a.bytes.length = 1 ∧ b.bytes.length = 1
  · obtain ⟨rfl, ha, hb⟩ := hdigits
    obtain ⟨hexpands, hcountable⟩ := expands_digits cc front back ha hb
    exact ⟨fun _ => hcountable, fun _ => hexpands⟩
  by_cases hincr : incr c = 0
  · refine ⟨fun h => ?_, fun h => absurd hincr h.incr_ne⟩
    unfold Expands at h
    rw [xpandrange_incr_zero cc front a b back hincr] at h
    cases h
  obtain ⟨r, hr, hstart, hend, hrincr, hminw⟩ := (parseRange_group a b c back).2 hincr
  have hne : r.rincr ≠ 0 := hrincr ▸ hincr
  unfold Expands
  rw [xpandrange_group, bracechardots_longer cc a b c back hdigits]
  dsimp only
  rw [hr]
  dsimp only
  by_cases hwidth : minWidth a b c < 2 ^ 31
  · rw [Range.words_eq hne hstart hend hminw hwidth, hrincr]
    by_cases hsafe : Safe a.value b.value (incr c)
    · rw [if_pos hsafe, Option.map_some, Option.some_inj, Option.some_inj,
        (List.map_injective_iff.mpr (numberWord_injective front back _)).eq_iff,
        between_eq_iff hincr (step_ne hincr)]
      exact ⟨fun h => ⟨hwidth, hincr, hsafe, h⟩, fun h => h.kept⟩
    · rw [if_neg hsafe]
      exact ⟨fun h => absurd h (by simp), fun h => absurd h.safe hsafe⟩
  · refine ⟨fun h => ?_, fun h => absurd h.width hwidth⟩
    obtain ⟨words, hwords, heq⟩ := Option.map_eq_some_iff.mp h
    rw [Option.some_inj.mp heq] at hwords
    exact absurd hwords (Range.words_ne hne hstart hend hminw (Nat.not_lt.mp hwidth) _ _)

end

theorem denoted_natAbs (n : Int) :
    denoted (decide ((if n < 0 then [45] else [] : Bytes) ≠ [])) n.natAbs = n := by
  unfold denoted
  by_cases h : n < 0
  · rw [if_pos h, decide_eq_true (List.cons_ne_nil _ _), if_pos rfl]
    omega
  · rw [if_neg h, decide_eq_false (not_not.mpr rfl), if_neg Bool.false_ne_true]
    omega

def Numeral.of (n : Int) (h : -2 ^ 63 ≤ n ∧ n < 2 ^ 63) : Numeral where
  sign := if n < 0 then [45] else []
  digits := decimal n.natAbs
  sign_dash := by
    split_ifs
    · exact .inr ⟨45, rfl, rfl⟩
    · exact .inl rfl
  digits_ne := by
    obtain ⟨d, ds, hds, -⟩ := decimal_cons n.natAbs
    rw [hds]
    exact List.cons_ne_nil _ _
  idigits := fun _ => idigit_decimal
  fits := by
    unfold Fits
    rwa [value_decimal, denoted_natAbs]

theorem Numeral.value_of (n : Int) (h : -2 ^ 63 ≤ n ∧ n < 2 ^ 63) : (Numeral.of n h).value = n := by
  unfold Numeral.value Numeral.of
  dsimp only
  rw [value_decimal, denoted_natAbs]

def CharConv.ascii : CharConv where
  conv
    | [] => (none, 0)
    | c :: _ => (if c.toNat < 128 then some c.toNat else none, 1)
  nicechar n := [UInt8.ofNat n]
  conv_ascii c s h := by
    dsimp only
    rw [if_pos h]
  nicechar_print _ _ _ := rfl

/-- `{1..3..4294967296}` -/
theorem not_expands_step :
    ¬Expands .ascii [] (.of 1 (by decide)) (.of 3 (by decide)) (some (.of 4294967296 (by decide)))
      [] := by
  have hzero : incr (some (.of 4294967296 (by decide))) = 0 := by
    show int (Numeral.value _) = 0
    rw [Numeral.value_of]
    decide
  unfold Expands
  rw [xpandrange_incr_zero _ _ _ _ _ hzero]
  exact fun h => by cases h

end NextBSD.Zsh.Braces
