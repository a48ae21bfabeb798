import NextBSD.Zsh.SortCompare

/-!
# sort.c: when the comparison is an order

A comparison for `qsort` has opposite signs for its arguments the other way round and is transitive,
and a numeric one orders numbers by their values.
-/

namespace NextBSD.Zsh

open Compare Digits

structure Numeral (run : Bytes) : Prop where
  digits : AllDigits run
  nonempty : run ≠ []
  canonical : run.head? = some 48 → run = [48]

def numeralValue (run : Bytes) : Nat := readDigits 10 (run.map digitValue)

/-- Strings that differ in one run of digits are in the order of its values.  An element without a
recorded length is its characters before a null. -/
def ByValue (S : SortSettings) (D : SortElt → Prop) : Prop :=
  ∀ (front run run' back : Bytes) (recorded : Bool),
    D { cmp := front ++ run ++ back, recorded := recorded } →
    D { cmp := front ++ run' ++ back, recorded := recorded } →
    (recorded = true ∨ 0 ∉ front) → (∀ c, front.getLast? = some c → idigit c = false) →
    (∀ c, back.head? = some c → idigit c = false) → Numeral run → Numeral run' →
    (eltpcmp S { cmp := front ++ run ++ back, recorded := recorded }
      { cmp := front ++ run' ++ back, recorded := recorded }).sign =
      S.sortdir * toInt (compare (numeralValue run) (numeralValue run'))

/-- The elements of `D` are sorted. -/
structure Sorts (S : SortSettings) (D : SortElt → Prop) : Prop where
  swap : ∀ a b, D a → D b → (eltpcmp S b a).sign = -(eltpcmp S a b).sign
  trans : ∀ a b c, D a → D b → D c →
    eltpcmp S a b ≤ 0 → eltpcmp S b c ≤ 0 → eltpcmp S a c ≤ 0
  value : S.numeric = .unsigned → ByValue S D

theorem Sorts.mono {S : SortSettings} {D E : SortElt → Prop} (h : Sorts S D)
    (hED : ∀ e, E e → D e) : Sorts S E where
  swap a b ha hb := h.swap a b (hED a ha) (hED b hb)
  trans a b c ha hb hc := h.trans a b c (hED a ha) (hED b hb) (hED c hc)
  value hn front run run' back recorded ha hb :=
    h.value hn front run run' back recorded (hED _ ha) (hED _ hb)

theorem sorts_of_key {S : SortSettings} {D : SortElt → Prop} (key : SortElt → List Nat)
    (hkey : ∀ a b, D a → D b →
      (eltpcmp S a b).sign = S.sortdir * toInt (compare (key a) (key b)))
    (hvalue : S.numeric = .unsigned → ByValue S D) : Sorts S D where
  swap a b ha hb := by
    rw [hkey a b ha hb, hkey b a hb ha, Std.OrientedOrd.eq_swap (a := key b), toInt_swap,
      Int.mul_neg]
  trans a b c ha hb hc hab hbc := by
    have hle {x y : SortElt} (hx : D x) (hy : D y) :
        eltpcmp S x y ≤ 0 ↔ S.sortdir * toInt (compare (key x) (key y)) ≤ 0 := by
      rw [← hkey x y hx hy, Int.sign_nonpos_iff]
    rw [hle ha hb] at hab
    rw [hle hb hc] at hbc
    rw [hle ha hc]
    cases hback : S.backwards with
    | true =>
      simp only [SortSettings.sortdir, hback, if_true, Int.neg_one_mul, ← toInt_swap,
        ← Std.OrientedOrd.eq_swap, toInt_le_zero] at hab hbc ⊢
      exact Std.TransOrd.isLE_trans hbc hab
    | false =>
      simp only [SortSettings.sortdir, hback, Bool.false_eq_true, if_false, Int.one_mul,
        toInt_le_zero] at hab hbc ⊢
      exact Std.TransOrd.isLE_trans hab hbc
  value := hvalue

theorem Numeral.zero_or {run : Bytes} (h : Numeral run) :
    run = [48] ∨ significant run = run ∧ ∃ c s, run = c :: s ∧ c ≠ 48 := by
  cases hrun : run with
  | nil => exact absurd hrun h.nonempty
  | cons c s =>
    by_cases hc : c = 48
    · subst hc
      exact Or.inl (hrun ▸ h.canonical (by rw [hrun]; rfl))
    · refine Or.inr ⟨?_, c, s, rfl, hc⟩
      exact List.dropWhile_cons_of_neg (by simpa using hc)

theorem Numeral.significant_head {run : Bytes} (h : Numeral run) :
    ((significant run).map digitValue).head? ≠ some 0 := by
  rcases h.zero_or with rfl | ⟨hsig, c, s, rfl, hc⟩
  · decide
  · rw [hsig]
    have hdigit := (allDigits_cons.mp h.digits).1
    have hc' : c.toNat ≠ 48 := fun h => hc (UInt8.toNat_inj.mp h)
    intro hzero
    have hval : digitValue c = 0 := Option.some.inj hzero
    rw [digitValue_of_idigit hdigit] at hval
    rw [idigit_iff] at hdigit
    omega

theorem Numeral.value_significant {run : Bytes} (h : Numeral run) :
    readDigits 10 ((significant run).map digitValue) = numeralValue run := by
  rcases h.zero_or with rfl | ⟨hsig, -⟩
  · rfl
  · rw [hsig, numeralValue]

theorem Numeral.eq_of_significant {run run' : Bytes} (h : Numeral run) (h' : Numeral run')
    (heq : significant run = significant run') : run = run' := by
  rcases h.zero_or with rfl | ⟨hsig, -⟩
  · rcases h'.zero_or with rfl | ⟨hsig', -⟩
    · rfl
    · exact absurd (hsig'.symm.trans heq.symm) h'.nonempty
  · rcases h'.zero_or with rfl | ⟨hsig', -⟩
    · exact absurd (hsig.symm.trans heq) h.nonempty
    · rw [← hsig, heq, hsig']

theorem runCompare_numeral {run run' : Bytes} (h : Numeral run) (h' : Numeral run') :
    runCompare run run' = compare (numeralValue run) (numeralValue run') := by
  rw [← h.value_significant, ← h'.value_significant,
    compare_readDigits (by decide) (digitValue_lt h.digits.significant)
      (digitValue_lt h'.digits.significant) h.significant_head h'.significant_head,
    List.length_map, List.length_map]
  rfl

theorem eq_of_runCompare {run run' : Bytes} (h : Numeral run) (h' : Numeral run')
    (heq : runCompare run run' = .eq) : run = run' := by
  unfold runCompare at heq
  rw [Ordering.then_eq_eq] at heq
  have hmap := Std.LawfulEqOrd.eq_of_compare heq.2
  exact h.eq_of_significant h'
    (digitValue_injOn h.digits.significant h'.digits.significant hmap)

theorem byValue {S : SortSettings} (hslash : S.nobslash = false) (hn : S.numeric = .unsigned)
    (D : SortElt → Prop) : ByValue S D := by
  intro front run run' back recorded _ _ hnull hfront hback h h'
  have hback' : startsDigit back = false := by
    cases back with
    | nil => rfl
    | cons c back => exact hback c rfl
  have hsigned : S.numeric ≠ .signed := by rw [hn]; exact SortNumeric.noConfusion
  -- the part of `back` that the keys have
  obtain ⟨rest, hrest, hshown⟩ : ∃ rest, Shows back rest ∧ ∀ run, AllDigits run →
      SortElt.shown { cmp := front ++ run ++ back, recorded := recorded } =
        front ++ (run ++ rest) := by
    cases recorded with
    | true => exact ⟨back, Shows.refl back, fun run _ => List.append_assoc front run back⟩
    | false =>
      have hfront0 : 0 ∉ front := hnull.resolve_left Bool.false_ne_true
      refine ⟨back.takeWhile (· ≠ 0), Shows.takeWhile back, fun run hrun => ?_⟩
      have hnone : 0 ∉ front ++ run := by
        rw [List.mem_append]
        rintro (h0 | h0)
        · exact hfront0 h0
        · exact Bool.false_ne_true (hrun 0 h0)
      exact (takeWhile_ne_zero hnone).trans (List.append_assoc front run _)
  have hrest' : startsDigit rest = false := hrest.startsDigit.trans hback'
  have hkey {run : Bytes} (h : Numeral run) :
      SortElt.key S.numeric { cmp := front ++ run ++ back, recorded := recorded } =
        numericKey false front ++ (runKey run ++ (numericKey true (run ++ rest) ++
          [if recorded then 1 else 0])) := by
    have hstart : startsDigit (run ++ rest) = true := by
      rw [startsDigit_append_of_pos h.digits hrest']
      exact decide_eq_true (List.length_pos_of_ne_nil h.nonempty)
    have htake : (run ++ rest).takeWhile idigit = run := by
      rw [List.takeWhile_append_of_pos h.digits]
      cases rest with
      | nil => exact List.append_nil run
      | cons c rest =>
        have hc : ¬ idigit c = true := by rw [show idigit c = false from hrest']; decide
        rw [List.takeWhile_cons_of_neg hc, List.append_nil]
    rw [SortElt.key, hshown run h.digits, textKey, hn, if_neg SortNumeric.noConfusion,
      numericKey_append hfront (fun _ => rfl), numericKey_false_digit hstart, htake,
      List.append_assoc, List.append_assoc]
  rw [sign_eltpcmp hslash hsigned, ← runCompare_numeral h h', hkey h, hkey h',
    compare_append_left, compare_runKey]
  by_cases heq : runCompare run run' = .eq
  · rw [eq_of_runCompare h h' heq, runCompare_self, Ordering.eq_then, Std.ReflOrd.compare_self]
  · rw [then_of_ne heq]

theorem sorts_of_plain {S : SortSettings} (hslash : S.nobslash = false)
    (hsigned : S.numeric ≠ .signed) (D : SortElt → Prop) : Sorts S D :=
  sorts_of_key (SortElt.key S.numeric) (fun a b _ _ => sign_eltpcmp hslash hsigned a b)
    (fun hn => byValue hslash hn D)

/-! ## Skipping backslashes -/

def unslash (s : Bytes) : Bytes := if s.headD 0 = 92 then s.tail else s

/-- The characters without the backslashes in front of them.  One that ends the string is less than
any character. -/
def slashKey : Bool → Bytes → List Nat
  | slash, [] => [if slash then 1 else 0]
  | slash, c :: s =>
    if c = 0 then [if slash then 1 else 0]
    else if c = 92 ∧ slash = false then slashKey true s
    else charKey c :: slashKey false s

theorem slashKey_zero {s : Bytes} (h : s.headD 0 = 0) (slash : Bool) :
    slashKey slash s = [if slash then 1 else 0] := by
  cases s with
  | nil => rfl
  | cons c s =>
    obtain rfl : c = 0 := h
    rfl

theorem slashKey_step {s : Bytes} (h : s.headD 0 ≠ 0) :
    slashKey false s = if (unslash s).headD 0 = 0 then [1]
      else charKey ((unslash s).headD 0) :: slashKey false (unslash s).tail := by
  cases s with
  | nil => exact absurd rfl h
  | cons c s =>
    have hc : c ≠ 0 := h
    by_cases h92 : c = 92
    · subst h92
      cases s with
      | nil => rfl
      | cons d s => simp [slashKey, unslash]
    · simp [slashKey, unslash, hc, h92]

theorem skipBackslashes_step (back : Bytes) {s : Bytes} {bs : SortPtr} (hs : s.headD 0 ≠ 0)
    (hb : bs.deref ≠ 0) :
    if (unslash s).headD 0 = (unslash bs.rest).headD 0 ∧ (unslash s).headD 0 ≠ 0 then
      ∃ back' bs', skipBackslashes back s bs = skipBackslashes back' (unslash s).tail bs' ∧
        bs'.rest = (unslash bs.rest).tail
    else (skipBackslashes back s bs).1.rest = unslash s ∧
      (skipBackslashes back s bs).2.rest = unslash bs.rest := by
  have hnext : (if bs.deref = 92 then bs.next else bs).rest = unslash bs.rest := by
    obtain ⟨bback, rest⟩ := bs
    unfold unslash SortPtr.deref
    split
    · cases rest <;> rfl
    · rfl
  generalize hbs' : (if bs.deref = 92 then bs.next else bs) = bs' at hnext
  have htail : bs'.next.rest = (unslash bs.rest).tail := by
    rw [← hnext]
    obtain ⟨bback, rest⟩ := bs'
    cases rest <;> rfl
  have hderef : (unslash bs.rest).headD 0 = bs'.deref := by rw [← hnext]; rfl
  rw [hderef]
  cases s with
  | nil => exact absurd rfl hs
  | cons c s =>
    have hzero : ¬ (c = 0 ∨ bs.deref = 0) := not_or.mpr ⟨hs, hb⟩
    by_cases h92 : c = 92
    · subst h92
      cases s with
      | nil =>
        have heq : skipBackslashes back [92] bs = ({ back := 92 :: back, rest := [] }, bs') := by
          rw [skipBackslashes, if_neg hzero, hbs', if_pos rfl]
        have hun : unslash [92] = [] := rfl
        rw [heq, hun, if_neg (fun h => h.2 rfl)]
        exact ⟨rfl, hnext⟩
      | cons d s =>
        have heq : skipBackslashes back (92 :: d :: s) bs =
            if d ≠ bs'.deref ∨ d = 0 then ({ back := 92 :: back, rest := d :: s }, bs')
            else skipBackslashes (d :: 92 :: back) s bs'.next := by
          rw [skipBackslashes, if_neg hzero, hbs', if_pos rfl]
        have hun : unslash (92 :: d :: s) = d :: s := rfl
        rw [heq, hun, List.headD_cons, List.tail_cons]
        by_cases h : d = bs'.deref ∧ d ≠ 0
        · rw [if_pos h, if_neg (not_or.mpr ⟨not_not.mpr h.1, h.2⟩)]
          exact ⟨_, _, rfl, htail⟩
        · rw [if_neg h, if_pos (by rwa [not_and_or, not_not] at h)]
          exact ⟨rfl, hnext⟩
    · have heq : skipBackslashes back (c :: s) bs =
          if c ≠ bs'.deref then ({ back := back, rest := c :: s }, bs')
          else skipBackslashes (c :: back) s bs'.next := by
        rw [skipBackslashes, if_neg hzero, hbs', if_neg h92]
      have hun : unslash (c :: s) = c :: s := if_neg h92
      rw [heq, hun, List.headD_cons, List.tail_cons]
      by_cases h : c = bs'.deref
      · rw [if_pos ⟨h, hs⟩, if_neg (not_not.mpr h)]
        exact ⟨_, _, rfl, htail⟩
      · rw [if_neg (fun hc => h hc.1), if_pos h]
        exact ⟨rfl, hnext⟩

theorem unslash_length (s : Bytes) : (unslash s).length ≤ s.length := by
  unfold unslash
  split
  · simp
  · exact Nat.le_refl _

theorem skipBackslashes_end (back : Bytes) {s : Bytes} {bs : SortPtr}
    (h : s.headD 0 = 0 ∨ bs.deref = 0) :
    skipBackslashes back s bs = ({ back := back, rest := s }, bs) := by
  cases s with
  | nil => rfl
  | cons c s =>
    have hzero : c = 0 ∨ bs.deref = 0 := h
    rw [skipBackslashes, if_pos hzero]

theorem slashKey_marks {s : Bytes} (h : s.headD 0 ≠ 0) :
    ∃ n k, slashKey false s = n :: k ∧ 0 < n ∧ Marks ((unslash s).headD 0) n := by
  rw [slashKey_step h]
  by_cases h0 : (unslash s).headD 0 = 0
  · rw [if_pos h0, h0]
    exact ⟨1, [], rfl, by decide, Or.inr ⟨rfl, by decide⟩⟩
  · rw [if_neg h0]
    exact ⟨_, _, rfl, Nat.succ_pos _, Or.inl rfl⟩

theorem compare_slashKey_end {s t : Bytes} (h : s.headD 0 = 0 ∨ t.headD 0 = 0) :
    compare (slashKey false s) (slashKey false t) =
      compare (s.headD 0).toNat (t.headD 0).toNat := by
  have hpos {c : UInt8} (hc : c ≠ 0) : 0 < c.toNat :=
    Nat.pos_of_ne_zero fun h => hc (UInt8.toNat_inj.mp h)
  by_cases hs : s.headD 0 = 0
  · rw [slashKey_zero hs, hs]
    by_cases ht : t.headD 0 = 0
    · rw [slashKey_zero ht, ht]
      rfl
    · obtain ⟨n, k, hk, hn, -⟩ := slashKey_marks ht
      rw [hk]
      simp only [Bool.false_eq_true, if_false, List.compare_cons_cons, Nat.compare_eq_lt.mpr hn]
      exact (Nat.compare_eq_lt.mpr (hpos ht)).symm
  · have ht := h.resolve_left hs
    obtain ⟨n, k, hk, hn, -⟩ := slashKey_marks hs
    rw [slashKey_zero ht, ht, hk]
    simp only [Bool.false_eq_true, if_false, List.compare_cons_cons, Nat.compare_eq_gt.mpr hn]
    exact (Nat.compare_eq_gt.mpr (hpos hs)).symm

theorem sign_strcoll_skip (back : Bytes) (s : Bytes) (bs : SortPtr) :
    (strcoll (skipBackslashes back s bs).1.rest (skipBackslashes back s bs).2.rest).sign =
      toInt (compare (slashKey false s) (slashKey false bs.rest)) := by
  have hdiff {A B : Bytes} (h : A.headD 0 = B.headD 0 → A.headD 0 = 0) :
      (strcoll A B).sign = toInt (compare (A.headD 0).toNat (B.headD 0).toNat) := by
    have hcoll := strcoll_append (p := []) List.not_mem_nil h
    rw [List.nil_append, List.nil_append] at hcoll
    rw [hcoll, sign_sub]
  induction h : s.length using Nat.strong_induction_on generalizing back s bs with
  | _ n ih =>
    by_cases hend : s.headD 0 = 0 ∨ bs.deref = 0
    · rw [skipBackslashes_end back hend, compare_slashKey_end hend]
      refine hdiff fun heq => ?_
      rcases hend with h0 | h0
      · exact h0
      · exact heq.trans h0
    · rw [not_or] at hend
      have hstep := skipBackslashes_step back hend.1 hend.2
      split at hstep
      · next hsame =>
        obtain ⟨back', bs', heq, hrest⟩ := hstep
        have hlt : (unslash s).tail.length < n := by
          have hle := unslash_length s
          have hne : unslash s ≠ [] := fun hnil => hsame.2 (by rw [hnil]; rfl)
          have hpos := List.length_pos_of_ne_nil hne
          rw [List.length_tail]
          omega
        rw [heq, ih _ hlt back' _ bs' rfl, hrest, slashKey_step hend.1,
          slashKey_step (show bs.rest.headD 0 ≠ 0 from hend.2), if_neg hsame.2,
          if_neg (hsame.1 ▸ hsame.2), hsame.1, List.compare_cons_cons, Nat.compare_eq_eq.mpr rfl,
          Ordering.eq_then]
      · next hstop =>
        have hstop' : (unslash s).headD 0 = (unslash bs.rest).headD 0 → (unslash s).headD 0 = 0 :=
          fun heq => not_not.mp fun h0 => hstop ⟨heq, h0⟩
        rw [hstep.1, hstep.2, hdiff hstop']
        by_cases heq : (unslash s).headD 0 = (unslash bs.rest).headD 0
        · have h0 := hstop' heq
          rw [slashKey_step hend.1, slashKey_step (show bs.rest.headD 0 ≠ 0 from hend.2),
            if_pos h0, if_pos (heq ▸ h0), heq, Nat.compare_eq_eq.mpr rfl,
            Std.ReflOrd.compare_self]
        · obtain ⟨m, k, hm, -, hma⟩ := slashKey_marks hend.1
          obtain ⟨l, q, hl, -, hmb⟩ := slashKey_marks (show bs.rest.headD 0 ≠ 0 from hend.2)
          have hcomp := compare_of_marks hma hmb heq
          rw [hm, hl, List.compare_cons_cons, hcomp,
            then_of_ne (fun h => heq (UInt8.toNat_inj.mp (Nat.compare_eq_eq.mp h)))]

theorem sorts_of_nobslash {S : SortSettings} (hslash : S.nobslash = true)
    (hoff : S.numeric = .off) : Sorts S (fun e => e.recorded = false) := by
  refine sorts_of_key (fun e => slashKey false e.cmp) (fun a b ha hb => ?_) (fun hn => ?_)
  · unfold eltpcmp compareFrom
    simp only [ha, hb, hslash, hoff, Bool.or_false, Bool.false_eq_true, if_false, if_true,
      sign_sortdir_mul]
    rw [sign_strcoll_skip]
    rfl
  · rw [hoff] at hn
    exact SortNumeric.noConfusion hn

/-- Behind a minus the longer number is the lower one, and a minus in place of a digit is lower than
any digit. -/
theorem not_sorts_signed {S : SortSettings} (hsigned : S.numeric = .signed) :
    ¬ Sorts S (fun e => e.recorded = false) := by
  intro h
  obtain ⟨backwards, nobslash, numeric⟩ := S
  obtain rfl : numeric = .signed := hsigned
  have hfwd := h.trans (sortString [45, 49, 49]) (sortString [45, 49])
    (sortString [45, 49, 45, 49]) rfl rfl rfl
  have hbwd := h.trans (sortString [45, 49, 45, 49]) (sortString [45, 49])
    (sortString [45, 49, 49]) rfl rfl rfl
  revert hfwd hbwd
  cases backwards <;> cases nobslash <;> decide

theorem not_sorts_nobslash_unsigned {S : SortSettings} (hslash : S.nobslash = true)
    (hn : S.numeric = .unsigned) : ¬ Sorts S (fun e => e.recorded = false) := by
  intro h
  obtain ⟨backwards, nobslash, numeric⟩ := S
  obtain rfl : nobslash = true := hslash
  obtain rfl : numeric = .unsigned := hn
  have hswap := h.swap (sortString [49, 57]) (sortString [49, 92, 49, 48]) rfl rfl
  revert hswap
  cases backwards <;> decide

theorem not_sorts_nobslash_recorded {S : SortSettings} (hslash : S.nobslash = true)
    (hoff : S.numeric = .off) : ¬ Sorts S (fun _ => True) := by
  intro h
  obtain ⟨backwards, nobslash, numeric⟩ := S
  obtain rfl : nobslash = true := hslash
  obtain rfl : numeric = .off := hoff
  have hfwd := h.trans ⟨[97, 0, 121], true⟩ ⟨[92, 97, 0, 120], true⟩ ⟨[97, 0, 120], true⟩
    trivial trivial trivial
  have hbwd := h.trans ⟨[97, 0, 120], true⟩ ⟨[92, 97, 0, 120], true⟩ ⟨[97, 0, 121], true⟩
    trivial trivial trivial
  revert hfwd hbwd
  cases backwards <;> decide

/-- The settings under which `eltpcmp` sorts all elements, and those under which it sorts strings
that are terminated. -/
theorem eltpcmp_sorts_iff (S : SortSettings) :
    (Sorts S (fun _ => True) ↔ S.nobslash = false ∧ S.numeric ≠ .signed) ∧
      (Sorts S (fun e => e.recorded = false) ↔
        S.numeric ≠ .signed ∧ ¬ (S.nobslash = true ∧ S.numeric = .unsigned)) := by
  have hall (h : Sorts S (fun _ => True)) : Sorts S (fun e => e.recorded = false) :=
    h.mono fun _ _ => trivial
  refine ⟨⟨fun h => ?_, fun h => sorts_of_plain h.1 h.2 _⟩, fun h => ?_, fun h => ?_⟩
  · have hsigned : S.numeric ≠ .signed := fun hn => not_sorts_signed hn (hall h)
    refine ⟨?_, hsigned⟩
    cases hslash : S.nobslash with
    | false => rfl
    | true =>
      cases hn : S.numeric with
      | off => exact absurd h (not_sorts_nobslash_recorded hslash hn)
      | unsigned => exact absurd (hall h) (not_sorts_nobslash_unsigned hslash hn)
      | signed => exact absurd hn hsigned
  · exact ⟨fun hn => not_sorts_signed hn h,
      fun hboth => not_sorts_nobslash_unsigned hboth.1 hboth.2 h⟩
  · cases hslash : S.nobslash with
    | false => exact sorts_of_plain hslash h.1 _
    | true =>
      cases hn : S.numeric with
      | off => exact sorts_of_nobslash hslash hn
      | unsigned => exact absurd ⟨hslash, hn⟩ h.2
      | signed => exact absurd hn h.1

/-- Three strings in a circle. -/
theorem not_sorts_circle :
    eltpcmp ⟨false, false, .signed⟩ (sortString [45, 49, 49]) (sortString [45, 49]) < 0 ∧
      eltpcmp ⟨false, false, .signed⟩ (sortString [45, 49]) (sortString [45, 49, 45, 49]) < 0 ∧
      eltpcmp ⟨false, false, .signed⟩ (sortString [45, 49, 45, 49]) (sortString [45, 49, 49]) < 0 ∧
      ¬ Sorts ⟨false, false, .signed⟩ (fun _ => True) := by
  refine ⟨by decide, by decide, by decide, fun h => ?_⟩
  exact not_sorts_signed rfl (h.mono fun _ _ => trivial)

end NextBSD.Zsh
