import NextBSD.Zsh.SortKeys

/-!
# sort.c: the order of the keys

Without signs and without backslashes to skip, `eltpcmp` compares keys.  An element with a recorded
length has all its characters in its key; another has those before its first null.
-/

namespace NextBSD.Zsh

open Compare

/-! ## The loops over two strings -/

section Common

variable {p A B : Bytes}

theorem strcoll_append (hp : 0 ∉ p) (h : A.headD 0 = B.headD 0 → A.headD 0 = 0) :
    strcoll (p ++ A) (p ++ B) = ((A.headD 0).toNat : Int) - (B.headD 0).toNat := by
  induction p with
  | nil =>
    cases A with
    | nil => rfl
    | cons c A =>
      cases B with
      | nil => rfl
      | cons d B =>
        have hcd : ¬ (c = d ∧ c ≠ 0) := fun hcd => hcd.2 (h hcd.1)
        exact if_neg hcd
  | cons c p ih =>
    obtain ⟨hc, hp⟩ := not_or.mp (mt List.mem_cons.mpr hp)
    simp [strcoll, ih hp, Ne.symm hc]

theorem skipCommon_append (hp : 0 ∉ p) (h : A.headD 0 = B.headD 0 → A.headD 0 = 0)
    (x y : Bytes) :
    skipCommon x (p ++ A) y (p ++ B) =
      ({ back := p.reverse ++ x, rest := A }, { back := p.reverse ++ y, rest := B }) := by
  induction p generalizing x y with
  | nil =>
    cases A with
    | nil => rfl
    | cons c A =>
      cases B with
      | nil => rfl
      | cons d B =>
        have hcd : ¬ (c = d ∧ c ≠ 0) := fun hcd => hcd.2 (h hcd.1)
        exact if_neg hcd
  | cons c p ih =>
    obtain ⟨hc, hp⟩ := not_or.mp (mt List.mem_cons.mpr hp)
    simp [skipCommon, ih hp, Ne.symm hc]

end Common

theorem exists_common (s t : Bytes) : ∃ p A B : Bytes, s = p ++ A ∧ t = p ++ B ∧ 0 ∉ p ∧
    (A.headD 0 = B.headD 0 → A.headD 0 = 0) := by
  induction s generalizing t with
  | nil => exact ⟨[], [], t, rfl, rfl, List.not_mem_nil, fun _ => rfl⟩
  | cons c s ih =>
    cases t with
    | nil => exact ⟨[], c :: s, [], rfl, rfl, List.not_mem_nil, id⟩
    | cons d t =>
      by_cases hcd : c = d ∧ c ≠ 0
      · obtain ⟨rfl, hc⟩ := hcd
        obtain ⟨p, A, B, rfl, rfl, hp, hAB⟩ := ih t
        exact ⟨c :: p, A, B, rfl, rfl, mt List.mem_cons.mp (not_or.mpr ⟨Ne.symm hc, hp⟩), hAB⟩
      · refine ⟨[], c :: s, d :: t, rfl, rfl, List.not_mem_nil, fun h => ?_⟩
        exact Classical.not_not.mp fun hc => hcd ⟨h, hc⟩

/-- Where `nullLoop` ends.  `x` ends in the last null that both strings have, and `p` is what they
have in common behind it. -/
structure NullSplit (both : Bool) (len pos laststart : Nat) (s t : Bytes) (r : Nat × Bool)
    (x p A B : Bytes) : Prop where
  left : s = x ++ (p ++ A)
  right : t = x ++ (p ++ B)
  noNull : 0 ∉ p
  single : both = false → x = []
  start : r.1 = if x = [] then laststart else pos + x.length
  differ : r.2 = false → A.headD 0 ≠ B.headD 0
  agree : r.2 = true → A.headD 0 = B.headD 0 ∧
    ((x ++ p).length = len ∨ both = false ∧ A.headD 0 = 0)

namespace NullSplit

variable {both : Bool} {len pos laststart : Nat} {s t x p A B : Bytes} {c : UInt8}

theorem null (h : NullSplit true len (pos + 1) (pos + 1) s t
    (nullLoop true len (pos + 1) (pos + 1) s t) x p A B) :
    NullSplit true (len + 1) pos laststart (0 :: s) (0 :: t)
      (nullLoop true (len + 1) pos laststart (0 :: s) (0 :: t)) (0 :: x) p A B := by
  have hstep : nullLoop true (len + 1) pos laststart (0 :: s) (0 :: t) =
      nullLoop true len (pos + 1) (pos + 1) s t := by simp [nullLoop]
  rw [hstep]
  exact
    { left := congrArg _ h.left
      right := congrArg _ h.right
      noNull := h.noNull
      single := fun hb => Bool.noConfusion hb
      start := by
        rw [h.start]
        cases x with
        | nil => rfl
        | cons d x => simp; omega
      differ := h.differ
      agree := fun hr => by
        obtain ⟨hAB, hend⟩ := h.agree hr
        exact ⟨hAB, by simpa using hend⟩ }

theorem char (h : NullSplit both len (pos + 1) laststart s t
    (nullLoop both len (pos + 1) laststart s t) x p A B) (hc : c ≠ 0) (hx : x = []) :
    NullSplit both (len + 1) pos laststart (c :: s) (c :: t)
      (nullLoop both (len + 1) pos laststart (c :: s) (c :: t)) [] (c :: p) A B := by
  have hstep : nullLoop both (len + 1) pos laststart (c :: s) (c :: t) =
      nullLoop both len (pos + 1) laststart s t := by simp [nullLoop, hc]
  subst hx
  rw [hstep]
  exact
    { left := congrArg _ h.left
      right := congrArg _ h.right
      noNull := mt List.mem_cons.mp (not_or.mpr ⟨Ne.symm hc, h.noNull⟩)
      single := fun _ => rfl
      start := h.start
      differ := h.differ
      agree := fun hr => by
        obtain ⟨hAB, hend⟩ := h.agree hr
        exact ⟨hAB, by simpa using hend⟩ }

theorem front (h : NullSplit both len (pos + 1) laststart s t
    (nullLoop both len (pos + 1) laststart s t) x p A B) (hc : c ≠ 0) (hx : x ≠ []) :
    NullSplit both (len + 1) pos laststart (c :: s) (c :: t)
      (nullLoop both (len + 1) pos laststart (c :: s) (c :: t)) (c :: x) p A B := by
  have hstep : nullLoop both (len + 1) pos laststart (c :: s) (c :: t) =
      nullLoop both len (pos + 1) laststart s t := by simp [nullLoop, hc]
  rw [hstep]
  exact
    { left := congrArg _ h.left
      right := congrArg _ h.right
      noNull := h.noNull
      single := fun hb => absurd (h.single hb) hx
      start := by
        rw [h.start, if_neg hx, if_neg (List.cons_ne_nil c x), List.length_cons]
        omega
      differ := h.differ
      agree := fun hr => by
        obtain ⟨hAB, hend⟩ := h.agree hr
        exact ⟨hAB, by simpa using hend⟩ }

end NullSplit

theorem nullLoop_split {both : Bool} {len : Nat} (pos laststart : Nat) {s t : Bytes}
    (hlen : both = true → len ≤ s.length ∧ len ≤ t.length) :
    ∃ x p A B, NullSplit both len pos laststart s t (nullLoop both len pos laststart s t)
      x p A B := by
  induction len generalizing pos laststart s t with
  | zero =>
    refine ⟨[], [], s, t, ?_⟩
    by_cases hst : s.headD 0 = t.headD 0
    · constructor <;> simp_all [nullLoop]
    · constructor <;> simp_all [nullLoop]
  | succ len ih =>
    by_cases hst : s.headD 0 = t.headD 0
    · by_cases h0 : s.headD 0 = 0
      · cases both with
        | false => exact ⟨[], [], s, t, by constructor <;> simp_all [nullLoop]⟩
        | true =>
          obtain ⟨hs, ht⟩ := hlen rfl
          cases s with
          | nil => simp at hs
          | cons c s =>
            cases t with
            | nil => simp at ht
            | cons d t =>
              obtain rfl : c = d := hst
              obtain rfl : c = 0 := h0
              obtain ⟨x, p, A, B, h⟩ := ih (pos + 1) (pos + 1)
                (fun _ => ⟨Nat.succ_le_succ_iff.mp hs, Nat.succ_le_succ_iff.mp ht⟩)
              exact ⟨0 :: x, p, A, B, h.null⟩
      · cases s with
        | nil => exact absurd rfl h0
        | cons c s =>
          cases t with
          | nil => exact absurd hst h0
          | cons d t =>
            obtain rfl : c = d := hst
            have hc : c ≠ 0 := h0
            obtain ⟨x, p, A, B, h⟩ := ih (pos + 1) laststart (s := s) (t := t)
              (fun hb => by simpa using hlen hb)
            by_cases hx : x = []
            · exact ⟨[], c :: p, A, B, h.char hc hx⟩
            · exact ⟨c :: x, p, A, B, h.front hc hx⟩
    · exact ⟨[], [], s, t, by constructor <;> simp_all [nullLoop]⟩

/-! ## The comparison of elements -/

def textKey (numeric : SortNumeric) (s : Bytes) : List Nat :=
  if numeric = .off then s.map charKey else numericKey false s

def SortElt.shown (e : SortElt) : Bytes := if e.recorded then e.cmp else e.cmp.takeWhile (· ≠ 0)

/-- A string goes before the same string with a recorded length, and this before all that have more
characters. -/
def SortElt.key (numeric : SortNumeric) (e : SortElt) : List Nat :=
  textKey numeric e.shown ++ [if e.recorded then 1 else 0]

theorem sign_sortdir_mul (S : SortSettings) (n : Int) :
    (S.sortdir * n).sign = S.sortdir * n.sign := by
  unfold SortSettings.sortdir
  split
  · rw [Int.neg_one_mul, Int.neg_one_mul, Int.sign_neg]
  · rw [Int.one_mul, Int.one_mul]

theorem sign_sortdir (S : SortSettings) : S.sortdir.sign = S.sortdir := by
  unfold SortSettings.sortdir
  split <;> rfl

theorem Shows.refl (s : Bytes) : Shows s s := ⟨rfl, rfl⟩

theorem Shows.takeWhile (s : Bytes) : Shows s (s.takeWhile (· ≠ 0)) where
  head := by
    cases s with
    | nil => rfl
    | cons c s =>
      by_cases hc : c = 0
      · subst hc
        rfl
      · simp [hc]
  run := by
    induction s with
    | nil => rfl
    | cons c s ih =>
      by_cases hc : c = 0
      · subst hc
        rfl
      · by_cases hd : idigit c = true
        · simpa [hc, hd] using ih
        · simp [hc, hd]

theorem takeWhile_ne_zero {p A : Bytes} (hp : 0 ∉ p) :
    (p ++ A).takeWhile (· ≠ 0) = p ++ A.takeWhile (· ≠ 0) :=
  List.takeWhile_append_of_pos fun _ hc => decide_eq_true fun h => hp (h ▸ hc)

theorem takeWhile_of_headD {A : Bytes} (hA : A.headD 0 = 0) : A.takeWhile (· ≠ 0) = [] := by
  cases A with
  | nil => rfl
  | cons c A =>
    obtain rfl : c = 0 := hA
    rfl

theorem shown_append_of_null {p A : Bytes} (hp : 0 ∉ p) (hA : A.headD 0 = 0) :
    (p ++ A).takeWhile (· ≠ 0) = p := by
  rw [takeWhile_ne_zero hp, takeWhile_of_headD hA, List.append_nil]

theorem shown_split {e : SortElt} {x p A : Bytes} (hx : e.recorded = false → x = [])
    (hp : 0 ∉ p) (he : e.cmp = x ++ (p ++ A)) : ∃ a, Shows A a ∧ e.shown = x ++ (p ++ a) := by
  unfold SortElt.shown
  cases hrec : e.recorded with
  | true => exact ⟨A, Shows.refl A, he⟩
  | false =>
    obtain rfl := hx hrec
    refine ⟨A.takeWhile (· ≠ 0), Shows.takeWhile A, ?_⟩
    rw [he]
    exact takeWhile_ne_zero hp

theorem ending_lt (e : SortElt) : (if e.recorded then 1 else 0) < 2 := by
  split <;> decide

theorem ptrAt_split {x q : Bytes} {n : Nat} (h : n = if x = [] then 0 else 0 + x.length) :
    ptrAt (x ++ q) n = { back := x.reverse, rest := q } := by
  have hn : n = x.length := by
    rw [h]
    split
    · next hx => rw [hx]; rfl
    · exact Nat.zero_add _
  subst hn
  simp [ptrAt]

theorem compare_ended (numeric : SortNumeric) {s A : Bytes} {e e' : Nat} (hA : A.headD 0 = 0)
    (he : e < 2) (h : A = [] → e < e') :
    compare (textKey numeric s ++ [e]) (textKey numeric (s ++ A) ++ [e']) = .lt := by
  cases A with
  | nil =>
    rw [List.append_nil, compare_append_left, List.compare_cons_cons,
      Nat.compare_eq_lt.mpr (h rfl)]
    rfl
  | cons c A =>
    obtain rfl : c = 0 := hA
    have hkey : ∃ k, textKey numeric (s ++ 0 :: A) = textKey numeric s ++ charKey 0 :: k := by
      unfold textKey
      split
      · exact ⟨A.map charKey, by simp⟩
      · exact ⟨_, numericKey_null false s A⟩
    obtain ⟨k, hk⟩ := hkey
    rw [hk, List.append_assoc, compare_append_left, List.cons_append, List.compare_cons_cons,
      Nat.compare_eq_lt.mpr (show e < charKey 0 from he)]
    rfl

theorem compare_key_ended (numeric : SortNumeric) {e e' : SortElt} {s A : Bytes}
    (he : e.shown = s) (he' : e'.shown = s ++ A) (hA : A.headD 0 = 0)
    (h : A = [] → e.recorded = false ∧ e'.recorded = true) :
    compare (e.key numeric) (e'.key numeric) = .lt ∧
      compare (e'.key numeric) (e.key numeric) = .gt := by
  have hlt : compare (e.key numeric) (e'.key numeric) = .lt := by
    unfold SortElt.key
    rw [he, he']
    refine compare_ended numeric hA (ending_lt e) fun hnil => ?_
    rw [(h hnil).1, (h hnil).2]
    decide
  refine ⟨hlt, ?_⟩
  rw [Std.OrientedOrd.eq_swap, hlt]
  rfl

theorem recordedLen_le {a b : SortElt} (h : (a.recorded && b.recorded) = true) :
    recordedLen a b ≤ a.cmp.length ∧ recordedLen a b ≤ b.cmp.length := by
  rw [Bool.and_eq_true] at h
  unfold recordedLen
  rw [if_pos h.1]
  split
  · next hlt => exact ⟨Nat.le_of_lt hlt.2, Nat.le_refl _⟩
  · next hge => exact ⟨Nat.le_refl _, Nat.not_lt.mp fun hlt => hge ⟨h.2, hlt⟩⟩

namespace NullSplit

variable {a b : SortElt} {r : Nat × Bool} {x p A B : Bytes} (numeric : SortNumeric)
  (h : NullSplit (a.recorded && b.recorded) (recordedLen a b) 0 0 a.cmp b.cmp r x p A B)
  (hr : r.2 = true)

include h hr

theorem compare_both (ha : a.recorded = true) (hb : b.recorded = true) :
    compare (a.key numeric) (b.key numeric) = compare a.cmp.length b.cmp.length ∧
      (a.cmp.length = b.cmp.length → A = [] ∧ B = []) := by
  obtain ⟨hAB, hend⟩ := h.agree hr
  have hB : A.headD 0 = 0 → B.headD 0 = 0 := fun hA => hAB ▸ hA
  have hsa : a.shown = x ++ (p ++ A) := by rw [SortElt.shown, if_pos ha, h.left]
  have hsb : b.shown = x ++ (p ++ B) := by rw [SortElt.shown, if_pos hb, h.right]
  have hend : (x ++ p).length = recordedLen a b := by simpa [ha, hb] using hend
  have hla := congrArg List.length h.left
  have hlb := congrArg List.length h.right
  rw [← List.append_assoc, List.length_append] at hla hlb
  rw [← List.append_assoc] at hsa hsb
  simp only [recordedLen, ha, hb, if_true, true_and] at hend
  rcases Nat.lt_trichotomy a.cmp.length b.cmp.length with hlt | heq | hgt
  · rw [if_neg (Nat.lt_asymm hlt)] at hend
    have hne : B ≠ [] := by rintro rfl; rw [List.length_nil] at hlb; omega
    obtain rfl : A = [] := List.length_eq_zero_iff.mp (by omega)
    rw [List.append_nil] at hsa
    refine ⟨?_, fun h => absurd h (Nat.ne_of_lt hlt)⟩
    rw [Nat.compare_eq_lt.mpr hlt]
    exact (compare_key_ended numeric hsa hsb (hB rfl) (fun h => absurd h hne)).1
  · rw [if_neg (by omega)] at hend
    obtain rfl : A = [] := List.length_eq_zero_iff.mp (by omega)
    obtain rfl : B = [] := List.length_eq_zero_iff.mp (by omega)
    refine ⟨?_, fun _ => ⟨rfl, rfl⟩⟩
    rw [Nat.compare_eq_eq.mpr heq, SortElt.key, SortElt.key, hsa, hsb, ha, hb]
    exact Std.ReflOrd.compare_self
  · rw [if_pos hgt] at hend
    have hne : A ≠ [] := by rintro rfl; rw [List.length_nil] at hla; omega
    obtain rfl : B = [] := List.length_eq_zero_iff.mp (by omega)
    rw [List.append_nil] at hsb
    refine ⟨?_, fun h => absurd h (Nat.ne_of_gt hgt)⟩
    rw [Nat.compare_eq_gt.mpr hgt]
    exact (compare_key_ended numeric hsb hsa hAB (fun h => absurd h hne)).2

theorem compare_left (ha : a.recorded = true) (hb : b.recorded = false) :
    compare (a.key numeric) (b.key numeric) = .gt := by
  obtain ⟨hAB, hend⟩ := h.agree hr
  obtain rfl := h.single (by rw [hb, Bool.and_false])
  have hA : A.headD 0 = 0 := by
    rcases hend with hlen | ⟨-, hA⟩
    · have hla := congrArg List.length h.left
      simp only [recordedLen, ha, hb, if_true, Bool.false_eq_true, false_and, if_false,
        List.nil_append, List.length_append] at hlen hla
      rw [List.length_eq_zero_iff.mp (show A.length = 0 by omega)]
      rfl
    · exact hA
  have hsa : a.shown = p ++ A := by rw [SortElt.shown, if_pos ha, h.left]; rfl
  have hsb : b.shown = p := by
    rw [SortElt.shown, hb, h.right]
    exact shown_append_of_null h.noNull (hAB ▸ hA)
  exact (compare_key_ended numeric hsb hsa hA (fun _ => ⟨hb, ha⟩)).2

theorem compare_right (ha : a.recorded = false) (hb : b.recorded = true) :
    compare (a.key numeric) (b.key numeric) = .lt := by
  obtain ⟨hAB, hend⟩ := h.agree hr
  obtain rfl := h.single (by rw [ha]; rfl)
  have hA : A.headD 0 = 0 := by
    rcases hend with hlen | ⟨-, hA⟩
    · have hlb := congrArg List.length h.right
      simp only [recordedLen, ha, Bool.false_eq_true, if_false, List.nil_append,
        List.length_append] at hlen hlb
      rw [hAB, List.length_eq_zero_iff.mp (show B.length = 0 by omega)]
      rfl
    · exact hA
  have hsa : a.shown = p := by
    rw [SortElt.shown, ha, h.left]
    exact shown_append_of_null h.noNull hA
  have hsb : b.shown = p ++ B := by rw [SortElt.shown, if_pos hb, h.right]; rfl
  exact (compare_key_ended numeric hsa hsb (hAB ▸ hA) (fun _ => ⟨ha, hb⟩)).1

end NullSplit

section Plain

variable {S : SortSettings} (hslash : S.nobslash = false)

include hslash

theorem compareFrom_zero {p A B : Bytes} (hp : 0 ∉ p) (hA : A.headD 0 = 0) (hB : B.headD 0 = 0)
    (x : Bytes) :
    compareFrom S { back := x, rest := p ++ A } { back := x, rest := p ++ B } = 0 := by
  have hAB : A.headD 0 = B.headD 0 → A.headD 0 = 0 := fun _ => hA
  have hdigit {s : Bytes} (h : s.headD 0 = 0) : startsDigit s = false := by
    unfold startsDigit
    rw [h]
    rfl
  unfold compareFrom
  simp only [hslash, Bool.false_eq_true, if_false, strcoll_append hp hAB, skipCommon_append hp hAB,
    hA, hB]
  simp [compareNumeric, hdigit hA, hdigit hB]

theorem sign_compareFrom (hsigned : S.numeric ≠ .signed) {p A B a b : Bytes} {ea eb : Nat}
    (hp : 0 ∉ p) (ha : Shows A a) (hb : Shows B b) (hne : A.headD 0 ≠ B.headD 0) (hea : ea < 2)
    (heb : eb < 2) (x : Bytes) :
    (compareFrom S { back := x.reverse, rest := p ++ A }
      { back := x.reverse, rest := p ++ B }).sign =
      S.sortdir * toInt (compare (textKey S.numeric (x ++ (p ++ a)) ++ [ea])
        (textKey S.numeric (x ++ (p ++ b)) ++ [eb])) := by
  have hAB : A.headD 0 = B.headD 0 → A.headD 0 = 0 := fun h => absurd h hne
  have hne' : a.headD 0 ≠ b.headD 0 := by rw [ha.head, hb.head]; exact hne
  unfold compareFrom
  simp only [hslash, Bool.false_eq_true, if_false, strcoll_append hp hAB, skipCommon_append hp hAB]
  by_cases hoff : S.numeric = .off
  · have hmark {s : Bytes} {e : Nat} (he : e < 2) :
        ∃ n k, s.map charKey ++ [e] = n :: k ∧ Marks (s.headD 0) n := by
      cases s with
      | nil => exact ⟨e, [], rfl, Or.inr ⟨rfl, he⟩⟩
      | cons c s => exact ⟨charKey c, _, rfl, Or.inl rfl⟩
    obtain ⟨m, k, hm, hma⟩ := hmark (s := a) hea
    obtain ⟨n, l, hn, hnb⟩ := hmark (s := b) heb
    have hcomp := compare_of_marks hma hnb hne'
    rw [if_pos hoff, sign_sortdir_mul, sign_sub]
    simp only [textKey, hoff, if_true, List.map_append, List.append_assoc, compare_append_left,
      hm, hn, List.compare_cons_cons, hcomp]
    rw [then_of_ne (fun h => hne' (UInt8.toNat_inj.mp (Nat.compare_eq_eq.mp h))), ha.head, hb.head]
  · rw [if_neg hoff, sign_sortdir_mul]
    have hback : p.reverse ++ x.reverse = (x ++ p).reverse := List.reverse_append.symm
    simp only [textKey, hoff, if_false, hsigned, decide_false, hback, ← List.append_assoc x p]
    rw [sign_compareNumeric ha hb hne hea heb]

theorem sign_eltpcmp (hsigned : S.numeric ≠ .signed) (a b : SortElt) :
    (eltpcmp S a b).sign =
      S.sortdir * toInt (compare (a.key S.numeric) (b.key S.numeric)) := by
  have hzero (k : List Nat) : S.sortdir * toInt (compare k k) = 0 := by
    rw [Std.ReflOrd.compare_self]
    exact Int.mul_zero _
  unfold eltpcmp
  by_cases hrec : (a.recorded || b.recorded) = true
  · rw [if_pos hrec]
    obtain ⟨x, p, A, B, h⟩ := nullLoop_split 0 0 (recordedLen_le (a := a) (b := b))
    generalize nullLoop (a.recorded && b.recorded) (recordedLen a b) 0 0 a.cmp b.cmp = r at h ⊢
    obtain ⟨laststart, agree⟩ := r
    have hxa : a.recorded = false → x = [] := fun ha => h.single (by rw [ha]; rfl)
    have hxb : b.recorded = false → x = [] := fun hb => h.single (by rw [hb, Bool.and_false])
    have hpa : ptrAt a.cmp laststart = { back := x.reverse, rest := p ++ A } := by
      rw [h.left]
      exact ptrAt_split h.start
    have hpb : ptrAt b.cmp laststart = { back := x.reverse, rest := p ++ B } := by
      rw [h.right]
      exact ptrAt_split h.start
    simp only [hpa, hpb]
    cases agree with
    | false =>
      obtain ⟨a', ha', hsa⟩ := shown_split hxa h.noNull h.left
      obtain ⟨b', hb', hsb⟩ := shown_split hxb h.noNull h.right
      rw [if_neg (fun hc => Bool.noConfusion hc.1), SortElt.key, SortElt.key, hsa, hsb]
      exact sign_compareFrom hslash hsigned h.noNull ha' hb' (h.differ rfl) (ending_lt a)
        (ending_lt b) x
    | true =>
      by_cases ha : a.recorded = true
      · by_cases hb : b.recorded = true
        · obtain ⟨hcomp, hnil⟩ := h.compare_both S.numeric rfl ha hb
          rw [hcomp, if_pos ha, if_pos hb]
          simp only [SortElt.len, if_pos ha, if_pos hb]
          by_cases hlen : a.cmp.length = b.cmp.length
          · obtain ⟨rfl, rfl⟩ := hnil hlen
            rw [if_neg (by omega), compareFrom_zero hslash h.noNull rfl rfl,
              Nat.compare_eq_eq.mpr hlen]
            exact (Int.mul_zero _).symm
          · have hlen' : (a.cmp.length : Int) ≠ b.cmp.length := fun h => hlen (Int.ofNat.inj h)
            rw [if_pos ⟨trivial, hlen'⟩, Int.mul_comm, sign_sortdir_mul, sign_sub]
        · rw [Bool.not_eq_true] at hb
          rw [if_pos ⟨rfl, by simp [SortElt.len, ha, hb]⟩, if_pos ha, hb,
            if_neg Bool.false_ne_true, sign_sortdir, h.compare_left S.numeric rfl ha hb]
          exact (Int.mul_one _).symm
      · rw [Bool.not_eq_true] at ha
        have hb : b.recorded = true := by simpa [ha] using hrec
        rw [if_pos ⟨rfl, by simp [SortElt.len, ha, hb]⟩, ha, if_neg Bool.false_ne_true,
          Int.sign_neg, sign_sortdir, h.compare_right S.numeric rfl ha hb]
        exact (Int.mul_neg_one _).symm
  · rw [if_neg hrec]
    simp only [Bool.or_eq_true, not_or, Bool.not_eq_true] at hrec
    obtain ⟨p, A, B, ha, hb, hp, hAB⟩ := exists_common a.cmp b.cmp
    have hpa : ptrAt a.cmp 0 = { back := [].reverse, rest := p ++ A } := by rw [ha]; rfl
    have hpb : ptrAt b.cmp 0 = { back := [].reverse, rest := p ++ B } := by rw [hb]; rfl
    rw [hpa, hpb]
    by_cases hne : A.headD 0 = B.headD 0
    · have hA := hAB hne
      have hB : B.headD 0 = 0 := hne ▸ hA
      have hkey : a.key S.numeric = b.key S.numeric := by
        simp only [SortElt.key, SortElt.shown, hrec.1, hrec.2, ha, hb,
          Bool.false_eq_true, if_false, shown_append_of_null hp hA, shown_append_of_null hp hB]
      rw [compareFrom_zero hslash hp hA hB, hkey, hzero]
      rfl
    · obtain ⟨a', ha', hsa⟩ := shown_split (x := []) (fun _ => rfl) hp ha
      obtain ⟨b', hb', hsb⟩ := shown_split (x := []) (fun _ => rfl) hp hb
      rw [SortElt.key, SortElt.key, hsa, hsb]
      exact sign_compareFrom hslash hsigned hp ha' hb' hne (ending_lt a) (ending_lt b) []

end Plain

end NextBSD.Zsh
