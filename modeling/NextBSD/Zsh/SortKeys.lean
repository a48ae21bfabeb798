import NextBSD.Zsh.Sort

/-!
# sort.c: the keys of strings

The key of a string is a list of numbers, in which a run of digits is preceded by how many of its
digits count and by these.  From where two strings differ, the numeric comparison is that of their
keys.
-/

namespace NextBSD.Zsh

open Compare

def charKey (c : UInt8) : Nat := c.toNat + 2

/-- A run of digits comes where its first digit does among the other characters. -/
def runKey (run : Bytes) : List Nat :=
  charKey 48 :: (significant run).length :: (significant run).map digitValue

@[grind =]
def numericKey : Bool → Bytes → List Nat
  | _, [] => []
  | inRun, c :: s =>
    if idigit c then
      (if inRun then [] else runKey ((c :: s).takeWhile idigit)) ++ charKey c :: numericKey true s
    else charKey c :: numericKey false s

theorem numericKey_of_not_idigit {c : UInt8} (h : idigit c = false) (inRun : Bool) (s : Bytes) :
    numericKey inRun (c :: s) = charKey c :: numericKey false s := by simp [numericKey, h]

theorem numericKey_true_digits {run : Bytes} (hrun : AllDigits run) (s : Bytes) :
    numericKey true (run ++ s) = run.map charKey ++ numericKey true s := by
  induction run with
  | nil => rfl
  | cons c run ih =>
    obtain ⟨hc, hrun⟩ := allDigits_cons.mp hrun
    simp [numericKey, hc, ih hrun]

theorem numericKey_false_digit {s : Bytes} (h : startsDigit s = true) :
    numericKey false s = runKey (s.takeWhile idigit) ++ numericKey true s := by
  cases s with
  | nil => exact absurd h (by decide)
  | cons c s =>
    have hc : idigit c = true := h
    simp [numericKey, hc]

theorem numericKey_append {s : Bytes} (hs : ∀ c, s.getLast? = some c → idigit c = false)
    {inRun : Bool} (hrun : s = [] → inRun = false) (t : Bytes) :
    numericKey inRun (s ++ t) = numericKey inRun s ++ numericKey false t := by
  induction s generalizing inRun with
  | nil =>
    rw [hrun rfl]
    rfl
  | cons c s ih =>
    have htail : ∀ d, s.getLast? = some d → idigit d = false := fun d hd =>
      hs d (by rw [List.getLast?_cons, hd]; rfl)
    by_cases hc : idigit c = true
    · have hnil : s ≠ [] := by
        rintro rfl
        exact Bool.false_ne_true ((hs c rfl).symm.trans hc)
      have hlast : ¬ ∀ d ∈ s, idigit d = true := fun hall =>
        Bool.false_ne_true ((htail _ (List.getLast?_eq_some_getLast hnil)).symm.trans
          (hall _ (List.getLast_mem hnil)))
      have htake : (s ++ t).takeWhile idigit = s.takeWhile idigit := by
        rw [List.takeWhile_append, if_neg]
        intro hlen
        exact hlast (List.takeWhile_eq_self_iff.mp
          ((List.takeWhile_prefix _).eq_of_length hlen))
      simp [numericKey, hc, htake, ih htail (fun h => absurd h hnil)]
    · rw [Bool.not_eq_true] at hc
      rw [List.cons_append, numericKey_of_not_idigit hc, numericKey_of_not_idigit hc,
        ih htail (fun _ => rfl), List.cons_append]

theorem numericKey_null (inRun : Bool) (s t : Bytes) :
    numericKey inRun (s ++ 0 :: t) = numericKey inRun s ++ charKey 0 :: numericKey false t := by
  have htake (u : Bytes) : (u ++ 0 :: t).takeWhile idigit = u.takeWhile idigit := by
    rw [List.takeWhile_append]
    split
    · next h =>
      rw [(List.takeWhile_prefix idigit).eq_of_length h]
      exact List.append_nil u
    · rfl
  induction s generalizing inRun with
  | nil => exact numericKey_of_not_idigit rfl inRun t
  | cons c s ih =>
    have hcons := htake (c :: s)
    rw [List.cons_append] at hcons ⊢
    simp only [numericKey, hcons, ih]
    split
    · rw [List.append_assoc, List.cons_append]
    · rw [List.cons_append]

theorem runCompare_self (run : Bytes) : runCompare run run = .eq := by
  simp [runCompare, Std.ReflCmp.compare_self]

theorem compare_runKey (as bs : Bytes) (xs ys : List Nat) :
    compare (runKey as ++ xs) (runKey bs ++ ys) = (runCompare as bs).then (compare xs ys) := by
  unfold runKey runCompare
  simp only [List.cons_append, List.compare_cons_cons, Std.ReflCmp.compare_self, Ordering.eq_then]
  by_cases hlen : (significant as).length = (significant bs).length
  · rw [compare_append_of_length_eq (by simpa using hlen), Ordering.then_assoc]
  · have hne : compare (significant as).length (significant bs).length ≠ .eq := fun h =>
      hlen (Nat.compare_eq_eq.mp h)
    rw [then_of_ne hne, then_of_ne hne, then_of_ne hne]

/-! ## Where the keys differ -/

/-- What a key has for the character `c`, or at the end of the string. -/
def Marks (c : UInt8) (n : Nat) : Prop := n = charKey c ∨ c = 0 ∧ n < 2

theorem compare_of_marks {c d : UInt8} {m n : Nat} (hm : Marks c m) (hn : Marks d n)
    (hne : c ≠ d) : compare m n = compare c.toNat d.toNat := by
  have hne' : c.toNat ≠ d.toNat := fun h => hne (UInt8.toNat_inj.mp h)
  unfold Marks charKey at hm hn
  rcases hm with hm | ⟨rfl, hm⟩ <;> rcases hn with hn | ⟨rfl, hn⟩ <;>
    exact compare_congr (by simp_all; try omega) (by simp_all; try omega)

theorem compare_run_mark {c d : UInt8} {n : Nat} (hc : idigit c = true) (hd : idigit d = false)
    (hn : Marks d n) : compare (charKey 48) n = compare c.toNat d.toNat := by
  have hd' : ¬ (48 ≤ d.toNat ∧ d.toNat ≤ 57) := fun h =>
    Bool.false_ne_true (hd.symm.trans ((idigit_iff d).mpr h))
  rw [idigit_iff] at hc
  have h48 : charKey 48 = 50 := rfl
  rw [h48]
  rcases hn with hn | ⟨rfl, hn⟩
  · unfold charKey at hn
    exact compare_congr (by omega) (by omega)
  · have h0 : (0 : UInt8).toNat = 0 := rfl
    exact compare_congr (by omega) (by omega)

theorem numericKey_marks {inRun : Bool} {s : Bytes} (h : inRun = true ∨ startsDigit s = false)
    {e : Nat} (he : e < 2) : ∃ n k, numericKey inRun s ++ [e] = n :: k ∧ Marks (s.headD 0) n := by
  cases s with
  | nil => exact ⟨e, [], rfl, Or.inr ⟨rfl, he⟩⟩
  | cons c s =>
    refine ⟨charKey c, ?_⟩
    rcases h with rfl | h
    · by_cases hc : idigit c = true
      · exact ⟨_, by simp [numericKey, hc]; rfl, Or.inl rfl⟩
      · rw [Bool.not_eq_true] at hc
        exact ⟨_, by rw [numericKey_of_not_idigit hc]; rfl, Or.inl rfl⟩
    · have hc : idigit c = false := h
      exact ⟨_, by rw [numericKey_of_not_idigit hc]; rfl, Or.inl rfl⟩

/-- What a pointer to `s` reads before the first null is what `t` starts with. -/
structure Shows (s t : Bytes) : Prop where
  head : t.headD 0 = s.headD 0
  run : t.takeWhile idigit = s.takeWhile idigit

theorem Shows.startsDigit {s t : Bytes} (h : Shows s t) : startsDigit t = startsDigit s :=
  congrArg idigit h.head

theorem compare_numericKey {run a b : Bytes} {ea eb : Nat} (hrun : AllDigits run)
    (hne : a.headD 0 ≠ b.headD 0) (hea : ea < 2) (heb : eb < 2) :
    compare (numericKey false (run ++ a) ++ [ea]) (numericKey false (run ++ b) ++ [eb]) =
      (if startsDigit (run ++ a) && startsDigit (run ++ b) then
        runCompare (run ++ a.takeWhile idigit) (run ++ b.takeWhile idigit) else .eq).then
      (compare (a.headD 0).toNat (b.headD 0).toNat) := by
  have htake (s : Bytes) : (run ++ s).takeWhile idigit = run ++ s.takeWhile idigit :=
    List.takeWhile_append_of_pos hrun
  by_cases hboth : (startsDigit (run ++ a) && startsDigit (run ++ b)) = true
  · rw [if_pos hboth]
    rw [Bool.and_eq_true] at hboth
    obtain ⟨m, k, hm, hmark⟩ := numericKey_marks (s := a) (Or.inl rfl) hea
    obtain ⟨n, l, hn, hnark⟩ := numericKey_marks (s := b) (Or.inl rfl) heb
    rw [numericKey_false_digit hboth.1, numericKey_false_digit hboth.2, htake, htake,
      List.append_assoc, List.append_assoc, compare_runKey, numericKey_true_digits hrun,
      numericKey_true_digits hrun, List.append_assoc, List.append_assoc, compare_append_left,
      hm, hn, List.compare_cons_cons, compare_of_marks hmark hnark hne]
    rw [then_of_ne (fun h => hne (UInt8.toNat_inj.mp (Nat.compare_eq_eq.mp h)))]
  · rw [if_neg hboth]
    cases run with
    | cons c run =>
      have hc : idigit c = true := hrun c List.mem_cons_self
      exact absurd (by simp [startsDigit, hc]) hboth
    | nil =>
      rw [List.nil_append, List.nil_append, Ordering.eq_then]
      have hne' : compare (a.headD 0).toNat (b.headD 0).toNat ≠ .eq := fun h =>
        hne (UInt8.toNat_inj.mp (Nat.compare_eq_eq.mp h))
      by_cases ha : startsDigit a = true
      · have hb : startsDigit b = false := by simpa [ha] using hboth
        obtain ⟨n, l, hn, hnark⟩ := numericKey_marks (Or.inr hb) heb
        have hcomp := compare_run_mark ha hb hnark
        rw [numericKey_false_digit ha, hn, runKey, List.cons_append, List.cons_append,
          List.compare_cons_cons, hcomp, then_of_ne hne']
      · rw [Bool.not_eq_true] at ha
        obtain ⟨m, k, hm, hmark⟩ := numericKey_marks (Or.inr ha) hea
        by_cases hb : startsDigit b = true
        · have hcomp : compare m (charKey 48) = compare (a.headD 0).toNat (b.headD 0).toNat := by
            rw [← Nat.compare_swap, compare_run_mark hb ha hmark, Nat.compare_swap]
          rw [numericKey_false_digit hb, hm, runKey, List.cons_append, List.cons_append,
            List.compare_cons_cons, hcomp, then_of_ne hne']
        · rw [Bool.not_eq_true] at hb
          obtain ⟨n, l, hn, hnark⟩ := numericKey_marks (Or.inr hb) heb
          rw [hm, hn, List.compare_cons_cons, compare_of_marks hmark hnark hne, then_of_ne hne']

theorem backUp_spec {run back : Bytes} (hrun : AllDigits run) (hback : startsDigit back = false)
    (as bs : Bytes) :
    backUp (run ++ back) as { back := run ++ back, rest := bs } =
      ({ back := back, rest := run.reverse ++ as }, { back := back, rest := run.reverse ++ bs }) := by
  induction run generalizing as bs with
  | nil =>
    cases back with
    | nil => rfl
    | cons c back =>
      have hc : idigit c = false := hback
      simp [backUp, hc]
  | cons c run ih =>
    obtain ⟨hc, hrun⟩ := allDigits_cons.mp hrun
    simp [backUp, hc, SortPtr.prev, ih hrun]

theorem sign_compareNumeric {w A B a b : Bytes} {ea eb : Nat} (ha : Shows A a) (hb : Shows B b)
    (hne : A.headD 0 ≠ B.headD 0) (hea : ea < 2) (heb : eb < 2) :
    (compareNumeric false (((A.headD 0).toNat : Int) - (B.headD 0).toNat)
      { back := w.reverse, rest := A } { back := w.reverse, rest := B }).sign =
      toInt (compare (numericKey false (w ++ a) ++ [ea]) (numericKey false (w ++ b) ++ [eb])) := by
  -- the digits in front of the difference, and what is before them
  obtain ⟨front, run, rfl, hrun, hfront⟩ : ∃ front run : Bytes, w = front ++ run ∧ AllDigits run ∧
      startsDigit front.reverse = false := by
    refine ⟨(w.reverse.dropWhile idigit).reverse, (w.reverse.takeWhile idigit).reverse, ?_, ?_, ?_⟩
    · rw [← List.reverse_append, List.takeWhile_append_dropWhile, List.reverse_reverse]
    · exact fun c hc => allDigits_takeWhile _ c (List.mem_reverse.mp hc)
    · rw [List.reverse_reverse]
      exact startsDigit_dropWhile _
  have hlast : ∀ c, front.getLast? = some c → idigit c = false := by
    intro c hc
    rw [← List.head?_reverse] at hc
    unfold startsDigit at hfront
    rw [List.headD_eq_head?_getD, hc] at hfront
    exact hfront
  have hne' : a.headD 0 ≠ b.headD 0 := by rw [ha.head, hb.head]; exact hne
  rw [List.append_assoc, List.append_assoc, numericKey_append hlast (fun _ => rfl),
    numericKey_append hlast (fun _ => rfl), List.append_assoc, List.append_assoc,
    compare_append_left, compare_numericKey hrun hne' hea heb, ha.head, hb.head, ha.run, hb.run]
  have hrun' : AllDigits run.reverse := fun c hc => hrun c (List.mem_reverse.mp hc)
  have hback := backUp_spec hrun' hfront A B
  have hstart {s t : Bytes} (h : Shows s t) : startsDigit (run ++ t) = startsDigit (run ++ s) := by
    cases run with
    | nil => exact h.startsDigit
    | cons c run => rfl
  have htake (s : Bytes) : (run ++ s).takeWhile idigit = run ++ s.takeWhile idigit :=
    List.takeWhile_append_of_pos hrun
  rw [hstart ha, hstart hb]
  unfold compareNumeric
  rw [if_neg (by simp), if_neg (by simp)]
  simp only [List.reverse_append, hback, List.reverse_reverse, Bool.false_eq_true, false_and,
    if_false]
  have hcmp := sign_sub (A.headD 0).toNat (B.headD 0).toNat
  by_cases hsome : (startsDigit A || startsDigit B) = true
  · rw [if_pos hsome]
    by_cases hboth : (startsDigit (run ++ A) && startsDigit (run ++ B)) = true
    · rw [if_pos hboth, if_pos hboth, sign_compareRuns hcmp, htake, htake]
    · rw [if_neg hboth, if_neg hboth, Ordering.eq_then, hcmp]
  · rw [if_neg hsome, hcmp]
    -- no digit on either side: the runs in front are the same
    have hnone {s : Bytes} (h : startsDigit s = false) : s.takeWhile idigit = [] := by
      cases s with
      | nil => rfl
      | cons c s => exact List.takeWhile_cons_of_neg (by simpa [startsDigit] using h)
    simp only [Bool.or_eq_true, not_or, Bool.not_eq_true] at hsome
    rw [hnone hsome.1, hnone hsome.2, runCompare_self, ite_self, Ordering.eq_then]

end NextBSD.Zsh
