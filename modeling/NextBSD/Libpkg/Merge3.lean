import NextBSD.Libpkg.DiffScript

/-!
# merge3.c: the three-way merge

The changes from the pivot to two texts are applied together.  Pointers into the three texts are
what is left of them, and the arrays of triples are what is left of them from `i1` and `i2` on.
-/

namespace NextBSD.Libpkg

def sameLines : List UInt8 → List UInt8 → Nat → Bool
  | _, _, 0 => true
  | [], [], _ + 1 => true
  | c :: pV1, d :: pV2, n + 1 =>
    c == d && sameLines pV1 pV2 (if c = newline then n else n + 1)
  | _, _, _ + 1 => false

def sameEdit (aC1 aC2 : Edit) (pV1 pV2 : List UInt8) : Bool :=
  aC1.copy == aC2.copy && aC1.del == aC2.del && aC1.ins == aC2.ins && sameLines pV1 pV2 aC1.ins

/-- `buf_copy_lines`: the bytes of `n` lines and what comes after them. -/
def bufCopyLines : List UInt8 → Nat → List UInt8 × List UInt8
  | src, 0 => ([], src)
  | [], _ + 1 => ([], [])
  | c :: src, n + 1 =>
    let r := bufCopyLines src (if c = newline then n else n + 1)
    (c :: r.1, r.2)

/-- The variables of the loop of `buf_merge`. -/
structure MergeState where
  aC1 : List Edit
  aC2 : List Edit
  pPivot : List UInt8
  pV1 : List UInt8
  pV2 : List UInt8
  pOut : List UInt8
  deriving DecidableEq, Repr

def skipDone : List Edit → List Edit
  | [] => []
  | t :: aC => if t = Edit.zero then aC else t :: aC

theorem skipDone_zero (aC : List Edit) : skipDone (Edit.zero :: aC) = aC := by
  simp [skipDone]

theorem skipDone_of_ne {t : Edit} (h : t ≠ Edit.zero) (aC : List Edit) :
    skipDone (t :: aC) = t :: aC := by
  simp [skipDone, h]

def MergeState.advance (s : MergeState) : MergeState :=
  { s with aC1 := skipDone s.aC1, aC2 := skipDone s.aC2 }

inductive MergeTurn where
  | finished
  | conflict
  | next (s : MergeState)

/-- The body of the loop, for the triples `t1` and `t2` that come next. -/
def mergeStep (s : MergeState) (t1 : Edit) (aC1 : List Edit) (t2 : Edit) (aC2 : List Edit) :
    MergeTurn :=
  if t1.copy > 0 ∧ t2.copy > 0 then
    -- text that is unchanged in both
    let nCpy := min t1.copy t2.copy
    .next (MergeState.advance
      { aC1 := { t1 with copy := t1.copy - nCpy } :: aC1
        aC2 := { t2 with copy := t2.copy - nCpy } :: aC2
        pPivot := (bufCopyLines s.pPivot nCpy).2
        pV1 := (bufCopyLines s.pV1 nCpy).2
        pV2 := (bufCopyLines s.pV2 nCpy).2
        pOut := s.pOut ++ (bufCopyLines s.pPivot nCpy).1 })
  else if t1.copy ≥ t2.del ∧ t1.copy > 0 ∧ t2.del + t2.ins > 0 then
    -- an edit to V2 where V1 is unchanged
    .next (MergeState.advance
      { aC1 := { t1 with copy := t1.copy - t2.del } :: aC1
        aC2 := aC2
        pPivot := (bufCopyLines s.pPivot t2.del).2
        pV1 := (bufCopyLines s.pV1 t2.del).2
        pV2 := (bufCopyLines s.pV2 t2.ins).2
        pOut := s.pOut ++ (bufCopyLines s.pV2 t2.ins).1 })
  else if t2.copy ≥ t1.del ∧ t2.copy > 0 ∧ t1.del + t1.ins > 0 then
    -- an edit to V1 where V2 is unchanged
    .next (MergeState.advance
      { aC1 := aC1
        aC2 := { t2 with copy := t2.copy - t1.del } :: aC2
        pPivot := (bufCopyLines s.pPivot t1.del).2
        pV1 := (bufCopyLines s.pV1 t1.ins).2
        pV2 := (bufCopyLines s.pV2 t1.del).2
        pOut := s.pOut ++ (bufCopyLines s.pV1 t1.ins).1 })
  else if sameEdit t1 t2 s.pV1 s.pV2 then
    -- the same edit in both
    .next (MergeState.advance
      { aC1 := aC1
        aC2 := aC2
        pPivot := (bufCopyLines s.pPivot t1.del).2
        pV1 := (bufCopyLines s.pV1 t1.ins).2
        pV2 := (bufCopyLines s.pV2 t1.ins).2
        pOut := s.pOut ++ (bufCopyLines s.pV1 t1.ins).1 })
  else .conflict

def mergeTurn (s : MergeState) : MergeTurn :=
  match s.aC1, s.aC2 with
  | t1 :: aC1, t2 :: aC2 => mergeStep s t1 aC1 t2 aC2
  | _, _ => .finished

def weight (aC : List Edit) : Nat := (aC.map (fun t => t.copy + 1)).sum

theorem weight_cons (t : Edit) (aC : List Edit) : weight (t :: aC) = t.copy + 1 + weight aC := by
  unfold weight
  rw [List.map_cons, List.sum_cons]

theorem weight_skipDone_le (aC : List Edit) : weight (skipDone aC) ≤ weight aC := by
  cases aC with
  | nil => exact Nat.le_refl _
  | cons t aC =>
    by_cases h : t = Edit.zero
    · rw [h, skipDone_zero, weight_cons]
      omega
    · rw [skipDone_of_ne h]

theorem mergeStep_weight_lt {s s' : MergeState} {t1 t2 : Edit} {aC1 aC2 : List Edit}
    (h : mergeStep s t1 aC1 t2 aC2 = .next s') :
    weight s'.aC1 + weight s'.aC2 < weight (t1 :: aC1) + weight (t2 :: aC2) := by
  have hadvance (u : MergeState) :
      weight u.advance.aC1 + weight u.advance.aC2 ≤ weight u.aC1 + weight u.aC2 := by
    have h1 := weight_skipDone_le u.aC1
    have h2 := weight_skipDone_le u.aC2
    show weight (skipDone u.aC1) + weight (skipDone u.aC2) ≤ _
    omega
  unfold mergeStep at h
  simp only [weight_cons]
  split at h
  · cases h
    refine Nat.lt_of_le_of_lt (hadvance _) ?_
    simp only [weight_cons]
    omega
  · split at h
    · cases h
      refine Nat.lt_of_le_of_lt (hadvance _) ?_
      simp only [weight_cons]
      omega
    · split at h
      · cases h
        refine Nat.lt_of_le_of_lt (hadvance _) ?_
        simp only [weight_cons]
        omega
      · split at h
        · cases h
          refine Nat.lt_of_le_of_lt (hadvance _) ?_
          show weight aC1 + weight aC2 < _
          omega
        · cases h

theorem mergeTurn_weight_lt {s s' : MergeState} (h : mergeTurn s = .next s') :
    weight s'.aC1 + weight s'.aC2 < weight s.aC1 + weight s.aC2 := by
  unfold mergeTurn at h
  cases h1 : s.aC1 with
  | nil =>
    rw [h1] at h
    cases h
  | cons t1 aC1 =>
    cases h2 : s.aC2 with
    | nil =>
      rw [h1, h2] at h
      cases h
    | cons t2 aC2 =>
      rw [h1, h2] at h
      exact mergeStep_weight_lt h

def remainingInsert : List Edit → Nat
  | [] => 0
  | t :: _ => t.ins

def finishMerge (s : MergeState) : List UInt8 :=
  if remainingInsert s.aC1 > 0 then
    s.pOut ++ (bufCopyLines s.pV1 (remainingInsert s.aC1)).1
  else if remainingInsert s.aC2 > 0 then
    s.pOut ++ (bufCopyLines s.pV2 (remainingInsert s.aC2)).1
  else s.pOut

theorem finishMerge_insert {s : MergeState} {t : Edit} {aC : List Edit} (h : s.aC1 = t :: aC)
    (hpos : 0 < t.ins) : finishMerge s = s.pOut ++ (bufCopyLines s.pV1 t.ins).1 := by
  unfold finishMerge
  rw [h]
  exact if_pos hpos

def mergeLoop (s : MergeState) : Int × List UInt8 :=
  match _h : mergeTurn s with
  | .finished => (0, finishMerge s)
  | .conflict => (-1, s.pOut)
  | .next s' => mergeLoop s'
termination_by weight s.aC1 + weight s.aC2
decreasing_by exact mergeTurn_weight_lt _h

def upToLimit (aC : List Edit) : List Edit := aC.takeWhile (· ≠ Edit.zero)

def bufMerge (pPivot pV1 pV2 : List UInt8) : Int × List UInt8 :=
  match textDiff pPivot pV1, textDiff pPivot pV2 with
  | some aC1, some aC2 =>
    mergeLoop { aC1 := upToLimit aC1, aC2 := upToLimit aC2, pPivot := pPivot, pV1 := pV1,
                pV2 := pV2, pOut := [] }
  | _, _ => (-1, [])

def merge3way (pPivot pV1 pV2 : List UInt8) : Int × List UInt8 := bufMerge pPivot pV1 pV2

theorem mergeLoop_next {s s' : MergeState} (h : mergeTurn s = .next s') :
    mergeLoop s = mergeLoop s' := by
  rw [mergeLoop]
  split <;> simp_all

theorem mergeLoop_conflict {s : MergeState} (h : mergeTurn s = .conflict) :
    mergeLoop s = (-1, s.pOut) := by
  rw [mergeLoop]
  split <;> simp_all

theorem mergeLoop_finished {s : MergeState} (h : mergeTurn s = .finished) :
    mergeLoop s = (0, finishMerge s) := by
  rw [mergeLoop]
  split <;> simp_all

/-! ## The two sides change places -/

theorem sameLines_comm (z w : List UInt8) (n : Nat) : sameLines z w n = sameLines w z n := by
  induction z generalizing w n with
  | nil =>
    cases n with
    | zero => cases w <;> rfl
    | succ n => cases w <;> rfl
  | cons c z ih =>
    cases n with
    | zero => cases w <;> rfl
    | succ n =>
      cases w with
      | nil => rfl
      | cons d w =>
        unfold sameLines
        by_cases hcd : c = d
        · rw [hcd, ih]
        · have hdc : d ≠ c := fun h => hcd h.symm
          rw [beq_eq_false_iff_ne.mpr hcd, beq_eq_false_iff_ne.mpr hdc]
          rfl

theorem bufCopyLines_of_sameLines {z w : List UInt8} {n : Nat} (h : sameLines z w n = true) :
    (bufCopyLines z n).1 = (bufCopyLines w n).1 := by
  induction z generalizing w n with
  | nil =>
    cases n with
    | zero => cases w <;> rfl
    | succ n =>
      cases w with
      | nil => rfl
      | cons d w => cases h
  | cons c z ih =>
    cases n with
    | zero => cases w <;> rfl
    | succ n =>
      cases w with
      | nil => cases h
      | cons d w =>
        unfold sameLines at h
        rw [Bool.and_eq_true, beq_iff_eq] at h
        obtain ⟨rfl, hrest⟩ := h
        show c :: _ = c :: _
        rw [ih hrest]

theorem sameEdit_comm (t1 t2 : Edit) (z w : List UInt8) :
    sameEdit t1 t2 z w = sameEdit t2 t1 w z := by
  unfold sameEdit
  by_cases h : t1.ins = t2.ins
  · rw [h, sameLines_comm z w, Bool.beq_comm (a := t1.copy), Bool.beq_comm (a := t1.del)]
  · have h' : t2.ins ≠ t1.ins := fun he => h he.symm
    rw [beq_eq_false_iff_ne.mpr h, beq_eq_false_iff_ne.mpr h']
    simp

def MergeState.swap (s : MergeState) : MergeState :=
  { s with aC1 := s.aC2, aC2 := s.aC1, pV1 := s.pV2, pV2 := s.pV1 }

def MergeTurn.swap : MergeTurn → MergeTurn
  | finished => finished
  | conflict => conflict
  | next s => next s.swap

theorem mergeStep_swap (s : MergeState) (t1 t2 : Edit) (aC1 aC2 : List Edit) :
    mergeStep s.swap t2 aC2 t1 aC1 = (mergeStep s t1 aC1 t2 aC2).swap := by
  unfold mergeStep
  by_cases hcopy : t1.copy > 0 ∧ t2.copy > 0
  · rw [if_pos hcopy, if_pos hcopy.symm, Nat.min_comm]
    rfl
  · rw [if_neg hcopy, if_neg (fun h => hcopy h.symm)]
    by_cases hedit2 : t1.copy ≥ t2.del ∧ t1.copy > 0 ∧ t2.del + t2.ins > 0
    · rw [if_pos hedit2, if_neg (fun h => hcopy ⟨hedit2.2.1, h.2.1⟩), if_pos hedit2]
      rfl
    · by_cases hedit1 : t2.copy ≥ t1.del ∧ t2.copy > 0 ∧ t1.del + t1.ins > 0
      · simp only [if_neg hedit2, if_pos hedit1]
        rfl
      · simp only [if_neg hedit2, if_neg hedit1]
        show (if sameEdit t2 t1 s.pV2 s.pV1 then _ else _) = _
        rw [sameEdit_comm]
        by_cases hsame : sameEdit t1 t2 s.pV1 s.pV2 = true
        · rw [if_pos hsame, if_pos hsame]
          have hall := hsame
          unfold sameEdit at hall
          simp only [Bool.and_eq_true, beq_iff_eq] at hall
          obtain ⟨⟨⟨-, hdel⟩, hins⟩, hlines⟩ := hall
          have hcopied := bufCopyLines_of_sameLines hlines
          show MergeTurn.next (MergeState.advance
            { aC1 := aC2, aC2 := aC1, pPivot := (bufCopyLines s.pPivot t2.del).2
              pV1 := (bufCopyLines s.pV2 t2.ins).2, pV2 := (bufCopyLines s.pV1 t2.ins).2
              pOut := s.pOut ++ (bufCopyLines s.pV2 t2.ins).1 }) = _
          rw [← hdel, ← hins, ← hcopied]
          rfl
        · rw [if_neg hsame, if_neg hsame]
          rfl

theorem mergeTurn_swap (s : MergeState) : mergeTurn s.swap = (mergeTurn s).swap := by
  unfold mergeTurn
  show (match s.aC2, s.aC1 with
    | t1 :: aC1, t2 :: aC2 => mergeStep s.swap t1 aC1 t2 aC2
    | _, _ => .finished) = _
  cases h1 : s.aC1 with
  | nil => cases s.aC2 <;> rfl
  | cons t1 aC1 =>
    cases h2 : s.aC2 with
    | nil => rfl
    | cons t2 aC2 => exact mergeStep_swap s t1 t2 aC1 aC2

theorem mergeTurn_finished {s : MergeState} (h : mergeTurn s = .finished) :
    s.aC1 = [] ∨ s.aC2 = [] := by
  unfold mergeTurn at h
  cases h1 : s.aC1 with
  | nil => exact Or.inl rfl
  | cons t1 aC1 =>
    cases h2 : s.aC2 with
    | nil => exact Or.inr rfl
    | cons t2 aC2 =>
      rw [h1, h2] at h
      simp only [mergeStep] at h
      split at h
      · cases h
      · split at h
        · cases h
        · split at h
          · cases h
          · split at h <;> cases h

theorem finishMerge_swap {s : MergeState} (h : s.aC1 = [] ∨ s.aC2 = []) :
    finishMerge s.swap = finishMerge s := by
  have hzero : remainingInsert s.aC1 = 0 ∨ remainingInsert s.aC2 = 0 := by
    obtain h | h := h
    · left
      rw [h]
      rfl
    · right
      rw [h]
      rfl
  unfold finishMerge
  show (if remainingInsert s.aC2 > 0 then s.pOut ++ (bufCopyLines s.pV2 (remainingInsert s.aC2)).1
    else if remainingInsert s.aC1 > 0 then
      s.pOut ++ (bufCopyLines s.pV1 (remainingInsert s.aC1)).1 else s.pOut) = _
  by_cases h1 : remainingInsert s.aC1 > 0
  · have h2 : ¬ remainingInsert s.aC2 > 0 := by omega
    simp only [if_pos h1, if_neg h2]
  · by_cases h2 : remainingInsert s.aC2 > 0
    · simp only [if_neg h1, if_pos h2]
    · simp only [if_neg h1, if_neg h2]

theorem mergeLoop_swap (s : MergeState) : mergeLoop s.swap = mergeLoop s := by
  induction s using mergeLoop.induct with
  | case1 s h =>
    have hswap := mergeTurn_swap s
    rw [h] at hswap
    rw [mergeLoop_finished h, mergeLoop_finished hswap, finishMerge_swap (mergeTurn_finished h)]
  | case2 s h =>
    have hswap := mergeTurn_swap s
    rw [h] at hswap
    rw [mergeLoop_conflict h, mergeLoop_conflict hswap]
    rfl
  | case3 s s' h ih =>
    have hswap := mergeTurn_swap s
    rw [h] at hswap
    rw [mergeLoop_next h, mergeLoop_next hswap]
    exact ih

theorem merge3way_comm (pPivot pV1 pV2 : List UInt8) :
    merge3way pPivot pV1 pV2 = merge3way pPivot pV2 pV1 := by
  unfold merge3way bufMerge
  cases textDiff pPivot pV1 with
  | none => cases textDiff pPivot pV2 <;> rfl
  | some aC1 =>
    cases textDiff pPivot pV2 with
    | none => rfl
    | some aC2 => exact (mergeLoop_swap _).symm

/-! ## Texts made of lines -/

theorem bufCopyLines_line {l : List UInt8} (hl : IsLine l) (z : List UInt8) (n : Nat) :
    bufCopyLines (l ++ newline :: z) (n + 1) =
      (l ++ newline :: (bufCopyLines z n).1, (bufCopyLines z n).2) := by
  induction l with
  | nil => rfl
  | cons c l ih =>
    have hc : c ≠ newline := (hl c List.mem_cons_self).2
    show ((c :: (bufCopyLines (l ++ newline :: z) (if c = newline then n else n + 1)).1),
      (bufCopyLines (l ++ newline :: z) (if c = newline then n else n + 1)).2) = _
    rw [if_neg hc, ih (fun d hd => hl d (List.mem_cons_of_mem c hd))]
    rfl

theorem bufCopyLines_joinLines {c : List (List UInt8)} (hc : ∀ l ∈ c, IsLine l)
    (rest : List (List UInt8)) :
    bufCopyLines (joinLines (c ++ rest)) c.length = (joinLines c, joinLines rest) := by
  induction c with
  | nil => cases hz : joinLines rest <;> simp [bufCopyLines, hz]
  | cons l c ih =>
    show bufCopyLines (joinLines (l :: (c ++ rest))) (c.length + 1) = _
    rw [joinLines_cons, bufCopyLines_line (hc l List.mem_cons_self),
      ih (fun m hm => hc m (List.mem_cons_of_mem l hm)), joinLines_cons]

theorem sameLines_self (z : List UInt8) (n : Nat) : sameLines z z n = true := by
  induction z generalizing n with
  | nil => cases n <;> rfl
  | cons c z ih =>
    cases n with
    | zero => rfl
    | succ n =>
      unfold sameLines
      rw [ih, beq_self_eq_true]
      rfl

theorem skipDone_eq {aC : List Edit} (h : ∀ t ∈ aC, t ≠ Edit.zero) : skipDone aC = aC := by
  cases aC with
  | nil => rfl
  | cons t aC => exact skipDone_of_ne (h t List.mem_cons_self) aC

theorem edit_ne_zero {d i : List (List UInt8)} (h : d ≠ [] ∨ i ≠ []) :
    ({ copy := 0, del := d.length, ins := i.length } : Edit) ≠ Edit.zero := by
  apply Edit.ne_zero_iff.mpr
  right
  obtain h | h := h
  · exact Or.inl (List.length_pos_of_ne_nil h)
  · exact Or.inr (List.length_pos_of_ne_nil h)

section Turns

variable {c d i p w1 w2 : List (List UInt8)} {t2 : Edit} {m : Nat} {aC1 aC2 : List Edit}
  {out : List UInt8}

theorem mergeTurn_copy (hc : ∀ l ∈ c, IsLine l) (hne : c ≠ []) (del ins : Nat)
    (h2 : t2.copy = c.length + m) :
    mergeTurn { aC1 := { copy := c.length, del := del, ins := ins } :: aC1, aC2 := t2 :: aC2
                pPivot := joinLines (c ++ p), pV1 := joinLines (c ++ w1)
                pV2 := joinLines (c ++ w2), pOut := out } =
      .next (MergeState.advance
        { aC1 := { copy := 0, del := del, ins := ins } :: aC1, aC2 := { t2 with copy := m } :: aC2
          pPivot := joinLines p, pV1 := joinLines w1, pV2 := joinLines w2
          pOut := out ++ joinLines c }) := by
  have hpos : 0 < c.length := List.length_pos_of_ne_nil hne
  have hmin : min c.length t2.copy = c.length := by omega
  have hm : t2.copy - c.length = m := by omega
  simp only [mergeTurn, mergeStep]
  rw [if_pos ⟨hpos, by omega⟩, hmin, hm, Nat.sub_self, bufCopyLines_joinLines hc,
    bufCopyLines_joinLines hc, bufCopyLines_joinLines hc]

theorem mergeTurn_edit (hd : ∀ l ∈ d, IsLine l) (hi : ∀ l ∈ i, IsLine l)
    (hne : d ≠ [] ∨ i ≠ []) (h2 : t2.copy = d.length + m) (hpos : 0 < t2.copy) :
    mergeTurn { aC1 := { copy := 0, del := d.length, ins := i.length } :: aC1, aC2 := t2 :: aC2
                pPivot := joinLines (d ++ p), pV1 := joinLines (i ++ w1)
                pV2 := joinLines (d ++ w2), pOut := out } =
      .next (MergeState.advance
        { aC1 := aC1, aC2 := { t2 with copy := m } :: aC2
          pPivot := joinLines p, pV1 := joinLines w1, pV2 := joinLines w2
          pOut := out ++ joinLines i }) := by
  have hdi : 0 < d.length ∨ 0 < i.length := by
    obtain h | h := hne
    · exact Or.inl (List.length_pos_of_ne_nil h)
    · exact Or.inr (List.length_pos_of_ne_nil h)
  have hm : t2.copy - d.length = m := by omega
  simp only [mergeTurn, mergeStep]
  rw [if_neg (by omega), if_neg (by omega), if_pos ⟨by omega, hpos, by omega⟩, hm,
    bufCopyLines_joinLines hd, bufCopyLines_joinLines hi, bufCopyLines_joinLines hd]

theorem mergeTurn_same (hd : ∀ l ∈ d, IsLine l) (hi : ∀ l ∈ i, IsLine l) :
    mergeTurn { aC1 := { copy := 0, del := d.length, ins := i.length } :: aC1
                aC2 := { copy := 0, del := d.length, ins := i.length } :: aC2
                pPivot := joinLines (d ++ p), pV1 := joinLines (i ++ w1)
                pV2 := joinLines (i ++ w1), pOut := out } =
      .next (MergeState.advance
        { aC1 := aC1, aC2 := aC2, pPivot := joinLines p, pV1 := joinLines w1
          pV2 := joinLines w1, pOut := out ++ joinLines i }) := by
  simp only [mergeTurn, mergeStep]
  have hsame : sameEdit { copy := 0, del := d.length, ins := i.length }
      { copy := 0, del := d.length, ins := i.length } (joinLines (i ++ w1))
      (joinLines (i ++ w1)) = true := by
    unfold sameEdit
    simp [sameLines_self]
  rw [if_neg (by omega), if_neg (by omega), if_neg (by omega), if_pos hsame,
    bufCopyLines_joinLines hd, bufCopyLines_joinLines hi]

end Turns

theorem mergeLoop_same {s : List Edit} {a b : List (List UInt8)} (h : Edit.Converts s a b)
    (hs : ∀ t ∈ s, t ≠ Edit.zero) (ha : ∀ l ∈ a, IsLine l) (hb : ∀ l ∈ b, IsLine l)
    (out : List UInt8) :
    mergeLoop { aC1 := s, aC2 := s, pPivot := joinLines a, pV1 := joinLines b
                pV2 := joinLines b, pOut := out } = (0, out ++ joinLines b) := by
  induction h generalizing out with
  | nil =>
    rw [mergeLoop_finished rfl, joinLines_nil, List.append_nil]
    rfl
  | @cons c d i s a b _ ih =>
    have hc : ∀ l ∈ c, IsLine l := fun l hl => ha l (List.mem_append_left _ hl)
    have hda : ∀ l ∈ d ++ a, IsLine l := fun l hl => ha l (List.mem_append_right c hl)
    have hib : ∀ l ∈ i ++ b, IsLine l := fun l hl => hb l (List.mem_append_right c hl)
    have hrest : ∀ t ∈ s, t ≠ Edit.zero := fun t ht => hs t (List.mem_cons_of_mem _ ht)
    have hih := ih hrest (fun l hl => hda l (List.mem_append_right d hl))
      (fun l hl => hib l (List.mem_append_right i hl))
    have hedit (out : List UInt8) :
        mergeLoop { aC1 := { copy := 0, del := d.length, ins := i.length } :: s
                    aC2 := { copy := 0, del := d.length, ins := i.length } :: s
                    pPivot := joinLines (d ++ a), pV1 := joinLines (i ++ b)
                    pV2 := joinLines (i ++ b), pOut := out } = (0, out ++ joinLines (i ++ b)) := by
      have hd : ∀ l ∈ d, IsLine l := fun l hl => hda l (List.mem_append_left a hl)
      have hi : ∀ l ∈ i, IsLine l := fun l hl => hib l (List.mem_append_left b hl)
      rw [mergeLoop_next (mergeTurn_same hd hi)]
      simp only [MergeState.advance, skipDone_eq hrest]
      rw [hih, joinLines_append, List.append_assoc]
    by_cases hempty : c = []
    · subst hempty
      exact hedit out
    · rw [mergeLoop_next (mergeTurn_copy hc hempty _ _ (m := 0) rfl)]
      simp only [MergeState.advance]
      rw [joinLines_append c, ← List.append_assoc]
      by_cases hdi : d ≠ [] ∨ i ≠ []
      · rw [skipDone_of_ne (edit_ne_zero hdi)]
        exact hedit _
      · obtain ⟨rfl, rfl⟩ : d = [] ∧ i = [] := by
          rwa [not_or, not_not, not_not] at hdi
        have hzero : Edit.mk 0 ([] : List (List UInt8)).length ([] : List (List UInt8)).length =
            Edit.zero := rfl
        rw [hzero, skipDone_zero]
        exact hih _

def copyAll (n : Nat) : List Edit :=
  if n = 0 then [] else [{ copy := n, del := 0, ins := 0 }]

theorem skipDone_copy (n : Nat) : skipDone [{ copy := n, del := 0, ins := 0 }] = copyAll n := by
  unfold copyAll
  by_cases h : n = 0
  · rw [if_pos h, h]
    exact skipDone_zero []
  · rw [if_neg h, skipDone_of_ne (Edit.ne_zero_iff.mpr (Or.inl (Nat.pos_of_ne_zero h)))]

theorem mergeLoop_left {s : List Edit} {a b : List (List UInt8)} (h : Edit.Converts s a b)
    (hs : Edit.Neat s) (ha : ∀ l ∈ a, IsLine l) (hb : ∀ l ∈ b, IsLine l) (out : List UInt8) :
    mergeLoop { aC1 := s, aC2 := copyAll a.length, pPivot := joinLines a, pV1 := joinLines b
                pV2 := joinLines a, pOut := out } = (0, out ++ joinLines b) := by
  induction h generalizing out with
  | nil =>
    rw [mergeLoop_finished rfl, joinLines_nil, List.append_nil]
    rfl
  | @cons c d i s a b rest ih =>
    have hc : ∀ l ∈ c, IsLine l := fun l hl => ha l (List.mem_append_left _ hl)
    have hda : ∀ l ∈ d ++ a, IsLine l := fun l hl => ha l (List.mem_append_right c hl)
    have hib : ∀ l ∈ i ++ b, IsLine l := fun l hl => hb l (List.mem_append_right c hl)
    have hd : ∀ l ∈ d, IsLine l := fun l hl => hda l (List.mem_append_left a hl)
    have hi : ∀ l ∈ i, IsLine l := fun l hl => hib l (List.mem_append_left b hl)
    have hih := ih hs.tail (fun l hl => hda l (List.mem_append_right d hl))
      (fun l hl => hib l (List.mem_append_right i hl))
    have hedit (hdi : d ≠ [] ∨ i ≠ []) (out : List UInt8) :
        mergeLoop { aC1 := { copy := 0, del := d.length, ins := i.length } :: s
                    aC2 := copyAll (d ++ a).length
                    pPivot := joinLines (d ++ a), pV1 := joinLines (i ++ b)
                    pV2 := joinLines (d ++ a), pOut := out } =
          (0, out ++ joinLines (i ++ b)) := by
      by_cases hpivot : d ++ a = []
      · -- the pivot is used up, and one insertion is left
        obtain ⟨rfl, rfl⟩ := List.append_eq_nil_iff.mp hpivot
        have hneat := hs.head (edit_ne_zero hdi)
        have hscript : Edit.Converts _ [] (i ++ b) := Edit.Converts.cons [] [] i rest
        obtain ⟨h, -⟩ | h := hneat.of_nil hscript
        · cases h
        · obtain ⟨hhead, hnil⟩ := List.cons.inj h
          have hlen : i.length = (i ++ b).length := congrArg Edit.ins hhead
          have hb : b = [] := by
            rw [List.length_append] at hlen
            exact List.eq_nil_of_length_eq_zero (by omega)
          have hpos : 0 < i.length := by
            obtain h | h := hdi
            · exact absurd rfl h
            · exact List.length_pos_of_ne_nil h
          rw [mergeLoop_finished rfl, finishMerge_insert rfl hpos, bufCopyLines_joinLines hi, hb,
            List.append_nil i]
      · have hpos : 0 < (d ++ a).length := List.length_pos_of_ne_nil hpivot
        have hcopy : copyAll (d ++ a).length =
            [{ copy := (d ++ a).length, del := 0, ins := 0 }] := if_neg (by omega)
        rw [hcopy, mergeLoop_next (mergeTurn_edit hd hi hdi List.length_append hpos)]
        simp only [MergeState.advance]
        rw [skipDone_eq hs.tail.ne_zero, skipDone_copy, hih, joinLines_append i,
          List.append_assoc]
    by_cases hempty : c = []
    · subst hempty
      refine hedit ?_ out
      by_contra hdi
      obtain ⟨rfl, rfl⟩ : d = [] ∧ i = [] := by
        rwa [not_or, not_not, not_not] at hdi
      exact hs.ne_zero _ List.mem_cons_self rfl
    · have hpos : 0 < c.length := List.length_pos_of_ne_nil hempty
      have hlen : (c ++ (d ++ a)).length = c.length + (d ++ a).length := List.length_append
      have hcopy : copyAll (c ++ (d ++ a)).length =
          [{ copy := (c ++ (d ++ a)).length, del := 0, ins := 0 }] := if_neg (by omega)
      rw [hcopy, mergeLoop_next (mergeTurn_copy hc hempty _ _ hlen)]
      simp only [MergeState.advance]
      rw [skipDone_copy, joinLines_append c, ← List.append_assoc]
      by_cases hdi : d ≠ [] ∨ i ≠ []
      · rw [skipDone_of_ne (edit_ne_zero hdi)]
        exact hedit hdi _
      · obtain ⟨rfl, rfl⟩ : d = [] ∧ i = [] := by
          rwa [not_or, not_not, not_not] at hdi
        have hzero : Edit.mk 0 ([] : List (List UInt8)).length ([] : List (List UInt8)).length =
            Edit.zero := rfl
        rw [hzero, skipDone_zero]
        exact hih _

/-- A text that `text_diff` takes: it has no `NUL`, is empty or ends in a newline, and its lines
are within the limit. -/
structure MergeText (z : List UInt8) : Prop where
  noNul : ∀ c ∈ z, c ≠ 0
  ends : z = [] ∨ z.getLast? = some newline
  fits : (breakIntoLines z).isSome = true

theorem textDiff_isSome {z w : List UInt8} (hz : MergeText z) (hw : MergeText w) :
    ∃ s, textDiff z w = some s := by
  obtain ⟨f, hf⟩ := Option.isSome_iff_exists.mp hz.fits
  obtain ⟨g, hg⟩ := Option.isSome_iff_exists.mp hw.fits
  unfold textDiff
  rw [hf, hg]
  exact ⟨_, rfl⟩

theorem upToLimit_append {t : List Edit} (h : ∀ e ∈ t, e ≠ Edit.zero) :
    upToLimit (t ++ [Edit.zero]) = t := by
  unfold upToLimit
  rw [List.takeWhile_append_of_pos (fun e he => by simpa using h e he)]
  simp

/-- Merging with the pivot itself gives the other text, merging a text with itself gives that
text, and the two texts may change places. -/
theorem merge3way_identities {p v : List UInt8} (hp : MergeText p) (hv : MergeText v)
    (v1 v2 : List UInt8) :
    merge3way p v p = (0, v) ∧ merge3way p p v = (0, v) ∧ merge3way p v v = (0, v) ∧
      ((merge3way p v1 v2).1 = 0 ↔ (merge3way p v2 v1).1 = 0) ∧
      (merge3way p v1 v2).2 = (merge3way p v2 v1).2 := by
  obtain ⟨ps, hps, rfl⟩ := exists_lines hp.noNul hp.ends
  obtain ⟨vs, hvs, rfl⟩ := exists_lines hv.noNul hv.ends
  obtain ⟨s, hs⟩ := textDiff_isSome hp hv
  obtain ⟨s', hs'⟩ := textDiff_isSome hp hp
  obtain ⟨t, rfl, hconverts, hneat⟩ := textDiff_script hps hvs hs
  have hself : upToLimit s' = copyAll ps.length := by
    rw [textDiff_self hps hs']
    unfold copyAll
    by_cases hnil : ps = []
    · rw [if_pos hnil, hnil]
      rfl
    · have hpos : 0 < ps.length := List.length_pos_of_ne_nil hnil
      rw [if_neg hnil, if_neg (by omega)]
      apply upToLimit_append
      intro e he
      obtain rfl := List.mem_singleton.mp he
      exact Edit.ne_zero_iff.mpr (Or.inl hpos)
  have hleft : merge3way (joinLines ps) (joinLines vs) (joinLines ps) = (0, joinLines vs) := by
    unfold merge3way bufMerge
    rw [hs, hs']
    simp only [upToLimit_append hneat.ne_zero, hself]
    exact mergeLoop_left hconverts hneat hps hvs []
  have hboth : merge3way (joinLines ps) (joinLines vs) (joinLines vs) = (0, joinLines vs) := by
    unfold merge3way bufMerge
    rw [hs]
    simp only [upToLimit_append hneat.ne_zero]
    exact mergeLoop_same hconverts hneat.ne_zero hps hvs []
  refine ⟨hleft, ?_, hboth, ?_, ?_⟩
  · rw [merge3way_comm]
    exact hleft
  · rw [merge3way_comm]
  · rw [merge3way_comm]

theorem merge3way_identities_ab :
    merge3way [97, 10] [97, 10, 98, 10] [97, 10] = (0, [97, 10, 98, 10]) := by
  have hp : MergeText [97, 10] := ⟨by simp, Or.inr rfl, by decide⟩
  have hv : MergeText [97, 10, 98, 10] := ⟨by simp, Or.inr rfl, by decide⟩
  exact (merge3way_identities hp hv [] []).1

end NextBSD.Libpkg
