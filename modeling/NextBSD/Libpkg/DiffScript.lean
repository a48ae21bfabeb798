import Mathlib.Data.Nat.Bitwise
import NextBSD.Libpkg.Diff
import NextBSD.Library.AsciiText

/-!
# The triples of text_diff are an edit script

The triples turn the lines of the one text into the lines of the other, whatever the hash table
finds.  The last line of a text may have no newline.
-/

namespace NextBSD.Libpkg

/-! ## Lines -/

def IsLine (l : List UInt8) : Prop := ∀ c ∈ l, c ≠ 0 ∧ c ≠ newline

def joinLines (ls : List (List UInt8)) : List UInt8 := ls.flatMap (· ++ [newline])

@[simp] theorem joinLines_nil : joinLines [] = [] := rfl

theorem joinLines_cons (l : List UInt8) (ls : List (List UInt8)) :
    joinLines (l :: ls) = l ++ newline :: joinLines ls := by
  unfold joinLines
  rw [List.flatMap_cons, List.append_assoc]
  rfl

theorem joinLines_append (ls ms : List (List UInt8)) :
    joinLines (ls ++ ms) = joinLines ls ++ joinLines ms := List.flatMap_append

def textLines (z : List UInt8) : List (List UInt8) := TextLines.splitLines newline z

theorem textLines_joinLines {ls : List (List UInt8)} (hls : ∀ l ∈ ls, IsLine l) :
    textLines (joinLines ls) = ls :=
  TextLines.splitLines_joinLines fun l hl hmem => (hls l hl newline hmem).2 rfl

theorem textLines_cons (c : UInt8) (z : List UInt8) :
    ∃ l lines, textLines (c :: z) = l :: lines := by
  unfold textLines TextLines.splitLines
  split_ifs
  · exact ⟨_, _, rfl⟩
  · split
    · exact ⟨_, _, rfl⟩
    · exact ⟨_, _, rfl⟩

theorem textLines_of_ne {c : UInt8} (hc : c ≠ newline) {z l : List UInt8}
    {lines : List (List UInt8)} (h : textLines z = l :: lines) :
    textLines (c :: z) = (c :: l) :: lines := by
  unfold textLines at h ⊢
  rw [TextLines.splitLines, if_neg hc, h]

theorem textLines_eq {z : List UInt8} (hz : z ≠ []) :
    textLines z = lineText z :: textLines (afterLine z) := by
  induction z with
  | nil => exact absurd rfl hz
  | cons c z ih =>
    by_cases hc : c = newline
    · subst hc
      rfl
    · have hline : lineText (c :: z) = c :: lineText z :=
        List.takeWhile_cons_of_pos (decide_eq_true hc)
      have hafter : afterLine (c :: z) = afterLine z :=
        congrArg (List.drop 1) (List.dropWhile_cons_of_pos (decide_eq_true hc))
      rw [hline, hafter]
      cases z with
      | nil =>
        unfold textLines TextLines.splitLines
        rw [if_neg hc]
        rfl
      | cons d z => exact textLines_of_ne hc (ih (List.cons_ne_nil d z))

theorem exists_lines {z : List UInt8} (hnul : ∀ c ∈ z, c ≠ 0)
    (hend : z = [] ∨ z.getLast? = some newline) :
    ∃ ls, (∀ l ∈ ls, IsLine l) ∧ z = joinLines ls := by
  induction z with
  | nil => exact ⟨[], fun l hl => by simp at hl, rfl⟩
  | cons c z ih =>
    have hz : z = [] ∨ z.getLast? = some newline := by
      cases z with
      | nil => exact Or.inl rfl
      | cons d z =>
        right
        obtain h | h := hend
        · cases h
        · rwa [List.getLast?_cons_cons] at h
    obtain ⟨ls, hls, rfl⟩ := ih (fun d hd => hnul d (List.mem_cons_of_mem c hd)) hz
    by_cases hc : c = newline
    · refine ⟨[] :: ls, ?_, ?_⟩
      · intro l hl
        obtain rfl | hl := List.mem_cons.mp hl
        · intro d hd
          cases hd
        · exact hls l hl
      · rw [joinLines_cons, hc]
        rfl
    · cases ls with
      | nil =>
        obtain h | h := hend
        · cases h
        · exact absurd (Option.some.inj h) hc
      | cons l ls =>
        refine ⟨(c :: l) :: ls, ?_, ?_⟩
        · intro m hm
          obtain rfl | hm := List.mem_cons.mp hm
          · intro d hd
            obtain rfl | hd := List.mem_cons.mp hd
            · exact ⟨hnul d List.mem_cons_self, hc⟩
            · exact hls l List.mem_cons_self d hd
          · exact hls m (List.mem_cons_of_mem l hm)
        · rw [joinLines_cons, joinLines_cons]
          rfl

/-- The first loop counts the lines of a text and bounds their lengths.  `j` counts what came
before in the line that is being read. -/
theorem countLines_spec {z : List UInt8} {j nLine n : Nat} (h : countLines z j nLine = some n)
    (hz : z ≠ []) :
    n + 1 = nLine + (textLines z).length ∧
      ∀ l lines, textLines z = l :: lines →
        j + l.length ≤ lengthMask ∧ ∀ m ∈ lines, m.length ≤ lengthMask := by
  induction z generalizing j nLine with
  | nil => exact absurd rfl hz
  | cons c z ih =>
    unfold countLines at h
    by_cases hnul : c = 0
    · rw [if_pos hnul] at h
      exact absurd h (Option.some_ne_none n).symm
    · rw [if_neg hnul] at h
      by_cases hnew : c = newline ∧ z ≠ []
      · rw [if_pos hnew] at h
        by_cases hlong : j > lengthMask
        · rw [if_pos hlong] at h
          exact absurd h (Option.some_ne_none n).symm
        · rw [if_neg hlong] at h
          obtain ⟨hcount, hbound⟩ := ih h hnew.2
          have hlines : textLines (c :: z) = [] :: textLines z := by
            rw [hnew.1]
            rfl
          rw [hlines, List.length_cons]
          refine ⟨by omega, fun l lines heq => ?_⟩
          obtain ⟨rfl, rfl⟩ := List.cons.inj heq
          refine ⟨by rw [List.length_nil]; omega, fun m hm => ?_⟩
          cases htext : textLines z with
          | nil => exact absurd (htext ▸ hm) List.not_mem_nil
          | cons l' lines' =>
            obtain ⟨hfirst, hrest⟩ := hbound l' lines' htext
            rw [htext] at hm
            rcases List.mem_cons.mp hm with rfl | hm
            · omega
            · exact hrest m hm
      · rw [if_neg hnew] at h
        cases z with
        | nil =>
          unfold countLines at h
          by_cases hlong : j + 1 > lengthMask
          · rw [if_pos hlong] at h
            exact absurd h (Option.some_ne_none n).symm
          · rw [if_neg hlong] at h
            have hone : (textLines [c]).length = 1 ∧
                ∀ l lines, textLines [c] = l :: lines → l.length ≤ 1 ∧ lines = [] := by
              unfold textLines TextLines.splitLines
              split_ifs
              · exact ⟨rfl, fun l lines heq =>
                  ⟨(List.cons.inj heq).1 ▸ Nat.zero_le 1, (List.cons.inj heq).2.symm⟩⟩
              · exact ⟨rfl, fun l lines heq =>
                  ⟨(List.cons.inj heq).1 ▸ Nat.le_refl 1, (List.cons.inj heq).2.symm⟩⟩
            have hn := Option.some.inj h
            refine ⟨by omega, fun l lines heq => ?_⟩
            obtain ⟨hl, rfl⟩ := hone.2 l lines heq
            exact ⟨by omega, fun m hm => absurd hm List.not_mem_nil⟩
        | cons d z =>
          have hc : c ≠ newline := fun hc => hnew ⟨hc, List.cons_ne_nil d z⟩
          obtain ⟨hcount, hbound⟩ := ih h (List.cons_ne_nil d z)
          obtain ⟨l', lines', htext⟩ := textLines_cons d z
          obtain ⟨hfirst, hrest⟩ := hbound l' lines' htext
          rw [htext] at hcount
          rw [textLines_of_ne hc htext]
          refine ⟨hcount, fun l lines heq => ?_⟩
          obtain ⟨rfl, rfl⟩ := List.cons.inj heq
          exact ⟨by rw [List.length_cons]; omega, hrest⟩

/-- The entries of `f` are those of the lines `ls`, each within the limit. -/
structure FileOf (f : DFile) (ls : List (List UInt8)) : Prop where
  texts : f.lines.map (fun d => lineText d.z) = ls
  made : ∀ d ∈ f.lines, d = mkLine d.z
  fits : ∀ l ∈ ls, l.length ≤ lengthMask

theorem lines_foldl_fillLine (n : Nat) (zs : List (List UInt8)) (f : DFile) :
    (zs.foldl (fillLine n) f).lines = f.lines ++ zs.map mkLine := by
  induction zs generalizing f with
  | nil => exact (List.append_nil _).symm
  | cons z zs ih =>
    rw [List.foldl_cons, ih]
    show (f.lines ++ [mkLine z]) ++ zs.map mkLine = _
    rw [List.append_assoc]
    rfl

theorem lineText_lineStarts (n : Nat) {z : List UInt8} (h : (textLines z).length = n) :
    (lineStarts n z).map lineText = textLines z := by
  induction n generalizing z with
  | zero => exact (List.eq_nil_of_length_eq_zero h).symm
  | succ n ih =>
    have hz : z ≠ [] := by
      rintro rfl
      exact absurd h (Nat.succ_ne_zero n).symm
    rw [textLines_eq hz, List.length_cons] at h
    rw [textLines_eq hz]
    show lineText z :: (lineStarts n (afterLine z)).map lineText = _
    rw [ih (Nat.succ.inj h)]

theorem breakIntoLines_fileOf {z : List UInt8} {f : DFile} (h : breakIntoLines z = some f) :
    FileOf f (textLines z) := by
  unfold breakIntoLines at h
  cases hcount : countLines z 0 1 with
  | none =>
    rw [hcount] at h
    exact absurd h (Option.some_ne_none f).symm
  | some n =>
    rw [hcount] at h
    dsimp only at h
    by_cases hz : z = []
    · subst hz
      rw [if_pos rfl] at h
      rw [← Option.some.inj h]
      exact ⟨rfl, fun d hd => absurd hd List.not_mem_nil, fun l hl => absurd hl List.not_mem_nil⟩
    · rw [if_neg hz] at h
      obtain ⟨hn, hbound⟩ := countLines_spec hcount hz
      have hlines : f.lines = (lineStarts n z).map mkLine := by
        rw [← Option.some.inj h, lines_foldl_fillLine]
        rfl
      refine ⟨?_, ?_, ?_⟩
      · rw [hlines, List.map_map]
        exact lineText_lineStarts n (by omega)
      · intro d hd
        rw [hlines] at hd
        obtain ⟨w, _, rfl⟩ := List.mem_map.mp hd
        rfl
      · intro l hl
        cases htext : textLines z with
        | nil => exact absurd (htext ▸ hl) List.not_mem_nil
        | cons l' lines =>
          obtain ⟨hfirst, hrest⟩ := hbound l' lines htext
          rw [htext] at hl
          rcases List.mem_cons.mp hl with rfl | hl
          · omega
          · exact hrest l hl

theorem mkLine_length {z : List UInt8} (hz : (lineText z).length ≤ lengthMask) :
    (mkLine z).h.toNat % (lengthMask + 1) = (lineText z).length := by
  have hlt : (lineText z).length < 2 ^ 13 := by
    have : lengthMask = 2 ^ 13 - 1 := rfl
    omega
  show ((hashBytes (lineText z) <<< 13) ||| UInt32.ofNat (lineText z).length).toNat % 2 ^ 13 = _
  rw [UInt32.toNat_or, Nat.or_mod_two_pow, UInt32.toNat_shiftLeft]
  have hhigh : (hashBytes (lineText z)).toNat <<< (UInt32.toNat 13 % 32) % 2 ^ 32 % 2 ^ 13 = 0 := by
    rw [show UInt32.toNat 13 % 32 = 13 from rfl, Nat.shiftLeft_eq]
    omega
  have hlow : (UInt32.ofNat (lineText z).length).toNat % 2 ^ 13 = (lineText z).length := by
    rw [UInt32.toNat_ofNat']
    omega
  rw [hhigh, hlow, Nat.zero_or]

theorem take_lineText (z : List UInt8) : z.take (lineText z).length = lineText z :=
  List.prefix_iff_eq_take.mp (List.takeWhile_prefix _) |>.symm

theorem sameDline_mkLine {z w : List UInt8} (hz : (lineText z).length ≤ lengthMask)
    (hw : (lineText w).length ≤ lengthMask) :
    sameDline (mkLine z) (mkLine w) = true ↔ lineText z = lineText w := by
  have hlen := mkLine_length hz
  unfold sameDline
  rw [hlen, Bool.and_eq_true, beq_iff_eq, beq_iff_eq]
  constructor
  · intro ⟨hhash, hbytes⟩
    have hlen' : (lineText z).length = (lineText w).length := by
      rw [← hlen, ← mkLine_length hw, hhash]
    have hbytes' : z.take (lineText z).length = w.take (lineText z).length := hbytes
    rw [take_lineText, hlen', take_lineText] at hbytes'
    exact hbytes'
  · intro h
    refine ⟨?_, ?_⟩
    · unfold mkLine
      rw [h]
    · show z.take (lineText z).length = w.take (lineText z).length
      rw [take_lineText, h, take_lineText]

namespace DContext

/-- The two files are those of the lines `ps` and `vs`. -/
structure Of (p : DContext) (ps vs : List (List UInt8)) : Prop where
  aFrom : FileOf p.aFrom ps
  aTo : FileOf p.aTo vs

variable {p : DContext} {ps vs : List (List UInt8)}

theorem Of.nFrom (h : p.Of ps vs) : p.nFrom = ps.length := by
  rw [← h.aFrom.texts, List.length_map]
  rfl

theorem Of.nTo (h : p.Of ps vs) : p.nTo = vs.length := by
  rw [← h.aTo.texts, List.length_map]
  rfl

theorem FileOf.entry {f : DFile} {ls : List (List UInt8)} (h : FileOf f ls) {i : Nat}
    (hi : i < ls.length) : ∃ z, f.lines.getD i default = mkLine z ∧ lineText z = ls[i] := by
  have hlen : i < f.lines.length := by
    rwa [← h.texts, List.length_map] at hi
  refine ⟨f.lines[i].z, ?_, ?_⟩
  · rw [List.getD_eq_getElem _ _ hlen]
    exact h.made _ (List.getElem_mem hlen)
  · simp only [← h.texts, List.getElem_map]

theorem Of.same_iff (h : p.Of ps vs) {i j : Nat} (hi : i < ps.length) (hj : j < vs.length) :
    p.same i j = true ↔ ps[i] = vs[j] := by
  obtain ⟨z, hz, hzi⟩ := FileOf.entry h.aFrom hi
  obtain ⟨w, hw, hwj⟩ := FileOf.entry h.aTo hj
  unfold same
  rw [hz, hw, ← hzi, ← hwj]
  apply sameDline_mkLine
  · rw [hzi]
    exact h.aFrom.fits _ (List.getElem_mem hi)
  · rw [hwj]
    exact h.aTo.fits _ (List.getElem_mem hj)

def Matches (p : DContext) (i j k : Nat) : Prop := ∀ x < k, p.same (i + x) (j + x) = true

theorem Of.take_eq (h : p.Of ps vs) {i j k : Nat} (hm : p.Matches i j k)
    (hi : i + k ≤ ps.length) (hj : j + k ≤ vs.length) :
    (ps.drop i).take k = (vs.drop j).take k := by
  apply List.ext_getElem
  · rw [List.length_take, List.length_take, List.length_drop, List.length_drop]
    omega
  · intro x hx _
    have hxk : x < k := by
      rw [List.length_take] at hx
      omega
    have hsame := (h.same_iff (by omega) (by omega)).mp (hm x hxk)
    rw [List.getElem_take, List.getElem_take, List.getElem_drop, List.getElem_drop]
    exact hsame

/-! ## The match that is found -/

theorem extendForward_le (n i j : Nat) : p.extendForward n i j ≤ n := by
  induction n generalizing i j with
  | zero => exact Nat.le_refl 0
  | succ n ih =>
    unfold extendForward
    by_cases h : p.same i j = true
    · rw [if_pos h]
      exact Nat.succ_le_succ (ih (i + 1) (j + 1))
    · rw [if_neg h]
      exact Nat.zero_le _

theorem extendForward_matches (n i j : Nat) : p.Matches i j (p.extendForward n i j) := by
  induction n generalizing i j with
  | zero => exact fun x hx => absurd hx (Nat.not_lt_zero x)
  | succ n ih =>
    unfold extendForward
    by_cases h : p.same i j = true
    · rw [if_pos h]
      intro x hx
      cases x with
      | zero => exact h
      | succ x =>
        have := ih (i + 1) (j + 1) x (by omega)
        rwa [Nat.add_assoc, Nat.add_assoc, Nat.add_comm 1 x] at this
    · rw [if_neg h]
      exact fun x hx => absurd hx (Nat.not_lt_zero x)

theorem extendBack_le (n i j : Nat) : p.extendBack n i j ≤ n := by
  induction n generalizing i j with
  | zero => exact Nat.le_refl 0
  | succ n ih =>
    unfold extendBack
    by_cases h : p.same i j = true
    · rw [if_pos h]
      exact Nat.succ_le_succ (ih (i - 1) (j - 1))
    · rw [if_neg h]
      exact Nat.zero_le _

theorem extendBack_matches {n i j : Nat} (hi : n ≤ i + 1) (hj : n ≤ j + 1) :
    p.Matches (i + 1 - p.extendBack n i j) (j + 1 - p.extendBack n i j)
      (p.extendBack n i j) := by
  induction n generalizing i j with
  | zero => exact fun x hx => absurd hx (Nat.not_lt_zero x)
  | succ n ih =>
    unfold extendBack
    by_cases h : p.same i j = true
    · rw [if_pos h]
      intro x hx
      have hle := extendBack_le (p := p) n (i - 1) (j - 1)
      by_cases hx' : x = p.extendBack n (i - 1) (j - 1)
      · rw [hx', show i + 1 - (p.extendBack n (i - 1) (j - 1) + 1) +
            p.extendBack n (i - 1) (j - 1) = i by omega,
          show j + 1 - (p.extendBack n (i - 1) (j - 1) + 1) +
            p.extendBack n (i - 1) (j - 1) = j by omega]
        exact h
      · cases n with
        | zero =>
          have : p.extendBack 0 (i - 1) (j - 1) = 0 := rfl
          omega
        | succ n =>
          have hrest := ih (i := i - 1) (j := j - 1) (by omega) (by omega) x (by omega)
          rw [show i - 1 + 1 = i by omega, show j - 1 + 1 = j by omega] at hrest
          rw [show i + 1 - (p.extendBack (n + 1) (i - 1) (j - 1) + 1) =
              i - p.extendBack (n + 1) (i - 1) (j - 1) by omega,
            show j + 1 - (p.extendBack (n + 1) (i - 1) (j - 1) + 1) =
              j - p.extendBack (n + 1) (i - 1) (j - 1) by omega]
          exact hrest
    · rw [if_neg h]
      exact fun x hx => absurd hx (Nat.not_lt_zero x)

structure Segment.Common (m : Segment) (p : DContext) (iS1 iE1 iS2 iE2 : Nat) : Prop where
  startX : iS1 ≤ m.iSX
  startY : iS2 ≤ m.iSY
  orderX : m.iSX ≤ m.iEX
  length : m.iEY + m.iSX = m.iSY + m.iEX
  endX : m.iEX ≤ iE1
  endY : m.iEY ≤ iE2
  equal : p.Matches m.iSX m.iSY (m.iEX - m.iSX)

variable {iS1 iE1 iS2 iE2 : Nat}

theorem chainWalk_same (i limit j : Nat) (hj : p.chainWalk iS2 iE2 i limit j ≠ 0) :
    iS2 ≤ p.chainWalk iS2 iE2 i limit j - 1 ∧ p.chainWalk iS2 iE2 i limit j < iE2 ∧
      p.same i (p.chainWalk iS2 iE2 i limit j - 1) = true := by
  induction limit generalizing j with
  | zero =>
    unfold chainWalk at hj ⊢
    by_cases h : j > 0 ∧ (j - 1 < iS2 ∨ j ≥ iE2 ∨ ¬ p.same i (j - 1))
    · rw [if_pos h] at hj
      exact absurd rfl hj
    · rw [if_neg h] at hj ⊢
      have hpos : j > 0 := by omega
      have hin := fun hor => h ⟨hpos, hor⟩
      refine ⟨by omega, by omega, ?_⟩
      by_contra hsame
      exact hin (Or.inr (Or.inr hsame))
  | succ limit ih =>
    unfold chainWalk at hj ⊢
    by_cases h : j > 0 ∧ (j - 1 < iS2 ∨ j ≥ iE2 ∨ ¬ p.same i (j - 1))
    · simp only [if_pos h] at hj ⊢
      exact ih _ hj
    · simp only [if_neg h] at hj ⊢
      have hpos : j > 0 := by omega
      have hin := fun hor => h ⟨hpos, hor⟩
      refine ⟨by omega, by omega, ?_⟩
      by_contra hsame
      exact hin (Or.inr (Or.inr hsame))

theorem matchAround_common {i j : Nat} (hi : iS1 ≤ i) (hi' : i < iE1) (hj : iS2 ≤ j - 1)
    (hj' : j < iE2) (hpos : j ≠ 0) (hsame : p.same i (j - 1) = true) :
    (p.matchAround iS1 iE1 iS2 iE2 i j).Common p iS1 iE1 iS2 iE2 := by
  have hback : p.extendBack (min (i - iS1) (j - 1 - iS2)) (i - 1) (j - 1 - 1) ≤
      min (i - iS1) (j - 1 - iS2) := extendBack_le _ _ _
  have hahead : p.extendForward (min (iE1 - (i + 1)) (iE2 - j)) (i + 1) j ≤
      min (iE1 - (i + 1)) (iE2 - j) := extendForward_le _ _ _
  have hbefore : p.Matches
      (i - p.extendBack (min (i - iS1) (j - 1 - iS2)) (i - 1) (j - 1 - 1))
      (j - 1 - p.extendBack (min (i - iS1) (j - 1 - iS2)) (i - 1) (j - 1 - 1))
      (p.extendBack (min (i - iS1) (j - 1 - iS2)) (i - 1) (j - 1 - 1)) := by
    by_cases hzero : min (i - iS1) (j - 1 - iS2) = 0
    · rw [hzero]
      exact fun x hx => absurd hx (Nat.not_lt_zero x)
    · have h := @extendBack_matches p (min (i - iS1) (j - 1 - iS2)) (i - 1) (j - 1 - 1)
        (by omega) (by omega)
      rwa [show i - 1 + 1 = i by omega, show j - 1 - 1 + 1 = j - 1 by omega] at h
  have hafter := @extendForward_matches p (min (iE1 - (i + 1)) (iE2 - j)) (i + 1) j
  unfold matchAround
  generalize p.extendBack (min (i - iS1) (j - 1 - iS2)) (i - 1) (j - 1 - 1) = back at *
  generalize p.extendForward (min (iE1 - (i + 1)) (iE2 - j)) (i + 1) j = ahead at *
  refine ⟨?_, ?_, ?_, ?_, ?_, ?_, ?_⟩
  · show iS1 ≤ i - back; omega
  · show iS2 ≤ j - 1 - back; omega
  · show i - back ≤ i + 1 + ahead; omega
  · show j + ahead + (i - back) = j - 1 - back + (i + 1 + ahead); omega
  · show i + 1 + ahead ≤ iE1; omega
  · show j + ahead ≤ iE2; omega
  · show p.Matches (i - back) (j - 1 - back) (i + 1 + ahead - (i - back))
    intro x hx
    by_cases hlt : x < back
    · exact hbefore x hlt
    · by_cases heq : x = back
      · rw [heq, show i - back + back = i by omega, show j - 1 - back + back = j - 1 by omega]
        exact hsame
      · have h := hafter (x - back - 1) (by omega)
        rwa [show i + 1 + (x - back - 1) = i - back + x by omega,
          show j + (x - back - 1) = j - 1 - back + x by omega] at h

theorem Segment.common_empty (h1 : iS1 ≤ iE1) (h2 : iS2 ≤ iE2) :
    Segment.Common { iSX := iS1, iEX := iS1, iSY := iS2, iEY := iS2 } p iS1 iE1 iS2 iE2 := by
  refine ⟨Nat.le_refl _, Nat.le_refl _, Nat.le_refl _, rfl, h1, h2, ?_⟩
  intro x hx
  have : x < iS1 - iS1 := hx
  omega

theorem foldl_range'_keeps {σ : Type} {motive : σ → Prop} {f : σ → Nat → σ} {start n : Nat}
    (hstep : ∀ s i, start ≤ i → i < start + n → motive s → motive (f s i)) {s : σ}
    (hs : motive s) : motive ((List.range' start n).foldl f s) := by
  have hmem : ∀ i ∈ List.range' start n, start ≤ i ∧ i < start + n :=
    fun i hi => List.mem_range'_1.mp hi
  generalize List.range' start n = l at hmem
  induction l generalizing s with
  | nil => exact hs
  | cons i l ih =>
    obtain ⟨h1, h2⟩ := hmem i List.mem_cons_self
    exact ih (hstep s i h1 h2 hs) (fun k hk => hmem k (List.mem_cons_of_mem i hk))

theorem searchStep_common {s : Search} {i : Nat} (hi : iS1 ≤ i) (hi' : i < iE1)
    (hs : s.best.Common p iS1 iE1 iS2 iE2) :
    (p.searchStep iS1 iE1 iS2 iE2 s i).best.Common p iS1 iE1 iS2 iE2 := by
  have hwalk := @chainWalk_same p iS2 iE2 i 11
    (p.aTo.iHash ((p.aFrom.lines.getD i default).h.toNat % p.nTo))
  show (p.recordMatch iS1 iE1 iS2 iE2 s i (p.chainWalk iS2 iE2 i 11
    (p.aTo.iHash ((p.aFrom.lines.getD i default).h.toNat % p.nTo)))).best.Common p _ _ _ _
  generalize p.chainWalk iS2 iE2 i 11
    (p.aTo.iHash ((p.aFrom.lines.getD i default).h.toNat % p.nTo)) = j at hwalk
  unfold recordMatch
  by_cases hzero : j = 0
  · rw [if_pos hzero]
    exact hs
  · obtain ⟨hj1, hj2, hsame⟩ := hwalk hzero
    have hm := matchAround_common hi hi' hj1 hj2 hzero hsame
    rw [if_neg hzero]
    by_cases hbest : s.best.covers i j
    · rw [if_pos hbest]
      exact hs
    · rw [if_neg hbest]
      by_cases hprev : s.prev.covers i j
      · rw [if_pos hprev]
        exact hs
      · rw [if_neg hprev]
        by_cases hscore : score iS1 iE1 iS2 iE2 (p.matchAround iS1 iE1 iS2 iE2 i j) > s.bestScore
        · simp only [if_pos hscore]
          exact hm
        · simp only [if_neg hscore]
          by_cases hend : (p.matchAround iS1 iE1 iS2 iE2 i j).iEX > s.prev.iEX
          · rw [if_pos hend]
            exact hs
          · rw [if_neg hend]
            exact hs

structure Optimal.Common (o : Optimal) (p : DContext) (iS1 iE1 iS2 iE2 : Nat) : Prop where
  startX : iS1 ≤ o.iSXb
  startY : iS2 ≤ o.iSYb
  endX : o.iSXb + o.mxLength ≤ iE1
  endY : o.iSYb + o.mxLength ≤ iE2
  equal : p.Matches o.iSXb o.iSYb o.mxLength

theorem optimalStep_common {o : Optimal} {i j : Nat} (hi : iS1 ≤ i) (hi' : i < iE1)
    (hj : iS2 ≤ j) (hj' : j < iE2) (ho : o.Common p iS1 iE1 iS2 iE2) :
    (p.optimalStep iE1 iE2 i o j).Common p iS1 iE1 iS2 iE2 := by
  unfold optimalStep
  by_cases hrange : ¬ j < iE2 - o.mxLength
  · rw [if_pos hrange]
    exact ho
  · rw [if_neg hrange]
    by_cases hsame : ¬ p.same i j = true
    · rw [if_pos hsame]
      exact ho
    · rw [if_neg hsame]
      by_cases hskip : o.mxLength ≠ 0 ∧ ¬ p.same (i + o.mxLength) (j + o.mxLength) = true
      · rw [if_pos hskip]
        exact ho
      · rw [if_neg hskip]
        have hle := @extendForward_le p (min (iE1 - (i + 1)) (iE2 - (j + 1))) (i + 1) (j + 1)
        have hmatch :=
          @extendForward_matches p (min (iE1 - (i + 1)) (iE2 - (j + 1))) (i + 1) (j + 1)
        generalize p.extendForward (min (iE1 - (i + 1)) (iE2 - (j + 1))) (i + 1) (j + 1) = k at *
        by_cases hbetter : 1 + k > o.mxLength
        · simp only [if_pos hbetter]
          refine ⟨hi, hj, ?_, ?_, ?_⟩
          · show i + (1 + k) ≤ iE1; omega
          · show j + (1 + k) ≤ iE2; omega
          · intro x hx
            have hx' : x < 1 + k := hx
            show p.same (i + x) (j + x) = true
            cases x with
            | zero => exact not_not.mp hsame
            | succ x =>
              have h := hmatch x (by omega)
              rwa [show i + 1 + x = i + (x + 1) by omega,
                show j + 1 + x = j + (x + 1) by omega] at h
        · simp only [if_neg hbetter]
          exact ho

theorem optimalLCS_common (h1 : iS1 ≤ iE1) (h2 : iS2 ≤ iE2) :
    (p.optimalLCS iS1 iE1 iS2 iE2).Common p iS1 iE1 iS2 iE2 := by
  have hstart : Optimal.Common { iSXb := iS1, iSYb := iS2, mxLength := 0 } p iS1 iE1 iS2 iE2 :=
    ⟨Nat.le_refl _, Nat.le_refl _, h1, h2, fun x hx => absurd hx (Nat.not_lt_zero x)⟩
  have hrow : ∀ (o : Optimal) (i : Nat), iS1 ≤ i → i < iS1 + (iE1 - iS1) →
      o.Common p iS1 iE1 iS2 iE2 → (p.optimalRow iE1 iS2 iE2 o i).Common p iS1 iE1 iS2 iE2 := by
    intro o i hi hi' ho
    unfold optimalRow
    by_cases hrange : ¬ i < iE1 - o.mxLength
    · rw [if_pos hrange]
      exact ho
    · rw [if_neg hrange]
      have hpair : ∀ (o : Optimal) (j : Nat), iS2 ≤ j → j < iS2 + (iE2 - iS2) →
          o.Common p iS1 iE1 iS2 iE2 →
          (p.optimalStep iE1 iE2 i o j).Common p iS1 iE1 iS2 iE2 :=
        fun o j hj hj' ho => optimalStep_common hi (by omega) hj (by omega) ho
      exact foldl_range'_keeps (motive := fun o : Optimal => o.Common p iS1 iE1 iS2 iE2) hpair ho
  have hrows := foldl_range'_keeps (motive := fun o : Optimal => o.Common p iS1 iE1 iS2 iE2) hrow hstart
  unfold optimalLCS
  generalize (List.range' iS1 (iE1 - iS1)).foldl (p.optimalRow iE1 iS2 iE2)
    { iSXb := iS1, iSYb := iS2, mxLength := 0 } = o at *
  refine ⟨hrows.startX, hrows.startY, ?_, ?_, hrows.endX, hrows.endY, ?_⟩
  · show o.iSXb ≤ o.iSXb + o.mxLength; omega
  · show o.iSYb + o.mxLength + o.iSXb = o.iSYb + (o.iSXb + o.mxLength); omega
  · show p.Matches o.iSXb o.iSYb (o.iSXb + o.mxLength - o.iSXb)
    rw [Nat.add_sub_cancel_left]
    exact hrows.equal

theorem longestCommonSequence_common (h1 : iS1 ≤ iE1) (h2 : iS2 ≤ iE2) :
    (p.longestCommonSequence iS1 iE1 iS2 iE2).Common p iS1 iE1 iS2 iE2 := by
  have hstep : ∀ (s : Search) (i : Nat), iS1 ≤ i → i < iS1 + (iE1 - iS1) →
      s.best.Common p iS1 iE1 iS2 iE2 →
      (p.searchStep iS1 iE1 iS2 iE2 s i).best.Common p iS1 iE1 iS2 iE2 :=
    fun s i hi hi' hs => searchStep_common hi (by omega) hs
  have hsearch := foldl_range'_keeps
    (motive := fun s : Search => s.best.Common p iS1 iE1 iS2 iE2) hstep
    (s := { best := { iSX := iS1, iEX := iS1, iSY := iS2, iEY := iS2 }
            prev := { iSX := iS1, iEX := iS1, iSY := iS2, iEY := iS2 }
            bestScore := -10000 }) (Segment.common_empty h1 h2)
  unfold longestCommonSequence
  simp only []
  split
  · exact optimalLCS_common h1 h2
  · exact hsearch

/-! ## The triples that are appended -/

variable {aEdit : List Edit}

theorem appendTriple_converts {α : Type} {a b a' b' : List α} {c d n : Nat}
    (h : Edit.Converts aEdit.reverse a b)
    (hnew : Edit.Converts [{ copy := c, del := d, ins := n }] a' b') :
    Edit.Converts (appendTriple aEdit c d n).reverse (a ++ a') (b ++ b') := by
  cases aEdit with
  | nil =>
    have happend := h.append hnew
    simpa [appendTriple] using happend
  | cons last older =>
    have happend : Edit.Converts (older.reverse ++ [last, { copy := c, del := d, ins := n }])
        (a ++ a') (b ++ b') := by
      have := h.append hnew
      rwa [List.reverse_cons, List.append_assoc] at this
    have hadd (hjoin : (last.del = 0 ∧ last.ins = 0) ∨ c = 0) :
        Edit.Converts (List.reverse
          ({ copy := last.copy + c, del := last.del + d, ins := last.ins + n } :: older))
          (a ++ a') (b ++ b') := by
      rw [List.reverse_cons]
      exact happend.join hjoin
    unfold appendTriple
    by_cases h1 : last.ins = 0 ∧ last.del = 0
    · simp only [if_pos h1]
      exact hadd (Or.inl ⟨h1.2, h1.1⟩)
    · by_cases h2 : last.ins = 0 ∧ c = 0
      · simp only [if_neg h1, if_pos h2]
        have h := hadd (Or.inr h2.2)
        rwa [h2.2, Nat.add_zero] at h
      · by_cases h3 : c = 0 ∧ d = 0
        · simp only [if_neg h1, if_neg h2, if_pos h3]
          have h := hadd (Or.inr h3.1)
          rwa [h3.1, h3.2, Nat.add_zero, Nat.add_zero] at h
        · simp only [if_neg h1, if_neg h2, if_neg h3]
          rw [List.reverse_cons, List.reverse_cons, List.append_assoc]
          exact happend

def Open (aEdit : List Edit) : Prop := ∀ t, aEdit.head? = some t → t.ins = 0 ∧ t.del = 0

structure NeatSoFar (aEdit : List Edit) : Prop where
  ne_zero : ∀ t ∈ aEdit, t ≠ Edit.zero
  copies : ∀ t ∈ aEdit.dropLast, 0 < t.copy

theorem NeatSoFar.neat (h : NeatSoFar aEdit) : Edit.Neat aEdit.reverse where
  ne_zero := fun t ht => h.ne_zero t (List.mem_reverse.mp ht)
  copies := fun t ht => by
    rw [List.tail_reverse] at ht
    exact h.copies t (List.mem_reverse.mp ht)

theorem NeatSoFar.nil : NeatSoFar [] where
  ne_zero := fun _ h => absurd h List.not_mem_nil
  copies := fun _ h => absurd h List.not_mem_nil

theorem NeatSoFar.cons {t : Edit} (h : NeatSoFar aEdit) (ht : t ≠ Edit.zero)
    (hcopy : aEdit ≠ [] → 0 < t.copy) : NeatSoFar (t :: aEdit) where
  ne_zero := fun u hu => by
    obtain rfl | hu := List.mem_cons.mp hu
    · exact ht
    · exact h.ne_zero u hu
  copies := fun u hu => by
    cases aEdit with
    | nil => cases hu
    | cons v aEdit =>
      obtain rfl | hu := List.mem_cons.mp hu
      · exact hcopy (List.cons_ne_nil v aEdit)
      · exact h.copies u hu

theorem NeatSoFar.older {t : Edit} (h : NeatSoFar (t :: aEdit)) :
    NeatSoFar aEdit ∧ (aEdit ≠ [] → 0 < t.copy) := by
  refine ⟨⟨fun u hu => h.ne_zero u (List.mem_cons_of_mem t hu), ?_⟩, ?_⟩
  · intro u hu
    cases aEdit with
    | nil => cases hu
    | cons v aEdit => exact h.copies u (List.mem_cons_of_mem t hu)
  · intro hne
    cases aEdit with
    | nil => exact absurd rfl hne
    | cons v aEdit => exact h.copies t List.mem_cons_self

theorem appendTriple_copy {c : Nat} (hc : 0 < c) (h : NeatSoFar aEdit) :
    NeatSoFar (appendTriple aEdit c 0 0) ∧ Open (appendTriple aEdit c 0 0) := by
  have hne : ({ copy := c, del := 0, ins := 0 } : Edit) ≠ Edit.zero :=
    Edit.ne_zero_iff.mpr (Or.inl hc)
  cases aEdit with
  | nil =>
    refine ⟨h.cons hne (fun _ => hc), ?_⟩
    intro t ht
    cases ht
    exact ⟨rfl, rfl⟩
  | cons last older =>
    obtain ⟨holder, hcopy⟩ := h.older
    unfold appendTriple
    by_cases h1 : last.ins = 0 ∧ last.del = 0
    · simp only [if_pos h1]
      refine ⟨holder.cons (Edit.ne_zero_iff.mpr (Or.inl ?_)) (fun _ => ?_), ?_⟩
      · show 0 < last.copy + c; omega
      · show 0 < last.copy + c; omega
      · intro t ht
        cases ht
        exact h1
    · simp only [if_neg h1]
      rw [if_neg (by omega), if_neg (by omega)]
      refine ⟨h.cons hne (fun _ => hc), ?_⟩
      intro t ht
      cases ht
      exact ⟨rfl, rfl⟩

theorem appendTriple_edit {d n : Nat} (hdn : 0 < d ∨ 0 < n) (hopen : Open aEdit)
    (h : NeatSoFar aEdit) : NeatSoFar (appendTriple aEdit 0 d n) := by
  cases aEdit with
  | nil =>
    refine h.cons (Edit.ne_zero_iff.mpr (Or.inr hdn)) (fun hne => absurd rfl hne)
  | cons last older =>
    obtain ⟨holder, hcopy⟩ := h.older
    have h1 : last.ins = 0 ∧ last.del = 0 := hopen last rfl
    unfold appendTriple
    simp only [if_pos h1]
    refine holder.cons (Edit.ne_zero_iff.mpr (Or.inr ?_)) (fun hne => ?_)
    · show 0 < last.del + d ∨ 0 < last.ins + n; omega
    · have := hcopy hne
      show 0 < last.copy + 0; omega

/-- A script of what is before line `i` of the one file and line `j` of the other. -/
structure Reaches (ps vs : List (List UInt8)) (i j : Nat) (aEdit : List Edit) : Prop where
  converts : Edit.Converts aEdit.reverse (ps.take i) (vs.take j)
  neat : NeatSoFar aEdit

theorem Reaches.append {i j c d n : Nat} (h : Reaches ps vs i j aEdit)
    (hi : i + c + d ≤ ps.length) (hj : j + c + n ≤ vs.length)
    (hcopy : (ps.drop i).take c = (vs.drop j).take c) :
    Edit.Converts (appendTriple aEdit c d n).reverse (ps.take (i + c + d))
      (vs.take (j + c + n)) := by
  have hnew : Edit.Converts [{ copy := c, del := d, ins := n }]
      ((ps.drop i).take c ++ (ps.drop (i + c)).take d)
      ((vs.drop j).take c ++ (vs.drop (j + c)).take n) := by
    refine Edit.converts_singleton.mpr
      ⟨_, _, (vs.drop (j + c)).take n, rfl, ?_, ?_, ?_, ?_⟩
    · rw [hcopy]
    · rw [List.length_take, List.length_drop]; show min c (ps.length - i) = c; omega
    · rw [List.length_take, List.length_drop]; show min d (ps.length - (i + c)) = d; omega
    · rw [List.length_take, List.length_drop]; show min n (vs.length - (j + c)) = n; omega
  have happend := appendTriple_converts h.converts hnew
  have hsplit {l : List (List UInt8)} (k c d : Nat) :
      l.take k ++ ((l.drop k).take c ++ (l.drop (k + c)).take d) = l.take (k + c + d) := by
    rw [List.take_add, List.take_add, List.append_assoc]
  rwa [hsplit, hsplit] at happend

theorem Of.diffStep (h : p.Of ps vs) {fuel : Nat} (hfuel : iE1 - iS1 < fuel) (h1 : iS1 ≤ iE1)
    (h1' : iE1 ≤ ps.length) (h2 : iS2 ≤ iE2) (h2' : iE2 ≤ vs.length) (hopen : Open aEdit)
    (hreach : Reaches ps vs iS1 iS2 aEdit) :
    Reaches ps vs iE1 iE2 (p.diffStep fuel iS1 iE1 iS2 iE2 aEdit) := by
  induction fuel generalizing iS1 iE1 iS2 iE2 aEdit with
  | zero => exact absurd hfuel (Nat.not_lt_zero _)
  | succ fuel ih =>
    have hedit {d n : Nat} (hd : iS1 + d = iE1) (hn : iS2 + n = iE2) (hdn : 0 < d ∨ 0 < n) :
        Reaches ps vs iE1 iE2 (appendTriple aEdit 0 d n) := by
      refine ⟨?_, appendTriple_edit hdn hopen hreach.neat⟩
      have happend := hreach.append (c := 0) (d := d) (n := n) (by omega) (by omega) rfl
      rwa [Nat.add_zero, Nat.add_zero, hd, hn] at happend
    unfold DContext.diffStep
    by_cases hempty1 : iE1 ≤ iS1
    · rw [if_pos hempty1]
      by_cases hmore : iE2 > iS2
      · rw [if_pos hmore]
        exact hedit (by omega) (by omega) (by omega)
      · rw [if_neg hmore]
        obtain rfl : iS1 = iE1 := by omega
        obtain rfl : iS2 = iE2 := by omega
        exact hreach
    · rw [if_neg hempty1]
      by_cases hempty2 : iE2 ≤ iS2
      · rw [if_pos hempty2]
        exact hedit (by omega) (by omega) (by omega)
      · rw [if_neg hempty2]
        have hm := longestCommonSequence_common (p := p) h1 h2
        generalize p.longestCommonSequence iS1 iE1 iS2 iE2 = m at hm
        obtain ⟨hsx, hsy, hox, hlen, hex, hey, hequal⟩ := hm
        by_cases hfound : m.iEX > m.iSX
        · simp only [if_pos hfound]
          have hbefore := ih (by omega) hsx (by omega) hsy (by omega) hopen hreach
          obtain ⟨hneat, hopen'⟩ := appendTriple_copy (c := m.iEX - m.iSX) (by omega) hbefore.neat
          refine ih (by omega) hex h1' hey h2' hopen' ⟨?_, hneat⟩
          have hcopy := h.take_eq hequal (by omega) (by omega)
          have happend := hbefore.append (d := 0) (n := 0) (by omega) (by omega) hcopy
          rwa [Nat.add_zero, Nat.add_zero, show m.iSX + (m.iEX - m.iSX) = m.iEX by omega,
            show m.iSY + (m.iEX - m.iSX) = m.iEY by omega] at happend
        · simp only [if_neg hfound]
          exact hedit (by omega) (by omega) (by omega)

theorem trimFooter_spec (a b : Nat) :
    ∃ k, (p.trimFooter a b).1 + k = a ∧ (p.trimFooter a b).2 + k = b ∧
      p.Matches (p.trimFooter a b).1 (p.trimFooter a b).2 k := by
  induction a generalizing b with
  | zero => exact ⟨0, rfl, by cases b <;> rfl, fun x hx => absurd hx (Nat.not_lt_zero x)⟩
  | succ a ih =>
    cases b with
    | zero => exact ⟨0, rfl, rfl, fun x hx => absurd hx (Nat.not_lt_zero x)⟩
    | succ b =>
      unfold trimFooter
      by_cases hsame : p.same a b = true
      · rw [if_pos hsame]
        obtain ⟨k, ha, hb, hm⟩ := ih b
        refine ⟨k + 1, by omega, by omega, ?_⟩
        intro x hx
        by_cases hxk : x = k
        · rw [hxk, ha, hb]
          exact hsame
        · exact hm x (by omega)
      · rw [if_neg hsame]
        exact ⟨0, rfl, rfl, fun x hx => absurd hx (Nat.not_lt_zero x)⟩

theorem Of.diffAll (h : p.Of ps vs) : Edit.Converts p.diffAll ps vs ∧ Edit.Neat p.diffAll := by
  obtain ⟨k, h1, h2, hfooter⟩ := @trimFooter_spec p ps.length vs.length
  unfold DContext.diffAll
  rw [h.nFrom, h.nTo]
  generalize p.trimFooter ps.length vs.length = iE at *
  have hle := @extendForward_le p (min iE.1 iE.2) 0 0
  have hequal := @extendForward_matches p (min iE.1 iE.2) 0 0
  simp only []
  generalize p.extendForward (min iE.1 iE.2) 0 0 = iS at *
  have hheader : Reaches ps vs iS iS (if iS > 0 then appendTriple [] iS 0 0 else []) ∧
      Open (if iS > 0 then appendTriple [] iS 0 0 else []) := by
    by_cases hpos : iS > 0
    · rw [if_pos hpos]
      obtain ⟨hneat, hopen⟩ := appendTriple_copy hpos NeatSoFar.nil
      have hstart : Reaches ps vs 0 0 [] := ⟨.nil, .nil⟩
      have hcopy := h.take_eq hequal (by omega) (by omega)
      have happend := hstart.append (d := 0) (n := 0) (by omega) (by omega) hcopy
      rw [Nat.zero_add, Nat.add_zero] at happend
      exact ⟨⟨happend, hneat⟩, hopen⟩
    · rw [if_neg hpos]
      obtain rfl : iS = 0 := by omega
      exact ⟨⟨.nil, .nil⟩, fun t ht => by cases ht⟩
  have hmiddle : Reaches ps vs iE.1 iE.2 (p.diffStep (iE.1 + 1) iS iE.1 iS iE.2
      (if iS > 0 then appendTriple [] iS 0 0 else [])) :=
    h.diffStep (by omega) (by omega) (by omega) (by omega) (by omega) hheader.2 hheader.1
  generalize p.diffStep (iE.1 + 1) iS iE.1 iS iE.2
    (if iS > 0 then appendTriple [] iS 0 0 else []) = middle at hmiddle
  by_cases hmore : iE.1 < ps.length
  · rw [if_pos hmore]
    have hcopy := h.take_eq hfooter (by omega) (by omega)
    have happend := hmiddle.append (d := 0) (n := 0) (by omega) (by omega) hcopy
    rw [Nat.add_zero, Nat.add_zero, h1, h2, List.take_length, List.take_length] at happend
    rw [show ps.length - iE.1 = k by omega]
    exact ⟨happend, (appendTriple_copy (by omega) hmiddle.neat).1.neat⟩
  · rw [if_neg hmore]
    have hconverts := hmiddle.converts
    rw [show iE.1 = ps.length by omega, show iE.2 = vs.length by omega, List.take_length,
      List.take_length] at hconverts
    exact ⟨hconverts, hmiddle.neat.neat⟩

theorem Of.diffAll_self (h : p.Of ps ps) :
    p.diffAll = if ps = [] then [] else [{ copy := ps.length, del := 0, ins := 0 }] := by
  have htrim : ∀ n ≤ ps.length, p.trimFooter n n = (0, 0) := by
    intro n
    induction n with
    | zero => exact fun _ => rfl
    | succ n ih =>
      intro hn
      unfold trimFooter
      rw [if_pos ((h.same_iff (by omega) (by omega)).mpr rfl)]
      exact ih (by omega)
  unfold DContext.diffAll
  rw [h.nFrom, h.nTo, htrim ps.length (Nat.le_refl _)]
  cases ps with
  | nil => rfl
  | cons l ls =>
    rw [if_neg (List.cons_ne_nil l ls)]
    rfl

end DContext

theorem textDiff_of {pA pB : List UInt8} {aFrom aTo : DFile}
    (hA : breakIntoLines pA = some aFrom) (hB : breakIntoLines pB = some aTo) :
    textDiff pA pB = some (DContext.diffAll { aFrom := aFrom, aTo := aTo } ++ [Edit.zero]) ∧
      DContext.Of { aFrom := aFrom, aTo := aTo } (textLines pA) (textLines pB) := by
  refine ⟨?_, breakIntoLines_fileOf hA, breakIntoLines_fileOf hB⟩
  unfold textDiff
  rw [hA, hB]

theorem textDiff_eq_some {pA pB : List UInt8} {s : List Edit} (h : textDiff pA pB = some s) :
    ∃ aFrom aTo, s = DContext.diffAll { aFrom := aFrom, aTo := aTo } ++ [Edit.zero] ∧
      DContext.Of { aFrom := aFrom, aTo := aTo } (textLines pA) (textLines pB) := by
  unfold textDiff at h
  cases hfrom : breakIntoLines pA with
  | none =>
    rw [hfrom] at h
    exact absurd h (Option.some_ne_none s).symm
  | some aFrom =>
    cases hto : breakIntoLines pB with
    | none =>
      rw [hfrom, hto] at h
      exact absurd h (Option.some_ne_none s).symm
    | some aTo =>
      rw [hfrom, hto] at h
      exact ⟨aFrom, aTo, (Option.some.inj h).symm, (textDiff_of hfrom hto).2⟩

theorem textDiff_script {ps vs : List (List UInt8)} (hps : ∀ l ∈ ps, IsLine l)
    (hvs : ∀ l ∈ vs, IsLine l) {s : List Edit}
    (h : textDiff (joinLines ps) (joinLines vs) = some s) :
    ∃ t, s = t ++ [Edit.zero] ∧ Edit.Converts t ps vs ∧ Edit.Neat t := by
  obtain ⟨aFrom, aTo, hs, hof⟩ := textDiff_eq_some h
  rw [textLines_joinLines hps, textLines_joinLines hvs] at hof
  exact ⟨_, hs, hof.diffAll⟩

theorem textDiff_self {ps : List (List UInt8)} (hps : ∀ l ∈ ps, IsLine l) {s : List Edit}
    (h : textDiff (joinLines ps) (joinLines ps) = some s) :
    s = (if ps = [] then [] else [{ copy := ps.length, del := 0, ins := 0 }]) ++ [Edit.zero] := by
  obtain ⟨aFrom, aTo, rfl, hof⟩ := textDiff_eq_some h
  rw [textLines_joinLines hps] at hof
  rw [hof.diffAll_self]

/-- For all texts that `break_into_lines` takes, the triples before the one of zeros account for
every line of both texts, and they turn the lines of the first into those of the second. -/
theorem textDiff_valid {pA pB : List UInt8} (hA : (breakIntoLines pA).isSome = true)
    (hB : (breakIntoLines pB).isSome = true) :
    ∃ t, textDiff pA pB = some (t ++ [Edit.zero]) ∧ Edit.zero ∉ t ∧
      (t.map fun e => e.copy + e.del).sum = (textLines pA).length ∧
      (t.map fun e => e.copy + e.ins).sum = (textLines pB).length ∧
      Edit.replay t (textLines pA) (textLines pB) = some (textLines pB) := by
  obtain ⟨aFrom, hfrom⟩ := Option.isSome_iff_exists.mp hA
  obtain ⟨aTo, hto⟩ := Option.isSome_iff_exists.mp hB
  obtain ⟨hdiff, hof⟩ := textDiff_of hfrom hto
  obtain ⟨hconverts, hneat⟩ := hof.diffAll
  exact ⟨_, hdiff, fun h => hneat.ne_zero _ h rfl, hconverts.sum_from, hconverts.sum_to,
    hconverts.replay⟩

/-- A line changes, and the second text has no newline at its end. -/
theorem textDiff_valid_change :
    ∃ t, textDiff [97, 10, 98, 10] [97, 10, 99] = some (t ++ [Edit.zero]) ∧ Edit.zero ∉ t ∧
      (t.map fun e => e.copy + e.del).sum = 2 ∧ (t.map fun e => e.copy + e.ins).sum = 2 ∧
      Edit.replay t ([[97], [98]] : List (List UInt8)) [[97], [99]] = some [[97], [99]] := by
  have hA : textLines [97, 10, 98, 10] = [[97], [98]] := by decide
  have hB : textLines [97, 10, 99] = [[97], [99]] := by decide
  have hvalid := @textDiff_valid [97, 10, 98, 10] [97, 10, 99] (by decide) (by decide)
  rw [hA, hB] at hvalid
  exact hvalid

end NextBSD.Libpkg
