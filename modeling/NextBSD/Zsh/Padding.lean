import NextBSD.Library.Repetition
import NextBSD.Zsh.Metafy

/-!
# subst.c: padding

`dopadding` without `MULTIBYTE` and without the flag `m`: a character is a byte, which takes two
bytes of a string when it is metafied, and every character counts 1.  Strings are given without the
`NUL` at their end, behind which nothing can be read.
-/

namespace NextBSD.Zsh.Padding

open Repetition

/-- `MB_METACHARLENCONV`: the character in front, and what is behind it. -/
def metaChar : Bytes → Option (Bytes × Bytes)
  | [] => none
  | c :: s =>
    if c = 0x83 then
      match s with
      | [] => none
      | d :: s => some ([c, d], s)
    else some ([c], s)

def ztrlen : Bytes → Nat
  | [] => 0
  | [_] => 1
  | c :: d :: s => if c = 0x83 then ztrlen s + 1 else ztrlen (d :: s) + 1

def skipChars : Nat → Bytes → Option Bytes
  | 0, s => some s
  | f + 1, s => (metaChar s).bind fun (_, s) => skipChars f s

/-- The loops that copy so many characters: what they write, and what is left. -/
def copyChars : Nat → Bytes → Option (Bytes × Bytes)
  | 0, s => some ([], s)
  | c + 1, s =>
    (metaChar s).bind fun (char, s) => (copyChars c s).map fun (out, s) => (char ++ out, s)

def copyAll : Bytes → Option Bytes
  | [] => some []
  | [c] => if c = 0x83 then none else some [c]
  | c :: d :: s =>
    if c = 0x83 then (copyAll s).map ([c, d] ++ ·) else (copyAll (d :: s)).map (c :: ·)

/-- `for (cc = count; cc--;)`, around a copy of the string. -/
def repeatCopy (copy : Bytes → Option Bytes) : Nat → Bytes → Option Bytes
  | 0, _ => some []
  | count + 1, s => (copy s).bind fun out => (repeatCopy copy count s).map (out ++ ·)

/-! ## The program -/

/-- The arguments; `none` is `NULL`. -/
structure Args where
  prenum : Nat
  postnum : Nat
  preone : Option Bytes
  postone : Option Bytes
  premul : Option Bytes
  postmul : Option Bytes
  deriving DecidableEq, Repr

def defaultPad (ifs : Option Bytes) : Bytes :=
  let tmpifs := ifs.getD [32, 9, 10, 0x83, 32]
  ((metaChar tmpifs).map Prod.fst).getD []

def nonEmpty (dflt s : Bytes) : Bytes := if s = [] then dflt else s

/-- What is left over of a repeated string, and its copies, in front of the string.  `rest` copies
the rest of the repeated string, of which so many characters are left. -/
def fillBefore (rest : Nat → Bytes → Option Bytes) (f : Nat) (premul : Bytes) : Option Bytes :=
  let lpremul := ztrlen premul
  let m := f % lpremul
  if lpremul = 0 then some []
  else do
    let fraction ← (if m = 0 then some [] else (skipChars (lpremul - m) premul).bind (rest m))
    let copies ← repeatCopy (fun s => (copyChars lpremul s).map Prod.fst) (f / lpremul) premul
    return fraction ++ copies

/-- What is written in front of the string to fill `f` characters. -/
def padBefore (rest : Nat → Bytes → Option Bytes) (f : Nat) (preone : Option Bytes)
    (premul : Bytes) : Option Bytes :=
  let lpreone := (preone.map ztrlen).getD 0
  if f ≤ lpreone then
    match preone with
    | none => some []
    | some preone => skipChars (lpreone - f) preone
  else (fillBefore rest (f - lpreone) premul).map (· ++ preone.getD [])

/-- Copies of a repeated string, and a part of one more, behind the string.  `copy` copies a whole
string. -/
def fillBehind (copy : Bytes → Option Bytes) (f : Nat) (postmul : Bytes) : Option Bytes :=
  let lpostmul := ztrlen postmul
  if lpostmul = 0 then some []
  else do
    let copies ← repeatCopy copy (f / lpostmul) postmul
    let fraction ← (copyChars (f % lpostmul) postmul).map Prod.fst
    return copies ++ fraction

/-- What is written behind the string to fill `f` characters. -/
def padBehind (copy : Bytes → Option Bytes) (f : Nat) (postone : Option Bytes)
    (postmul : Bytes) : Option Bytes :=
  let lpostone := (postone.map ztrlen).getD 0
  if f ≤ lpostone then
    match postone with
    | none => some []
    | some postone => (copyChars f postone).map Prod.fst
  else
    match postone with
    | none => fillBehind copy f postmul
    | some postone =>
      (copy postone).bind fun once => (fillBehind copy (f - lpostone) postmul).map (once ++ ·)

/-- Padding on both sides, the left half: what is written, and what is left of the string. -/
def leftHalf (a : Args) (premul str : Bytes) (ls2 : Nat) : Option (Bytes × Bytes) :=
  if a.prenum ≤ ls2 then (skipChars (ls2 - a.prenum) str).bind (copyChars a.prenum)
  else
    (padBefore (fun _ t => some t) (a.prenum - ls2) a.preone premul).bind fun pad =>
      (copyChars ls2 str).map fun (half, str) => (pad ++ half, str)

def rightHalf (a : Args) (postmul str : Bytes) (ls2 : Nat) : Option Bytes :=
  if a.postnum ≤ ls2 then (copyChars a.postnum str).map Prod.fst
  else (padBehind some (a.postnum - ls2) a.postone postmul).map (str ++ ·)

def padBoth (a : Args) (premul postmul str : Bytes) : Option Bytes :=
  let ls := ztrlen str
  let ls2 := ls / 2
  (leftHalf a premul str ls2).bind fun (left, str) =>
    (rightHalf a postmul str (ls - ls2)).map (left ++ ·)

def padLeft (a : Args) (premul str : Bytes) : Option Bytes :=
  let ls := ztrlen str
  if a.prenum ≤ ls then
    (skipChars (ls - a.prenum) str).bind fun str => (copyChars a.prenum str).map Prod.fst
  else
    (padBefore (fun m t => (copyChars m t).map Prod.fst) (a.prenum - ls) a.preone premul).map
      (· ++ str)

def padRight (a : Args) (postmul str : Bytes) : Option Bytes :=
  let ls := ztrlen str
  if a.postnum ≤ ls then (copyChars a.postnum str).map Prod.fst
  else
    (copyAll str).bind fun text =>
      (padBehind copyAll (a.postnum - ls) a.postone postmul).map (text ++ ·)

def int (n : Int) : Int := (n + 2 ^ 31) % 2 ^ 32 - 2 ^ 31

structure Buffer where
  size : Int
  written : Nat
  deriving DecidableEq, Repr

/-- The string that is returned, and the buffer that it is in if it was padded. -/
structure Result where
  text : Bytes
  buffer : Option Buffer
  deriving DecidableEq, Repr

def dopadding (ifs : Option Bytes) (a : Args) (str : Bytes) : Option Result :=
  let dflt := defaultPad ifs
  let a := { a with preone := a.preone.map (nonEmpty dflt)
                    postone := a.postone.map (nonEmpty dflt) }
  let premul := nonEmpty dflt (a.premul.getD [])
  let postmul := nonEmpty dflt (a.postmul.getD [])
  if int (a.prenum + a.postnum) = ztrlen str then some { text := str, buffer := none }
  else
    let lr := int (str.length + premul.length * a.prenum + postmul.length * a.postnum)
    let lr := if a.preone.isSome then int (lr + (a.preone.getD []).length) else lr
    let lr := if a.postone.isSome then int (lr + (a.postone.getD []).length) else lr
    let out :=
      if a.prenum ≠ 0 then
        if a.postnum ≠ 0 then padBoth a premul postmul str else padLeft a premul str
      else if a.postnum ≠ 0 then padRight a postmul str
      else some []
    out.map fun out =>
      { text := out, buffer := some { size := int (lr + 1), written := out.length + 1 } }

def padding (ifs : Option Bytes) (p : Option Bytes) : Bytes :=
  nonEmpty ((ifs.getD [32, 9, 10, 0]).take 1) (p.getD [])

def once (ifs : Option Bytes) (p : Option Bytes) : Bytes :=
  (p.map (nonEmpty ((ifs.getD [32, 9, 10, 0]).take 1))).getD []

/-- The field: on both sides it is the left field of the first half and the right field of the
second half. -/
def field (ifs : Option Bytes) (a : Args) (x : Bytes) : Bytes :=
  if a.postnum = 0 then leftField a.prenum (padding ifs a.premul) (once ifs a.preone) x
  else if a.prenum = 0 then rightField a.postnum x (once ifs a.postone) (padding ifs a.postmul)
  else
    leftField a.prenum (padding ifs a.premul) (once ifs a.preone) (x.take (x.length / 2)) ++
      rightField a.postnum (x.drop (x.length / 2)) (once ifs a.postone) (padding ifs a.postmul)

def Args.metafy (a : Args) : Args :=
  { a with preone := a.preone.map Zsh.metafy, postone := a.postone.map Zsh.metafy
           premul := a.premul.map Zsh.metafy, postmul := a.postmul.map Zsh.metafy }

def Pads (ifs : Option Bytes) (a : Args) (x : Bytes) : Prop :=
  ∃ r, dopadding (ifs.map metafy) a.metafy (metafy x) = some r ∧
    r.text = metafy (field ifs a x) ∧ ∀ b ∈ r.buffer, (b.written : Int) ≤ b.size

def required (ifs : Option Bytes) (a : Args) (x : Bytes) : Nat :=
  (metafy x).length + (metafy (padding ifs a.premul)).length * a.prenum +
    (metafy (padding ifs a.postmul)).length * a.postnum + (metafy (once ifs a.preone)).length +
    (metafy (once ifs a.postone)).length

end NextBSD.Zsh.Padding

/-!
## What padding gives

On metafied strings the loops are those of lists of bytes, and `dopadding` gives the field.  What
it is written into is large enough unless its size does not fit an `int`.
-/

namespace NextBSD.Zsh.Padding

open Repetition

variable {ifs w : Option Bytes} {a : Args} {x p : Bytes} {k n : Nat}

theorem metaChar_cons (c : UInt8) (x : Bytes) :
    metaChar (metafy (c :: x)) = some (metafy [c], metafy x) := by
  rw [metafy_cons]
  have hone : metafy [c] = if imeta c then [0x83, c ^^^ 32] else [c] := List.append_nil _
  rw [hone]
  split_ifs with himeta
  · rfl
  · have hc : c ≠ 0x83 := by
      rintro rfl
      exact himeta rfl
    rw [List.singleton_append, metaChar.eq_def]
    dsimp only
    rw [if_neg hc]

theorem ztrlen_metafy (x : Bytes) : ztrlen (metafy x) = x.length := by
  induction x with
  | nil => rfl
  | cons c x ih =>
    rw [metafy_cons]
    split_ifs with himeta
    · show ztrlen (0x83 :: (c ^^^ 32) :: metafy x) = _
      rw [ztrlen, if_pos rfl, ih, List.length_cons]
    · have hc : c ≠ 0x83 := by
        rintro rfl
        exact himeta rfl
      rw [List.singleton_append]
      cases hx : metafy x with
      | nil =>
        rw [hx] at ih
        rw [ztrlen, List.length_cons, ← ih]
        rfl
      | cons d s => rw [ztrlen, if_neg hc, ← hx, ih, List.length_cons]

theorem skipChars_metafy (h : k ≤ x.length) :
    skipChars k (metafy x) = some (metafy (x.drop k)) := by
  induction k generalizing x with
  | zero => rfl
  | succ k ih =>
    obtain ⟨c, x, rfl⟩ : ∃ c t, x = c :: t := List.exists_cons_of_length_pos (by omega)
    rw [skipChars, metaChar_cons, Option.bind_some, List.drop_succ_cons]
    exact ih (Nat.le_of_succ_le_succ h)

theorem copyChars_metafy (h : k ≤ x.length) :
    copyChars k (metafy x) = some (metafy (x.take k), metafy (x.drop k)) := by
  induction k generalizing x with
  | zero => rfl
  | succ k ih =>
    obtain ⟨c, x, rfl⟩ : ∃ c t, x = c :: t := List.exists_cons_of_length_pos (by omega)
    rw [copyChars, metaChar_cons, Option.bind_some]
    dsimp only
    rw [ih (Nat.le_of_succ_le_succ h), Option.map_some, ← metafy_append]
    rfl

theorem copyAll_metafy (x : Bytes) : copyAll (metafy x) = some (metafy x) := by
  induction x with
  | nil => rfl
  | cons c x ih =>
    rw [metafy_cons]
    split_ifs with himeta
    · show copyAll (0x83 :: (c ^^^ 32) :: metafy x) = _
      rw [copyAll, if_pos rfl, ih, Option.map_some]
    · have hc : c ≠ 0x83 := by
        rintro rfl
        exact himeta rfl
      rw [List.singleton_append]
      cases hx : metafy x with
      | nil => rw [copyAll, if_neg hc]
      | cons d s => rw [copyAll, if_neg hc, ← hx, ih, Option.map_some]

theorem repeatCopy_metafy {copy : Bytes → Option Bytes} (p : Bytes)
    (h : copy (metafy p) = some (metafy p)) (count : Nat) :
    repeatCopy copy count (metafy p) = some (metafy (repeated count p)) := by
  induction count with
  | zero => rfl
  | succ count ih =>
    rw [repeatCopy, h, Option.bind_some, ih, Option.map_some, repeated_succ, metafy_append]

theorem copyChars_all (p : Bytes) :
    (copyChars p.length (metafy p)).map Prod.fst = some (metafy p) := by
  rw [copyChars_metafy le_rfl, Option.map_some, List.take_length]

/-! ## The padding -/

theorem length_once_metafy (one : Option Bytes) :
    ((one.map metafy).map ztrlen).getD 0 = (one.getD []).length := by
  cases one with
  | none => rfl
  | some one => exact ztrlen_metafy one

theorem getD_metafy (one : Option Bytes) : (one.map metafy).getD [] = metafy (one.getD []) := by
  cases one <;> rfl

theorem fillBefore_metafy {rest : Nat → Bytes → Option Bytes} (hp : p ≠ [])
    (hrest : ∀ q, rest q.length (metafy q) = some (metafy q)) (f : Nat) :
    fillBefore rest f (metafy p) =
      some (metafy (p.drop (p.length - f % p.length) ++ repeated (f / p.length) p)) := by
  have hpos := List.length_pos_of_ne_nil hp
  have hmod := Nat.mod_lt f hpos
  have hfraction : (if f % p.length = 0 then some [] else
      (skipChars (p.length - f % p.length) (metafy p)).bind (rest (f % p.length))) =
      some (metafy (p.drop (p.length - f % p.length))) := by
    split_ifs with hzero
    · rw [hzero, Nat.sub_zero, List.drop_length]
      rfl
    · have hlength : (p.drop (p.length - f % p.length)).length = f % p.length := by
        rw [List.length_drop]
        omega
      have hcopy := hrest (p.drop (p.length - f % p.length))
      rw [hlength] at hcopy
      rw [skipChars_metafy (Nat.sub_le _ _), Option.bind_some, hcopy]
  have hcopies : repeatCopy (fun s => (copyChars p.length s).map Prod.fst) (f / p.length)
      (metafy p) = some (metafy (repeated (f / p.length) p)) :=
    repeatCopy_metafy p (copyChars_all p) _
  unfold fillBefore
  simp only [ztrlen_metafy]
  rw [if_neg (by omega), hfraction, hcopies, metafy_append]
  rfl

theorem fillBehind_metafy {copy : Bytes → Option Bytes} (hp : p ≠ [])
    (hcopy : ∀ q, copy (metafy q) = some (metafy q)) (f : Nat) :
    fillBehind copy f (metafy p) =
      some (metafy (repeated (f / p.length) p ++ p.take (f % p.length))) := by
  have hpos := List.length_pos_of_ne_nil hp
  have hmod := Nat.mod_lt f hpos
  unfold fillBehind
  simp only [ztrlen_metafy]
  rw [if_neg (by omega), repeatCopy_metafy p (hcopy p), copyChars_metafy hmod.le, metafy_append]
  rfl

theorem padBefore_metafy {rest : Nat → Bytes → Option Bytes} (hp : p ≠ [])
    (hrest : ∀ q, rest q.length (metafy q) = some (metafy q)) (hx : x.length < n)
    (one : Option Bytes) :
    (padBefore rest (n - x.length) (one.map metafy) (metafy p)).map (· ++ metafy x) =
      some (metafy (leftField n p (one.getD []) x)) := by
  unfold padBefore
  simp only [length_once_metafy, getD_metafy]
  split_ifs with hroom
  · cases one with
    | none =>
      simp only [Option.getD_none, List.length_nil] at hroom
      omega
    | some one =>
      rw [leftField_once hx.le hroom]
      simp only [Option.map_some, Option.getD_some] at hroom ⊢
      rw [skipChars_metafy (Nat.sub_le _ _), Option.map_some, metafy_append]
  · rw [leftField_copies hp hx.le (Nat.not_le.mp hroom).le, fillBefore_metafy hp hrest]
    simp [metafy_append]

theorem padBehind_metafy {copy : Bytes → Option Bytes} (hp : p ≠ [])
    (hcopy : ∀ q, copy (metafy q) = some (metafy q)) (hx : x.length < n) (one : Option Bytes) :
    (padBehind copy (n - x.length) (one.map metafy) (metafy p)).map (metafy x ++ ·) =
      some (metafy (rightField n x (one.getD []) p)) := by
  unfold padBehind
  simp only [length_once_metafy]
  split_ifs with hroom
  · cases one with
    | none =>
      simp only [Option.getD_none, List.length_nil] at hroom
      omega
    | some one =>
      rw [rightField_once hx.le hroom]
      simp only [Option.map_some, Option.getD_some] at hroom ⊢
      rw [copyChars_metafy hroom, Option.map_some, Option.map_some, metafy_append]
  · rw [rightField_copies hp hx.le (Nat.not_le.mp hroom).le]
    cases one with
    | none =>
      simp only [Option.map_none, Option.getD_none, List.length_nil, Nat.sub_zero]
      rw [fillBehind_metafy hp hcopy]
      simp [metafy_append]
    | some one =>
      simp only [Option.map_some, Option.getD_some]
      rw [hcopy, Option.bind_some, fillBehind_metafy hp hcopy]
      simp [metafy_append]

theorem padLeft_metafy (hp : p ≠ []) (hone : a.preone = w.map metafy) :
    padLeft a (metafy p) (metafy x) = some (metafy (leftField a.prenum p (w.getD []) x)) := by
  unfold padLeft
  simp only [ztrlen_metafy]
  split_ifs with hle
  · have hlength : (x.drop (x.length - a.prenum)).length = a.prenum := by
      rw [List.length_drop]
      omega
    rw [leftField_of_le hle, skipChars_metafy (Nat.sub_le _ _), Option.bind_some,
      copyChars_metafy hlength.ge, Option.map_some, List.take_of_length_le hlength.le]
  · rw [hone]
    refine padBefore_metafy hp (fun q => ?_) (Nat.not_le.mp hle) w
    exact copyChars_all q

theorem padRight_metafy (hp : p ≠ []) (hone : a.postone = w.map metafy) :
    padRight a (metafy p) (metafy x) = some (metafy (rightField a.postnum x (w.getD []) p)) := by
  unfold padRight
  simp only [ztrlen_metafy]
  split_ifs with hle
  · rw [rightField_of_le hle, copyChars_metafy hle, Option.map_some]
  · rw [hone, copyAll_metafy, Option.bind_some]
    exact padBehind_metafy hp copyAll_metafy (Nat.not_le.mp hle) w

theorem leftHalf_metafy (hp : p ≠ []) (hone : a.preone = w.map metafy) (hk : k ≤ x.length) :
    leftHalf a (metafy p) (metafy x) k =
      some (metafy (leftField a.prenum p (w.getD []) (x.take k)), metafy (x.drop k)) := by
  have hlength : (x.take k).length = k := List.length_take_of_le hk
  unfold leftHalf
  split_ifs with hle
  · rw [leftField_of_le (by rwa [hlength]), hlength, skipChars_metafy (by omega), Option.bind_some,
      copyChars_metafy (by rw [List.length_drop]; omega), List.drop_drop, List.drop_take]
    congr 3
    · congr 1
      omega
    · congr 1
      omega
  · have hpad : (padBefore (fun _ t => some t) (a.prenum - (x.take k).length) (w.map metafy)
        (metafy p)).map (· ++ metafy (x.take k)) =
        some (metafy (leftField a.prenum p (w.getD []) (x.take k))) :=
      padBefore_metafy hp (fun _ => rfl) (by rw [hlength]; exact Nat.not_le.mp hle) w
    rw [hlength, Option.map_eq_some_iff] at hpad
    obtain ⟨pad, hbefore, htext⟩ := hpad
    rw [hone, hbefore, Option.bind_some, copyChars_metafy hk, Option.map_some]
    exact congrArg (fun t => some (t, metafy (x.drop k))) htext

theorem rightHalf_metafy (hp : p ≠ []) (hone : a.postone = w.map metafy) :
    rightHalf a (metafy p) (metafy x) x.length =
      some (metafy (rightField a.postnum x (w.getD []) p)) := by
  unfold rightHalf
  split_ifs with hle
  · rw [rightField_of_le hle, copyChars_metafy hle, Option.map_some]
  · rw [hone]
    exact padBehind_metafy hp (fun _ => rfl) (Nat.not_le.mp hle) w

theorem defaultPad_metafy (ifs : Option Bytes) :
    defaultPad (ifs.map metafy) = metafy ((ifs.getD [32, 9, 10, 0]).take 1) := by
  cases ifs with
  | none => rfl
  | some ifs =>
    cases ifs with
    | nil => rfl
    | cons c ifs =>
      show ((metaChar (metafy (c :: ifs))).map Prod.fst).getD [] = metafy [c]
      rw [metaChar_cons]
      rfl

theorem metafy_eq_nil : metafy x = [] ↔ x = [] := by
  cases x with
  | nil => exact iff_of_true rfl rfl
  | cons c x =>
    rw [metafy_cons]
    split_ifs <;> simp

theorem nonEmpty_metafy (dflt p : Bytes) :
    nonEmpty (metafy dflt) (metafy p) = metafy (nonEmpty dflt p) := by
  unfold nonEmpty
  by_cases hp : p = []
  · rw [if_pos hp, if_pos (metafy_eq_nil.mpr hp)]
  · rw [if_neg hp, if_neg fun h => hp (metafy_eq_nil.mp h)]

theorem nonEmpty_ne_nil {dflt : Bytes} (h : dflt ≠ []) (p : Bytes) : nonEmpty dflt p ≠ [] := by
  unfold nonEmpty
  split_ifs with hp
  · exact h
  · exact hp

theorem padding_ne_nil (hifs : ifs ≠ some []) (p : Option Bytes) : padding ifs p ≠ [] := by
  refine nonEmpty_ne_nil ?_ _
  cases ifs with
  | none => exact List.cons_ne_nil _ _
  | some ifs =>
    cases ifs with
    | nil => exact absurd rfl hifs
    | cons c ifs => exact List.cons_ne_nil _ _

theorem padding_metafy (ifs p : Option Bytes) :
    nonEmpty (defaultPad (ifs.map metafy)) ((p.map metafy).getD []) = metafy (padding ifs p) := by
  rw [getD_metafy, defaultPad_metafy, nonEmpty_metafy]
  rfl

def given (ifs p : Option Bytes) : Option Bytes :=
  p.map (nonEmpty ((ifs.getD [32, 9, 10, 0]).take 1))

theorem once_metafy (ifs p : Option Bytes) :
    (p.map metafy).map (nonEmpty (defaultPad (ifs.map metafy))) = (given ifs p).map metafy := by
  cases p with
  | none => rfl
  | some p =>
    rw [defaultPad_metafy]
    exact congrArg some (nonEmpty_metafy _ p)

/-! ## The call -/

theorem int_int_add (m n : Int) : int (int m + n) = int (m + n) := by
  unfold int
  omega

theorem int_once (m : Int) (w : Option Bytes) :
    (if (w.map metafy).isSome then int (int m + ((w.map metafy).getD []).length) else int m) =
      int (m + (metafy (w.getD [])).length) := by
  cases w with
  | none => simp [metafy]
  | some w => exact int_int_add _ _

def Args.filled (ifs : Option Bytes) (a : Args) : Args :=
  { a.metafy with preone := (given ifs a.preone).map Zsh.metafy
                  postone := (given ifs a.postone).map Zsh.metafy }

theorem written_eq (hifs : ifs ≠ some []) (a : Args) (x : Bytes) :
    (if a.prenum ≠ 0 then
      if a.postnum ≠ 0 then
        padBoth (a.filled ifs) (metafy (padding ifs a.premul)) (metafy (padding ifs a.postmul))
          (metafy x)
      else padLeft (a.filled ifs) (metafy (padding ifs a.premul)) (metafy x)
    else if a.postnum ≠ 0 then
      padRight (a.filled ifs) (metafy (padding ifs a.postmul)) (metafy x)
    else some []) = some (metafy (field ifs a x)) := by
  have hpre := padding_ne_nil hifs a.premul
  have hpost := padding_ne_nil hifs a.postmul
  unfold field
  by_cases hprenum : a.prenum = 0
  · rw [if_neg (not_not.mpr hprenum)]
    by_cases hpostnum : a.postnum = 0
    · rw [if_neg (not_not.mpr hpostnum), if_pos hpostnum, hprenum, leftField_of_le (Nat.zero_le _),
        Nat.sub_zero, List.drop_length]
      rfl
    · rw [if_pos hpostnum, if_neg hpostnum, if_pos hprenum]
      exact padRight_metafy hpost rfl
  · rw [if_pos hprenum]
    by_cases hpostnum : a.postnum = 0
    · rw [if_neg (not_not.mpr hpostnum), if_pos hpostnum]
      exact padLeft_metafy hpre rfl
    · have hleft := leftHalf_metafy (a := a.filled ifs) (x := x) hpre rfl
        (Nat.div_le_self x.length 2)
      have hright := rightHalf_metafy (a := a.filled ifs) (x := x.drop (x.length / 2)) hpost rfl
      rw [List.length_drop] at hright
      rw [if_pos hpostnum, if_neg hpostnum, if_neg hprenum]
      unfold padBoth
      simp only [ztrlen_metafy]
      rw [hleft, Option.bind_some]
      dsimp only
      rw [hright, Option.map_some, ← metafy_append]
      rfl

theorem dopadding_eq (hifs : ifs ≠ some []) (hlength : int (a.prenum + a.postnum) ≠ x.length) :
    dopadding (ifs.map metafy) a.metafy (metafy x) =
      some { text := metafy (field ifs a x)
             buffer := some { size := int (required ifs a x + 1)
                              written := (metafy (field ifs a x)).length + 1 } } := by
  have hwritten := written_eq hifs a x
  unfold dopadding
  simp only [Args.metafy, once_metafy, padding_metafy, ztrlen_metafy]
  rw [if_neg hlength, int_once, int_once, int_int_add]
  simp only [Args.filled, Args.metafy] at hwritten
  rw [hwritten, Option.map_some]
  have hsum : (metafy x).length + (metafy (padding ifs a.premul)).length * (a.prenum : Int) +
      (metafy (padding ifs a.postmul)).length * a.postnum +
      (metafy ((given ifs a.preone).getD [])).length +
      (metafy ((given ifs a.postone).getD [])).length + 1 = (required ifs a x : Int) + 1 := by
    unfold required
    push_cast
    rfl
  rw [hsum]

theorem metafy_sublist {y : Bytes} (h : List.Sublist y x) :
    (metafy y).length ≤ (metafy x).length := by
  have hcount : escapes y ≤ escapes x := h.countP_le
  have hlength := h.length_le
  rw [length_metafy, length_metafy]
  omega

theorem field_self (hboth : a.prenum = 0 ∨ a.postnum = 0) (h : a.prenum + a.postnum = x.length) :
    field ifs a x = x := by
  unfold field
  split_ifs with hpost hpre
  · rw [leftField_of_le (by omega), show x.length - a.prenum = 0 by omega, List.drop_zero]
  · rw [rightField_of_le (by omega), show a.postnum = x.length by omega, List.take_length]
  · omega

theorem int_eq_iff {m n : Nat} (hm : m < 2 ^ 32) (hn : n < 2 ^ 31) : int m = n ↔ m = n := by
  unfold int
  omega

/-- Padding gives the field exactly when its bytes fit the size that was computed for them. -/
theorem dopadding_iff (hifs : ifs ≠ some []) (hprenum : a.prenum < 2 ^ 31)
    (hpostnum : a.postnum < 2 ^ 31) (hx : x.length < 2 ^ 31)
    (hboth : a.prenum = 0 ∨ a.postnum = 0 ∨ a.prenum + a.postnum ≠ x.length) :
    Pads ifs a x ↔ a.prenum + a.postnum = x.length ∨
      ((metafy (field ifs a x)).length + 1 : Int) ≤ int (required ifs a x + 1) := by
  have hint : int (a.prenum + a.postnum) = x.length ↔ a.prenum + a.postnum = x.length := by
    have hiff := int_eq_iff (m := a.prenum + a.postnum) (by omega) hx
    rwa [Int.natCast_add] at hiff
  by_cases hwidth : a.prenum + a.postnum = x.length
  · refine iff_of_true ?_ (.inl hwidth)
    refine ⟨{ text := metafy x, buffer := none }, ?_, ?_,
      fun b hb => absurd hb (Option.not_mem_none b)⟩
    · unfold dopadding
      simp only [Args.metafy, ztrlen_metafy]
      rw [if_pos (hint.mpr hwidth)]
    · have hone : a.prenum = 0 ∨ a.postnum = 0 := by
        rcases hboth with h | h | h
        · exact .inl h
        · exact .inr h
        · exact absurd hwidth h
      rw [field_self hone hwidth]
  · rw [or_iff_right hwidth]
    have hcall := dopadding_eq (x := x) hifs fun h => hwidth (hint.mp h)
    constructor
    · rintro ⟨r, hr, -, hfits⟩
      obtain rfl := Option.some.inj (hcall.symm.trans hr)
      exact_mod_cast hfits _ rfl
    · intro hfits
      refine ⟨_, hcall, rfl, ?_⟩
      intro b hb
      obtain rfl := Option.some.inj hb
      exact_mod_cast hfits

/-- `abc` in five characters. -/
theorem dopadding_abc : Pads none ⟨5, 0, none, none, some [46], none⟩ [97, 98, 99] :=
  (dopadding_iff (by decide) (by decide) (by decide) (by decide) (.inr (.inl rfl))).mpr
    (.inr (by decide))

def square (n : Nat) : Args :=
  { prenum := n, postnum := 0, preone := none, postone := none
    premul := some (List.replicate n 97), postmul := none }

theorem not_pads_square {n : Nat} (hpos : 0 < n) (hn : n < 2 ^ 31)
    (hsize : int (n * n + 1) ≤ n) : ¬Pads none (square n) [] := by
  have hcopies : metafy (List.replicate n 97) = List.replicate n 97 := by
    refine metafy_of_escapes ?_
    rw [escapes, List.countP_replicate]
    rfl
  have hpadding : padding none (square n).premul = List.replicate n 97 := by
    refine if_neg fun h => ?_
    have hlength := congrArg List.length h
    simp only [Option.getD_some, List.length_replicate, List.length_nil, square] at hlength
    omega
  have hrequired : required none (square n) [] = n * n := by
    unfold required
    rw [hpadding, hcopies, List.length_replicate]
    simp [square, once, metafy]
  have hne : padding none (square n).premul ≠ [] := padding_ne_nil (by simp) _
  have hfield : n ≤ (metafy (field none (square n) [])).length := by
    rw [length_metafy]
    have hlength : (field none (square n) []).length = n := length_leftField hne
    omega
  have hwidth : int ((square n).prenum + (square n).postnum) ≠ ([] : Bytes).length := by
    have hiff := int_eq_iff (m := n) (n := 0) (by omega) (by omega)
    intro h
    have hzero := hiff.mp (by simpa [square] using h)
    omega
  have hcall := @dopadding_eq none (square n) [] (by simp) hwidth
  rintro ⟨r, hr, -, hfits⟩
  obtain rfl := Option.some.inj (hcall.symm.trans hr)
  have hle := hfits _ rfl
  dsimp only at hle
  rw [hrequired, Int.natCast_mul] at hle
  omega

/-- The size for 65536 characters is `2 ^ 32 + 1`, which `int` takes for 1. -/
theorem not_pads_65536 : ¬Pads none (square 65536) [] :=
  not_pads_square (by decide) (by decide) (by decide)

end NextBSD.Zsh.Padding
