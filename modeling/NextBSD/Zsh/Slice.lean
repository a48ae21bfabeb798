import Mathlib.Data.List.GetD
import NextBSD.Zsh.Padding

/-!
# params.c: assignment to a slice

`a[i,j]=(…)`, `x[i,j]=…` and `x[i,j]+=…` without `MULTIBYTE` and `KSHARRAYS`, for an array and a
scalar without attributes.  A subscript is a `zlong`, which `getindex` puts into an `int`; that
`zlong` sums wrap makes no difference there.
-/

namespace NextBSD.Zsh.Slice

open Padding (int ztrlen ztrlen_metafy)

structure Value where
  start : Int
  stop : Int
  deriving DecidableEq, Repr

/-- What `getarg` gives back. -/
structure Arg where
  r : Int
  prevcharlen : Nat
  nextcharlen : Nat
  deriving DecidableEq, Repr

def charLen (c : UInt8) : Nat := if c = 0x83 then 2 else 1

/-- `for (t = s; nchars && *t; nchars--) t += (lastcharlen = MB_METACHARLEN(t))`: `t`, `nchars` and
`lastcharlen` after it. -/
def overChars : Bytes → Nat → Nat → Bytes × Nat × Nat
  | [], nchars, lastcharlen => ([], nchars, lastcharlen)
  | [c], nchars, lastcharlen =>
    if nchars = 0 then ([c], 0, lastcharlen) else ([], nchars - 1, charLen c)
  | c :: d :: t, nchars, lastcharlen =>
    if nchars = 0 then (c :: d :: t, 0, lastcharlen)
    else if c = 0x83 then overChars t (nchars - 1) (charLen c)
    else overChars (d :: t) (nchars - 1) (charLen c)

def nextLen : Bytes → Nat
  | [] => 1
  | c :: _ => charLen c

/-- `getarg` for the value `s` of a scalar, when the subscript has the value `r`. -/
def getargScalar (s : Bytes) (r : Int) : Arg :=
  if 0 < r then
    let (t, nchars, lastcharlen) := overChars s r.toNat 1
    { r := (s.length - t.length : Int) + nchars
      prevcharlen := if nchars = 0 then lastcharlen else 1
      nextcharlen := nextLen t }
  else if r = 0 then { r := 0, prevcharlen := 0, nextcharlen := nextLen s }
  else
    let nchars := ztrlen s + r
    if nchars < 0 then { r := r - s.length, prevcharlen := 1, nextcharlen := 1 }
    else
      let (t, _, lastcharlen) := overChars s nchars.toNat 1
      { r := -t.length, prevcharlen := lastcharlen, nextcharlen := nextLen t }

def getargArray (r : Int) : Arg := { r := r, prevcharlen := 1, nextcharlen := 1 }

/-- `getindex` for two subscripts; `none` for a slice before the first element, to which nothing can
be assigned. -/
def getindex (kshzerosubscript : Bool) (arg : Arg) (r : Int) : Option Value :=
  let start := int arg.r
  let stop := int r
  if 0 < start then some { start := start - arg.prevcharlen, stop := stop }
  else if start = 0 ∧ stop = 0 then
    if kshzerosubscript then some { start := 0, stop := arg.nextcharlen } else none
  else some { start := start, stop := stop }

section

variable {α : Type}

/-- `*p++ = *r++` over the values. -/
def overwrite : List α → Nat → List α → List α
  | old, _, [] => old
  | old, p, r :: val => overwrite (old.set p r) (p + 1) val

end

def setarrvalue (old : List Bytes) (v : Value) (val : List Bytes) : Option (List Bytes) :=
  if v.start = 0 ∧ v.stop = -1 then some val
  else
    let pre := old.length
    let start := (if v.start < 0 then v.start + pre else v.start).toNat
    let stop := (if v.stop < 0 then v.stop + (pre + 1) else v.stop).toNat
    let stop := if stop < start then start else stop
    let post := start + val.length + (if stop < pre then pre - stop else 0)
    if 2 ^ 31 ≤ pre ∨ 2 ^ 31 ≤ post then none
    else if pre = post then some (overwrite old start val)
    else if pre < post ∧ pre ≤ start ∧ 0 < pre then
      some (old ++ List.replicate (start - pre) [] ++ val)
    else
      some ((List.range start).map (fun i => old.getD i []) ++ val ++
        if stop < pre then old.drop stop else [])

def startOffset (zlen : Nat) (start : Int) : Nat :=
  let start := (if start < 0 then start + zlen else start).toNat
  if zlen < start then zlen else start

def endOffset (zlen : Nat) (stop : Int) : Nat :=
  if stop < 0 then
    let stop := stop + zlen
    if stop < 0 then 0 else if (zlen : Int) ≤ stop then zlen else stop.toNat + 1
  else if (zlen : Int) < stop then zlen
  else stop.toNat

def assignstrvalue (z : Bytes) (v : Value) (val : Bytes) : Option Bytes :=
  if v.start = 0 ∧ v.stop = -1 then some val
  else
    let zlen := z.length
    let start := startOffset zlen v.start
    let stop := endOffset zlen v.stop
    let newsize := start + val.length + (zlen - stop)
    if 2 ^ 31 ≤ zlen ∨ 2 ^ 31 ≤ newsize then none
    else if newsize ≠ zlen then some (z.take start ++ val ++ z.drop stop)
    else some (overwrite z start val)

/-- What `assignsparam` makes of a slice to which is added. -/
def augment (z : Bytes) (v : Value) : Value :=
  if v.start = 0 ∧ v.stop = -1 then { start := 2 ^ 31 - 1, stop := v.stop }
  else if 0 < v.stop then { start := v.stop, stop := v.stop }
  else
    let stop := int (z.length + v.stop + 1)
    { start := stop, stop := stop }

/-- `a[i,j]=(…)`. -/
def assignaparam (kshzerosubscript : Bool) (a : List Bytes) (i j : Int) (val : List Bytes) :
    Option (List Bytes) :=
  (getindex kshzerosubscript (getargArray i) j).bind fun v => setarrvalue a v val

/-- `x[i,j]=…`, and `x[i,j]+=…`. -/
def assignsparam (kshzerosubscript : Bool) (add : Bool) (z : Bytes) (i j : Int) (val : Bytes) :
    Option Bytes :=
  (getindex kshzerosubscript (getargScalar z i) (getargScalar z j).r).bind fun v =>
    assignstrvalue z (if add then augment z v else v) val

def before (n : Nat) (i : Int) : Nat := (if 0 ≤ i then i - 1 else n + i).toNat

/-- How many of `n` elements there are up to element `j`. -/
def upto (n : Nat) (j : Int) : Nat := (if 0 ≤ j then j else n + j + 1).toNat

/-- The first `s` elements, with empty ones where there are none, the values, and what is behind
the first `e`. -/
def spliceArray (a : List Bytes) (s e : Nat) (vs : List Bytes) : List Bytes :=
  (List.range s).map (fun i => a.getD i []) ++ vs ++ a.drop (max s e)

def spliceBytes (x : Bytes) (s e : Nat) (w : Bytes) : Bytes := x.take s ++ w ++ x.drop (max s e)

inductive Target
  | array (a vs : List Bytes)
  | scalar (x w : Bytes)
  | added (x w : Bytes)

def Splices (kshzerosubscript : Bool) (i j : Int) : Target → Prop
  | .array a vs =>
    assignaparam kshzerosubscript a i j vs =
      some (spliceArray a (before a.length i) (upto a.length j) vs)
  | .scalar x w =>
    assignsparam kshzerosubscript false (metafy x) i j (metafy w) =
      some (metafy (spliceBytes x (before x.length i) (upto x.length j) w))
  | .added x w =>
    assignsparam kshzerosubscript true (metafy x) i j (metafy w) =
      some (metafy (spliceBytes x (upto x.length j) (upto x.length j) w))

/-! ## Arrays -/

section

variable {α : Type}

theorem overwrite_eq (old val : List α) (p : Nat) (h : p + val.length ≤ old.length) :
    overwrite old p val = old.take p ++ val ++ old.drop (p + val.length) := by
  induction val generalizing old p with
  | nil => rw [overwrite, List.append_nil, List.length_nil, Nat.add_zero, List.take_append_drop]
  | cons r val ih =>
    rw [List.length_cons] at h ⊢
    have hp : p < old.length := by omega
    rw [overwrite, ih _ _ (by rw [List.length_set]; omega), List.take_set, List.drop_set_of_lt
      (by omega), List.take_succ_eq_append_getElem hp, List.set_append_right _ _
      (by rw [List.length_take]; omega)]
    have hzero : p - (old.take p).length = 0 := by
      rw [List.length_take]
      omega
    rw [hzero, List.set_cons_zero, show p + 1 + val.length = p + (val.length + 1) by omega,
      List.append_assoc (old.take p), List.singleton_append]

end

theorem front_of_le {a : List Bytes} {s : Nat} (h : s ≤ a.length) :
    (List.range s).map (fun i => a.getD i []) = a.take s := by
  refine List.ext_getElem ?_ fun i hi _ => ?_
  · rw [List.length_map, List.length_range, List.length_take]
    omega
  · rw [List.length_map, List.length_range] at hi
    rw [List.getElem_map, List.getElem_range, List.getElem_take,
      List.getD_eq_getElem _ _ (by omega)]

theorem front_of_ge {a : List Bytes} {s : Nat} (h : a.length ≤ s) :
    (List.range s).map (fun i => a.getD i []) = a ++ List.replicate (s - a.length) [] := by
  refine List.ext_getElem ?_ fun i hi _ => ?_
  · rw [List.length_map, List.length_range, List.length_append, List.length_replicate]
    omega
  · rw [List.length_map, List.length_range] at hi
    rw [List.getElem_map, List.getElem_range]
    by_cases hlt : i < a.length
    · rw [List.getD_eq_getElem _ _ hlt, List.getElem_append_left hlt]
    · rw [List.getD_eq_default _ _ (by omega), List.getElem_append_right (by omega),
        List.getElem_replicate]

theorem length_spliceArray (a vs : List Bytes) (s e : Nat) :
    (spliceArray a s e vs).length = s + vs.length + (a.length - max s e) := by
  simp [spliceArray, Nat.add_assoc]

theorem setarrvalue_eq (old val : List Bytes) (v : Value) :
    setarrvalue old v val =
      if v.start = 0 ∧ v.stop = -1 then some val
      else
        let s := (if v.start < 0 then v.start + old.length else v.start).toNat
        let e := (if v.stop < 0 then v.stop + (old.length + 1) else v.stop).toNat
        if 2 ^ 31 ≤ old.length ∨ 2 ^ 31 ≤ (spliceArray old s e val).length then none
        else some (spliceArray old s e val) := by
  unfold setarrvalue
  dsimp only
  generalize (if v.start < 0 then v.start + (old.length : Int) else v.start).toNat = s
  generalize (if v.stop < 0 then v.stop + ((old.length : Int) + 1) else v.stop).toNat = e
  have hmax : (if e < s then s else e) = max s e := by
    split_ifs <;> omega
  have hpost : s + val.length + (if max s e < old.length then old.length - max s e else 0) =
      (spliceArray old s e val).length := by
    rw [length_spliceArray]
    split_ifs <;> omega
  rw [hmax, hpost]
  refine if_congr Iff.rfl rfl (if_congr Iff.rfl rfl ?_)
  have hlength := length_spliceArray old val s e
  split_ifs with hsame hextend hrest
  · have hle : s + val.length ≤ old.length := by omega
    rw [overwrite_eq old val s hle, spliceArray, front_of_le (by omega)]
    have hdrop : old.drop (s + val.length) = old.drop (max s e) := by
      by_cases hmaxle : max s e ≤ old.length
      · rw [show s + val.length = max s e by omega]
      · rw [List.drop_eq_nil_of_le (by omega), List.drop_eq_nil_of_le (by omega)]
    rw [hdrop]
  · rw [spliceArray, front_of_ge hextend.2.1, List.drop_eq_nil_of_le (by omega), List.append_nil]
  · rfl
  · rw [spliceArray, List.drop_eq_nil_of_le (by omega)]

theorem spliceArray_whole (a vs : List Bytes) : spliceArray a 0 a.length vs = vs := by
  rw [spliceArray, List.drop_eq_nil_of_le (by omega), List.append_nil]
  rfl

theorem setarrvalue_places (old val : List Bytes) (i j : Int) :
    setarrvalue old { start := if 0 < i then i - 1 else i, stop := j } val =
      if (i = 0 ∨ i = 1) ∧ j = -1 ∨ old.length < 2 ^ 31 ∧
          (spliceArray old (before old.length i) (upto old.length j) val).length < 2 ^ 31 then
        some (spliceArray old (before old.length i) (upto old.length j) val)
      else none := by
  have hs : (if (if 0 < i then i - 1 else i) < 0 then (if 0 < i then i - 1 else i) + old.length
      else if 0 < i then i - 1 else i).toNat = before old.length i := by
    unfold before
    split_ifs <;> omega
  have he : (if j < 0 then j + (old.length + 1) else j).toNat = upto old.length j := by
    unfold upto
    split_ifs <;> omega
  rw [setarrvalue_eq]
  dsimp only
  rw [hs, he]
  by_cases hwhole : (i = 0 ∨ i = 1) ∧ j = -1
  · have hbefore : before old.length i = 0 := by
      unfold before
      split_ifs <;> omega
    have hupto : upto old.length j = old.length := by
      unfold upto
      split_ifs <;> omega
    rw [if_pos ⟨by split_ifs <;> omega, hwhole.2⟩, if_pos (.inl hwhole), hbefore, hupto,
      spliceArray_whole]
  · have hcode : ¬((if 0 < i then i - 1 else i) = 0 ∧ j = -1) := fun h =>
      hwhole ⟨by have := h.1; split_ifs at this <;> omega, h.2⟩
    rw [if_neg hcode]
    by_cases hroom : old.length < 2 ^ 31 ∧
        (spliceArray old (before old.length i) (upto old.length j) val).length < 2 ^ 31
    · rw [if_neg (not_or.mpr ⟨Nat.not_le.mpr hroom.1, Nat.not_le.mpr hroom.2⟩),
        if_pos (.inr hroom)]
    · rw [if_pos (by by_contra hnot; exact hroom (by omega)), if_neg (not_or.mpr ⟨hwhole, hroom⟩)]

/-- The element that `j` names when `i` and `j` are 0 as an `int`. -/
def lastElement (i j : Int) : Int := if int i = 0 ∧ int j = 0 then 1 else int j

theorem assignaparam_eq (kshzerosubscript : Bool) (a vs : List Bytes) (i j : Int) :
    assignaparam kshzerosubscript a i j vs =
      if int i = 0 ∧ int j = 0 ∧ kshzerosubscript = false then none
      else if (int i = 0 ∨ int i = 1) ∧ lastElement i j = -1 ∨ a.length < 2 ^ 31 ∧ (spliceArray a
          (before a.length (int i)) (upto a.length (lastElement i j)) vs).length < 2 ^ 31 then
        some (spliceArray a (before a.length (int i)) (upto a.length (lastElement i j)) vs)
      else none := by
  unfold assignaparam getindex getargArray lastElement
  dsimp only
  rw [← setarrvalue_places]
  by_cases hpos : 0 < int i
  · rw [if_pos hpos, if_neg (by omega), if_pos hpos, if_neg (by omega)]
    rfl
  · rw [if_neg hpos, if_neg hpos]
    by_cases hzero : int i = 0 ∧ int j = 0
    · rw [if_pos hzero, if_pos hzero]
      cases kshzerosubscript with
      | true => rw [if_pos rfl, if_neg (fun h => nomatch h.2.2), hzero.1]; rfl
      | false => rw [if_neg Bool.false_ne_true, if_pos ⟨hzero.1, hzero.2, rfl⟩]; rfl
    · rw [if_neg hzero, if_neg hzero, if_neg fun h => hzero ⟨h.1, h.2.1⟩]
      rfl

/-- When the assignment to the elements of an array is a splice: as an `int` the subscripts are not
both 0, the lengths are an `int`, and to take the subscripts as an `int` changes nothing. -/
def ArrayPlain (kshzerosubscript : Bool) (i j : Int) (a vs : List Bytes) : Prop :=
  ¬(int i = 0 ∧ int j = 0 ∧ kshzerosubscript = false) ∧
  ((int i = 0 ∨ int i = 1) ∧ lastElement i j = -1 ∨ a.length < 2 ^ 31 ∧
    (spliceArray a (before a.length i) (upto a.length j) vs).length < 2 ^ 31) ∧
  spliceArray a (before a.length (int i)) (upto a.length (lastElement i j)) vs =
    spliceArray a (before a.length i) (upto a.length j) vs

theorem splices_array_iff (kshzerosubscript : Bool) (i j : Int) (a vs : List Bytes) :
    Splices kshzerosubscript i j (.array a vs) ↔ ArrayPlain kshzerosubscript i j a vs := by
  show assignaparam kshzerosubscript a i j vs = _ ↔ _
  rw [assignaparam_eq]
  unfold ArrayPlain
  by_cases hempty : int i = 0 ∧ int j = 0 ∧ kshzerosubscript = false
  · rw [if_pos hempty]
    exact iff_of_false nofun fun h => h.1 hempty
  · rw [if_neg hempty]
    split_ifs with hroom
    · constructor
      · intro h
        have heq := Option.some.inj h
        exact ⟨hempty, heq ▸ hroom, heq⟩
      · exact fun h => congrArg some h.2.2
    · exact iff_of_false nofun fun h => hroom (h.2.2 ▸ h.2.1)

theorem int_of_range {n : Int} (h : -2 ^ 31 ≤ n ∧ n < 2 ^ 31) : int n = n := by
  unfold int
  omega

theorem arrayPlain_of_int (kshzerosubscript : Bool) {i j : Int} (hne : i ≠ 0)
    (hi : -2 ^ 31 ≤ i ∧ i < 2 ^ 31) (hj : -2 ^ 31 ≤ j ∧ j < 2 ^ 31) (a vs : List Bytes) :
    ArrayPlain kshzerosubscript i j a vs ↔ i = 1 ∧ j = -1 ∨ a.length < 2 ^ 31 ∧
      (spliceArray a (before a.length i) (upto a.length j) vs).length < 2 ^ 31 := by
  unfold ArrayPlain lastElement
  rw [int_of_range hi, int_of_range hj, if_neg fun h => hne h.1]
  refine ⟨fun h => h.2.1.imp (fun hw => ⟨hw.1.resolve_left hne, hw.2⟩) id,
    fun h => ⟨fun h => hne h.1, h.imp (fun hw => ⟨.inr hw.1, hw.2⟩) id, rfl⟩⟩

/-- Where the bytes of a metafied string are whose first `k` are given. -/
def offset (x : Bytes) (k : Nat) : Nat := (metafy (x.take k)).length

theorem metafy_take_drop (x : Bytes) (k : Nat) :
    metafy (x.take k) ++ metafy (x.drop k) = metafy x := by
  rw [← metafy_append, List.take_append_drop]

theorem take_offset (x : Bytes) (k : Nat) : (metafy x).take (offset x k) = metafy (x.take k) := by
  rw [← metafy_take_drop x k, offset, List.take_left]

theorem drop_offset (x : Bytes) (k : Nat) : (metafy x).drop (offset x k) = metafy (x.drop k) := by
  rw [← metafy_take_drop x k, offset, List.drop_left]

theorem length_drop_offset (x : Bytes) (k : Nat) :
    (metafy (x.drop k)).length + offset x k = (metafy x).length := by
  rw [← metafy_take_drop x k, List.length_append, offset, Nat.add_comm]

theorem offset_all {x : Bytes} {k : Nat} (h : x.length ≤ k) : offset x k = (metafy x).length := by
  rw [offset, List.take_of_length_le h]

theorem offset_zero (x : Bytes) : offset x 0 = 0 := rfl

theorem offset_le (x : Bytes) (k : Nat) : offset x k ≤ (metafy x).length := by
  have hlength := length_drop_offset x k
  omega

theorem length_metafy_singleton (c : UInt8) : (metafy [c]).length = if imeta c then 2 else 1 := by
  rw [length_metafy, escapes, List.countP_singleton, List.length_singleton]
  split_ifs <;> rfl

theorem offset_succ {x : Bytes} {k : Nat} (h : k < x.length) :
    offset x (k + 1) = offset x k + if imeta x[k] then 2 else 1 := by
  rw [offset, List.take_succ_eq_append_getElem h, metafy_append, List.length_append,
    length_metafy_singleton]
  rfl

theorem offset_add_le (x : Bytes) {k m : Nat} (h : k + m ≤ x.length) :
    offset x k + m ≤ offset x (k + m) := by
  induction m with
  | zero => exact Nat.le_refl _
  | succ m ih =>
    have hstep := offset_succ (x := x) (k := k + m) (by omega)
    have hle := ih (by omega)
    show offset x k + (m + 1) ≤ offset x (k + m + 1)
    split_ifs at hstep <;> omega

theorem offset_lt (x : Bytes) {k m : Nat} (h : k < m) (hm : m ≤ x.length) :
    offset x k < offset x m := by
  have hle := offset_add_le x (k := k) (m := m - k) (by omega)
  rw [show k + (m - k) = m by omega] at hle
  omega

theorem overChars_zero (s : Bytes) (lastcharlen : Nat) :
    overChars s 0 lastcharlen = (s, 0, lastcharlen) := by
  rcases s with _ | ⟨c, _ | ⟨d, t⟩⟩ <;> rfl

theorem charLen_of_plain {c : UInt8} (h : imeta c = false) : charLen c = 1 ∧ c ≠ 0x83 := by
  have hne : c ≠ 0x83 := by
    rintro rfl
    exact absurd h (by decide)
  exact ⟨if_neg hne, hne⟩

theorem overChars_cons (c : UInt8) (x : Bytes) (nchars lastcharlen : Nat) :
    overChars (metafy (c :: x)) (nchars + 1) lastcharlen =
      overChars (metafy x) nchars (metafy [c]).length := by
  rw [metafy_cons, length_metafy_singleton]
  by_cases hc : imeta c = true
  · rw [if_pos hc, if_pos hc]
    show overChars (0x83 :: (c ^^^ 32) :: metafy x) (nchars + 1) lastcharlen = _
    rw [overChars, if_neg (Nat.succ_ne_zero nchars), if_pos rfl]
    rfl
  · obtain ⟨hlen, hne⟩ := charLen_of_plain (Bool.eq_false_iff.mpr hc)
    rw [if_neg hc, if_neg hc, List.singleton_append]
    cases hx : metafy x with
    | nil =>
      show ([], nchars, charLen c) = overChars [] nchars 1
      rw [hlen]
      rfl
    | cons d t =>
      rw [overChars, if_neg (Nat.succ_ne_zero nchars), if_neg hne, hlen]
      rfl

theorem overChars_metafy (x : Bytes) (nchars lastcharlen : Nat) :
    (overChars (metafy x) nchars lastcharlen).1 = metafy (x.drop nchars) ∧
      (overChars (metafy x) nchars lastcharlen).2.1 = nchars - x.length := by
  induction x generalizing nchars lastcharlen with
  | nil =>
    refine ⟨?_, (Nat.sub_zero nchars).symm⟩
    rw [List.drop_nil]
    rfl
  | cons c x ih =>
    cases nchars with
    | zero =>
      rw [overChars_zero]
      exact ⟨rfl, (Nat.zero_sub _).symm⟩
    | succ nchars =>
      rw [overChars_cons, List.drop_succ_cons, List.length_cons, Nat.add_sub_add_right]
      exact ih nchars _

theorem overChars_last (x : Bytes) {nchars : Nat} (lastcharlen : Nat) (h : nchars < x.length) :
    (overChars (metafy x) (nchars + 1) lastcharlen).2.2 + offset x nchars =
      offset x (nchars + 1) := by
  induction x generalizing nchars lastcharlen with
  | nil => exact absurd h (Nat.not_lt_zero _)
  | cons c x ih =>
    rw [overChars_cons]
    cases nchars with
    | zero =>
      rw [overChars_zero]
      rfl
    | succ nchars =>
      rw [List.length_cons] at h
      have hstep := ih (metafy [c]).length (show nchars < x.length by omega)
      have hcons (k : Nat) : offset (c :: x) (k + 1) = (metafy [c]).length + offset x k := by
        rw [offset, List.take_succ_cons, ← List.singleton_append, metafy_append,
          List.length_append]
        rfl
      rw [hcons, hcons]
      omega

theorem offset_mono (x : Bytes) {k m : Nat} (h : k ≤ m) : offset x k ≤ offset x m :=
  Padding.metafy_sublist (List.take_sublist_take_left h)

end NextBSD.Zsh.Slice
