import NextBSD.Util.Strtonum

/-!
# lib/util/inet_pton.c

The bytes up to `tp` are those that were written.  Strings have no `NUL`.
-/

namespace NextBSD.Util

open Iolog (Bytes isdigit)

/-- The loop of `inet_pton4`: the octets up to `tp`, and `*tp`. -/
def pton4Loop : Bool → Nat → List UInt8 → Nat → Bytes → Option (Nat × List UInt8)
  | _, octets, tmp, cur, [] => some (octets, tmp ++ [UInt8.ofNat cur])
  | sawDigit, octets, tmp, cur, ch :: src =>
    if isdigit ch then
      let new := cur * 10 + (ch - 48).toNat
      if 255 < new then none
      else if sawDigit then pton4Loop true octets tmp new src
      else if 4 < octets + 1 then none
      else pton4Loop true (octets + 1) tmp new src
    else if ch = 46 ∧ sawDigit = true then
      if octets = 4 then none
      else pton4Loop false octets (tmp ++ [UInt8.ofNat cur]) 0 src
    else none

def inetPton4 (src : Bytes) : Option (List UInt8) :=
  match pton4Loop false 0 [] 0 src with
  | some (octets, tmp) => if octets < 4 then none else some tmp
  | none => none

def xdigit (ch : UInt8) : Option Nat :=
  if isdigit ch then some (ch - 48).toNat
  else if 97 ≤ ch ∧ ch ≤ 102 then some ((ch - 97).toNat + 10)
  else if 65 ≤ ch ∧ ch ≤ 70 then some ((ch - 65).toNat + 10)
  else none

def groupBytes (val : Nat) : List UInt8 := [UInt8.ofNat (val >>> 8), UInt8.ofNat val]

/-- What the loop of `inet_pton6` leaves. -/
structure Pton6 where
  tmp : List UInt8
  colonp : Option Nat
  sawXdigit : Bool
  val : Nat
  deriving DecidableEq, Repr

def pton6Loop (state : Pton6) (curtok : Bytes) (countXdigit : Nat) : Bytes → Option Pton6
  | [] => some state
  | ch :: src =>
    match xdigit ch with
    | some d =>
      if 4 ≤ countXdigit then none
      else if 0xffff < state.val * 16 + d then none
      else pton6Loop { state with sawXdigit := true, val := state.val * 16 + d } curtok
        (countXdigit + 1) src
    | none =>
      if ch = 58 then
        if state.sawXdigit = false then
          if state.colonp.isSome then none
          else pton6Loop { state with colonp := some state.tmp.length } src countXdigit src
        else if src = [] then none
        else if 16 < state.tmp.length + 2 then none
        else pton6Loop { state with
          tmp := state.tmp ++ groupBytes state.val, sawXdigit := false, val := 0 } src 0 src
      else if ch = 46 ∧ state.tmp.length + 4 ≤ 16 then
        -- `inet_pton4` reads on to the end of the string
        match inetPton4 curtok with
        | some octets => some { state with tmp := state.tmp ++ octets, sawXdigit := false }
        | none => none
      else none

structure In6Addr where
  s6_addr : List UInt8
  size : s6_addr.length = 16
  deriving DecidableEq, Repr

def lastGroup (state : Pton6) : Option (List UInt8) :=
  if state.sawXdigit then
    if 16 < state.tmp.length + 2 then none else some (state.tmp ++ groupBytes state.val)
  else some state.tmp

/-- The zeros for `::`, and the shift of what stands behind it. -/
def fillZeros (colonp : Option Nat) (tmp : List UInt8) : Option (List UInt8) :=
  match colonp with
  | some colonp =>
    if tmp.length = 16 then none
    else some (tmp.take colonp ++ (List.replicate (16 - tmp.length) 0 ++ tmp.drop colonp))
  | none => some tmp

def pton6End (state : Pton6) : Option In6Addr := do
  let tmp ← lastGroup state
  let tmp ← fillZeros state.colonp tmp
  if h : tmp.length = 16 then some { s6_addr := tmp, size := h } else none

def inetPton6 (src : Bytes) : Option In6Addr :=
  let start : Pton6 := { tmp := [], colonp := none, sawXdigit := false, val := 0 }
  -- a leading `::` is read from its second colon on
  if src.head? = some 58 then
    if src.tail.head? = some 58 then (pton6Loop start src.tail 0 src.tail).bind pton6End else none
  else (pton6Loop start src 0 src).bind pton6End

/-! ## The characters of addresses -/

theorem pton4Loop_cons {sawDigit : Bool} {octets cur : Nat} {tmp : List UInt8} {c : UInt8}
    {src : Bytes} {found : Nat × List UInt8}
    (h : pton4Loop sawDigit octets tmp cur (c :: src) = some found) :
    (isdigit c = true ∧ (sawDigit = false → octets < 4) ∧
      pton4Loop true (if sawDigit then octets else octets + 1) tmp (cur * 10 + (c - 48).toNat) src =
        some found) ∨
    (c = 46 ∧ sawDigit = true ∧ octets ≠ 4 ∧
      pton4Loop false octets (tmp ++ [UInt8.ofNat cur]) 0 src = some found) := by
  unfold pton4Loop at h
  by_cases hdigit : isdigit c = true
  · rw [if_pos hdigit] at h
    dsimp only at h
    refine Or.inl ⟨hdigit, ?_⟩
    by_cases hbig : 255 < cur * 10 + (c - 48).toNat
    · rw [if_pos hbig] at h
      exact absurd h.symm (Option.some_ne_none _)
    · rw [if_neg hbig] at h
      cases sawDigit with
      | true => exact ⟨fun hno => absurd hno (by decide), h⟩
      | false =>
        rw [if_neg Bool.false_ne_true] at h
        by_cases hfour : 4 < octets + 1
        · rw [if_pos hfour] at h
          exact absurd h.symm (Option.some_ne_none _)
        · rw [if_neg hfour] at h
          exact ⟨fun _ => by omega, h⟩
  · rw [if_neg hdigit] at h
    by_cases hdot : c = 46 ∧ sawDigit = true
    · rw [if_pos hdot] at h
      by_cases hfour : octets = 4
      · rw [if_pos hfour] at h
        exact absurd h.symm (Option.some_ne_none _)
      · rw [if_neg hfour] at h
        exact Or.inr ⟨hdot.1, hdot.2, hfour, h⟩
    · rw [if_neg hdot] at h
      exact absurd h.symm (Option.some_ne_none _)

theorem pton4Loop_mem {sawDigit : Bool} {octets cur : Nat} {tmp : List UInt8} {src : Bytes}
    {found : Nat × List UInt8} (h : pton4Loop sawDigit octets tmp cur src = some found) :
    ∀ ch ∈ src, isdigit ch = true ∨ ch = 46 := by
  induction src generalizing sawDigit octets cur tmp with
  | nil => exact fun ch hch => absurd hch List.not_mem_nil
  | cons c src ih =>
    rw [List.forall_mem_cons]
    rcases pton4Loop_cons h with ⟨hdigit, -, hnext⟩ | ⟨hdot, -, -, hnext⟩
    · exact ⟨Or.inl hdigit, ih hnext⟩
    · exact ⟨Or.inr hdot, ih hnext⟩

theorem pton4Loop_octets {sawDigit : Bool} {octets cur : Nat} {tmp : List UInt8} {src : Bytes}
    {found : Nat × List UInt8} (hdot : 46 ∉ src)
    (h : pton4Loop sawDigit octets tmp cur src = some found) :
    found.1 ≤ if sawDigit then octets else octets + 1 := by
  induction src generalizing sawDigit octets cur tmp with
  | nil =>
    obtain rfl := Option.some.inj h
    show octets ≤ _
    split_ifs <;> omega
  | cons c src ih =>
    obtain ⟨hc, htail⟩ := not_or.mp (fun hmem => hdot (List.mem_cons.mpr hmem))
    rcases pton4Loop_cons h with ⟨-, -, hnext⟩ | ⟨rfl, -, -⟩
    · have hle := ih htail hnext
      exact hle
    · exact absurd rfl hc

theorem pton4Loop_length {sawDigit : Bool} {octets cur : Nat} {tmp : List UInt8} {src : Bytes}
    {found : Nat × List UInt8} (htmp : octets = tmp.length + (if sawDigit then 1 else 0))
    (hle : octets ≤ if sawDigit then 4 else 3)
    (h : pton4Loop sawDigit octets tmp cur src = some found) :
    found.1 ≤ 4 ∧ (found.1 = 4 → found.2.length = 4) := by
  induction src generalizing sawDigit octets cur tmp with
  | nil =>
    obtain rfl := Option.some.inj h
    show octets ≤ 4 ∧ (octets = 4 → (tmp ++ [UInt8.ofNat cur]).length = 4)
    rw [List.length_append, List.length_singleton]
    split_ifs at htmp hle <;> omega
  | cons c src ih =>
    rcases pton4Loop_cons h with ⟨-, hfour, hnext⟩ | ⟨-, rfl, hfour, hnext⟩
    · cases sawDigit with
      | true => exact ih htmp hle hnext
      | false =>
        have hlt := hfour rfl
        exact ih (congrArg (· + 1) htmp) hlt hnext
    · have hthree : octets ≤ 3 := by
        have hfive : octets ≤ 4 := hle
        omega
      refine ih ?_ hthree hnext
      rw [htmp, List.length_append]
      rfl

theorem inetPton4_text {src : Bytes} {octets : List UInt8} (h : inetPton4 src = some octets) :
    (∀ ch ∈ src, isdigit ch = true ∨ ch = 46) ∧ 46 ∈ src ∧ octets.length = 4 := by
  unfold inetPton4 at h
  split at h
  · next count tmp hloop =>
    split_ifs at h with hcount
    obtain rfl := Option.some.inj h
    refine ⟨pton4Loop_mem hloop, by_contra fun hdot => ?_, ?_⟩
    · have hone := pton4Loop_octets hdot hloop
      change count ≤ 0 + 1 at hone
      omega
    · have hzero : 0 = ([] : List UInt8).length + (if false = true then 1 else 0) := rfl
      obtain ⟨hle, hlength⟩ := pton4Loop_length hzero (Nat.zero_le 3) hloop
      exact hlength (Nat.le_antisymm hle (Nat.not_lt.mp hcount))
  · exact absurd h.symm (Option.some_ne_none _)

theorem pton6Loop_cons {state : Pton6} {curtok : Bytes} {countXdigit : Nat} {c : UInt8}
    {src : Bytes} {found : Pton6}
    (h : pton6Loop state curtok countXdigit (c :: src) = some found) :
    (c ≠ 47 ∧ c ≠ 58 ∧ countXdigit < 4 ∧ ∃ val, pton6Loop
      { state with sawXdigit := true, val := val } curtok (countXdigit + 1) src = some found) ∨
    (c = 58 ∧ ∃ state' countXdigit', pton6Loop state' src countXdigit' src = some found) ∨
    (c = 46 ∧ ∃ octets, inetPton4 curtok = some octets ∧
      found = { state with tmp := state.tmp ++ octets, sawXdigit := false }) := by
  have hnone : ∀ {p : Prop}, none = some found → p := fun h => absurd h.symm (Option.some_ne_none _)
  unfold pton6Loop at h
  cases hx : xdigit c with
  | some d =>
    rw [hx] at h
    dsimp only at h
    have hslash : c ≠ 47 ∧ c ≠ 58 := by
      have hno : xdigit 47 = none ∧ xdigit 58 = none := by decide
      constructor <;> rintro rfl
      · exact Option.some_ne_none d (hx.symm.trans hno.1)
      · exact Option.some_ne_none d (hx.symm.trans hno.2)
    refine Or.inl ⟨hslash.1, hslash.2, ?_⟩
    by_cases hcount : 4 ≤ countXdigit
    · rw [if_pos hcount] at h
      exact hnone h
    · rw [if_neg hcount] at h
      by_cases hval : 0xffff < state.val * 16 + d
      · rw [if_pos hval] at h
        exact hnone h
      · rw [if_neg hval] at h
        exact ⟨Nat.not_le.mp hcount, _, h⟩
  | none =>
    rw [hx] at h
    dsimp only at h
    by_cases hcolon : c = 58
    · rw [if_pos hcolon] at h
      refine Or.inr (Or.inl ⟨hcolon, ?_⟩)
      by_cases hsaw : state.sawXdigit = false
      · rw [if_pos hsaw] at h
        by_cases hsome : state.colonp.isSome = true
        · rw [if_pos hsome] at h
          exact hnone h
        · rw [if_neg hsome] at h
          exact ⟨_, _, h⟩
      · rw [if_neg hsaw] at h
        by_cases hend : src = []
        · rw [if_pos hend] at h
          exact hnone h
        · rw [if_neg hend] at h
          by_cases hfull : 16 < state.tmp.length + 2
          · rw [if_pos hfull] at h
            exact hnone h
          · rw [if_neg hfull] at h
            exact ⟨_, _, h⟩
    · rw [if_neg hcolon] at h
      by_cases hdot : c = 46 ∧ state.tmp.length + 4 ≤ 16
      · rw [if_pos hdot] at h
        refine Or.inr (Or.inr ⟨hdot.1, ?_⟩)
        cases hfour : inetPton4 curtok with
        | none =>
          rw [hfour] at h
          exact hnone h
        | some octets =>
          rw [hfour] at h
          exact ⟨octets, rfl, (Option.some.inj h).symm⟩
      · rw [if_neg hdot] at h
        exact hnone h

theorem pton6Loop_slash {state : Pton6} {curtok : Bytes} {countXdigit : Nat} {src : Bytes}
    {found : Pton6} (hcurtok : src <:+ curtok)
    (h : pton6Loop state curtok countXdigit src = some found) : 47 ∉ src := by
  induction src generalizing state curtok countXdigit with
  | nil => exact List.not_mem_nil
  | cons c src ih =>
    have htail : src <:+ curtok := (List.suffix_cons c src).trans hcurtok
    rcases pton6Loop_cons h with ⟨hslash, -, -, val, hnext⟩ | ⟨rfl, state', count, hnext⟩ |
      ⟨-, octets, hfour, -⟩
    · rw [List.mem_cons, not_or]
      exact ⟨hslash.symm, ih htail hnext⟩
    · rw [List.mem_cons, not_or]
      exact ⟨by decide, ih List.suffix_rfl hnext⟩
    · intro hmem
      rcases (inetPton4_text hfour).1 47 (hcurtok.subset hmem) with hdigit | hdot
      · exact absurd hdigit (by decide)
      · exact absurd hdot (by decide)

theorem pton6Loop_colon {state : Pton6} {curtok : Bytes} {countXdigit : Nat} {src : Bytes}
    {found : Pton6} (hcolon : 58 ∉ src)
    (h : pton6Loop state curtok countXdigit src = some found) :
    found.colonp = state.colonp ∧ found.tmp.length ≤ state.tmp.length + 4 := by
  induction src generalizing state countXdigit with
  | nil =>
    obtain rfl := Option.some.inj h
    exact ⟨rfl, Nat.le_add_right _ _⟩
  | cons c src ih =>
    obtain ⟨hc, htail⟩ := not_or.mp (fun hmem => hcolon (List.mem_cons.mpr hmem))
    rcases pton6Loop_cons h with ⟨-, -, -, val, hnext⟩ | ⟨rfl, -⟩ | ⟨-, octets, hfour, rfl⟩
    · have hfound := ih htail hnext
      exact hfound
    · exact absurd rfl hc
    · have hlength := (inetPton4_text hfour).2.2
      refine ⟨rfl, ?_⟩
      rw [List.length_append, hlength]

theorem inetPton6_text {src : Bytes} {addr : In6Addr} (h : inetPton6 src = some addr) :
    47 ∉ src ∧ 58 ∈ src := by
  unfold inetPton6 at h
  dsimp only at h
  by_cases hhead : src.head? = some 58
  · obtain ⟨tail, rfl⟩ := List.head?_eq_some_iff.mp hhead
    rw [if_pos hhead, List.tail_cons] at h
    by_cases hsecond : tail.head? = some 58
    · rw [if_pos hsecond] at h
      obtain ⟨found, hloop, -⟩ := Option.bind_eq_some_iff.mp h
      refine ⟨?_, List.mem_cons_self⟩
      rw [List.mem_cons, not_or]
      exact ⟨by decide, pton6Loop_slash List.suffix_rfl hloop⟩
    · rw [if_neg hsecond] at h
      exact absurd h.symm (Option.some_ne_none _)
  · rw [if_neg hhead] at h
    obtain ⟨found, hloop, hend⟩ := Option.bind_eq_some_iff.mp h
    refine ⟨pton6Loop_slash List.suffix_rfl hloop, by_contra fun hcolon => ?_⟩
    obtain ⟨hcolonp, hlength⟩ := pton6Loop_colon hcolon hloop
    change found.colonp = none at hcolonp
    change found.tmp.length ≤ 0 + 4 at hlength
    unfold pton6End at hend
    obtain ⟨tmp, htmp, hend⟩ := Option.bind_eq_some_iff.mp hend
    obtain ⟨tmp', htmp', hend⟩ := Option.bind_eq_some_iff.mp hend
    rw [hcolonp] at htmp'
    obtain rfl := Option.some.inj htmp'
    have hshort : tmp.length ≤ found.tmp.length + 2 := by
      unfold lastGroup at htmp
      split_ifs at htmp
      · obtain rfl := Option.some.inj htmp
        rw [List.length_append]
        rfl
      · obtain rfl := Option.some.inj htmp
        exact Nat.le_add_right _ _
    rw [dif_neg (by omega)] at hend
    exact absurd hend.symm (Option.some_ne_none _)

end NextBSD.Util
