import Mathlib
import NextBSD.Library.Tables

/-!
# parse.c: words for strings

A `wordcode` has 32 bits.  The word of a string holds the string itself, if it has at most three
bytes, or else where it is in the string table.  The lowest bit says if the string has tokens.
-/

namespace NextBSD.Zsh

abbrev Wordcode := Nat

/-- A C string, without its `NUL`. -/
structure CStr where
  bytes : List UInt8
  nul : 0 ∉ bytes
  deriving DecidableEq, Repr

def CStr.memory (s : CStr) : List UInt8 := s.bytes ++ [0]

def itok (c : UInt8) : Bool := 0x84 ≤ c && c ≤ 0xa1

def hasToken (s : CStr) : Bool := s.bytes.any itok

def hasher (s : CStr) : Nat := s.bytes.foldl (fun h c => (h + (h <<< 5) + c.toNat) % 2 ^ 32) 0

def strcmp : List UInt8 → List UInt8 → Int
  | [], [] => 0
  | [], b :: _ => -(b.toNat : Int)
  | a :: _, [] => a.toNat
  | a :: as, b :: bs => if a = b then strcmp as bs else (a.toNat : Int) - b.toNat

def shortCode (s : CStr) : Wordcode :=
  let c := if hasToken s then 3 else 2
  match s.bytes with
  | [] => if hasToken s then 7 else 6
  | [s0] => c ||| s0.toNat <<< 3
  | [s0, s1] => c ||| s1.toNat <<< 11 ||| s0.toNat <<< 3
  | s0 :: s1 :: s2 :: _ => c ||| s2.toNat <<< 19 ||| s1.toNat <<< 11 ||| s0.toNat <<< 3

/-- The word of a string that is `off` bytes after the base of its table. -/
def longCode (off : Nat) (s : CStr) : Wordcode :=
  (off <<< 2 ||| if hasToken s then 1 else 0) % 2 ^ 32

/-- `struct eccstr`; its children are in the tree. -/
structure Eccstr where
  str : CStr
  offs : Wordcode
  aoffs : Nat
  nfunc : Nat
  hashval : Nat
  deriving DecidableEq, Repr

/-- How the node `p` compares with a string of the function `nfunc`. -/
def eccstrcmp (nfunc : Nat) (s : CStr) (p : Eccstr) : Int :=
  let cmp : Int := (p.nfunc : Int) - nfunc
  if cmp ≠ 0 then cmp
  else
    let cmp := ((p.hashval : Int) - hasher s).bmod (2 ^ 32)
    if cmp ≠ 0 then cmp else strcmp p.str.bytes s.bytes

/-- The C string at an offset of a table, if its `NUL` is in the table. -/
def cstring (tab : List UInt8) (off : Nat) : Option (List UInt8) :=
  if 0 ∈ tab.drop off then some ((tab.drop off).takeWhile (· ≠ 0)) else none

/-- `ecgetstr` of the word `c`: the string and its token flag.  `none` is a read that leaves the
table. -/
def ecgetstr (tab : List UInt8) (c : Wordcode) : Option (List UInt8 × Bool) :=
  if c = 6 ∨ c = 7 then some ([], c.testBit 0)
  else if c.testBit 1 then
    let buf := [(c >>> 3) &&& 0xff, (c >>> 11) &&& 0xff, (c >>> 19) &&& 0xff].map UInt8.ofNat
    some (buf.takeWhile (· ≠ 0), c.testBit 0)
  else (cstring tab (c >>> 2)).map (·, c.testBit 0)

theorem strcmp_eq_zero {a b : List UInt8} (ha : 0 ∉ a) (hb : 0 ∉ b) (h : strcmp a b = 0) :
    a = b := by
  have hzero {c : UInt8} (hc : c.toNat = 0) : c = 0 := UInt8.toNat_inj.mp hc
  induction a generalizing b with
  | nil =>
    cases b with
    | nil => rfl
    | cons y b =>
      have hy : -(y.toNat : Int) = 0 := h
      have h0 : y = 0 := hzero (by omega)
      exact absurd (h0 ▸ List.mem_cons_self) hb
  | cons x a ih =>
    cases b with
    | nil =>
      have hx : (x.toNat : Int) = 0 := h
      have h0 : x = 0 := hzero (by omega)
      exact absurd (h0 ▸ List.mem_cons_self) ha
    | cons y b =>
      unfold strcmp at h
      by_cases hxy : x = y
      · rw [if_pos hxy] at h
        rw [hxy, ih (fun hm => ha (List.mem_cons_of_mem _ hm))
          (fun hm => hb (List.mem_cons_of_mem _ hm)) h]
      · rw [if_neg hxy] at h
        exact absurd (UInt8.toNat_inj.mp (by omega)) hxy

theorem eccstrcmp_eq_zero {nfunc : Nat} {s : CStr} {p : Eccstr} (h : eccstrcmp nfunc s p = 0) :
    p.nfunc = nfunc ∧ p.str = s := by
  unfold eccstrcmp at h
  dsimp only at h
  by_cases hn : (p.nfunc : Int) - nfunc ≠ 0
  · rw [if_pos hn] at h
    exact absurd h hn
  · rw [if_neg hn] at h
    refine ⟨by omega, ?_⟩
    by_cases hv : ((p.hashval : Int) - hasher s).bmod (2 ^ 32) ≠ 0
    · rw [if_pos hv] at h
      exact absurd h hv
    · rw [if_neg hv] at h
      have heq := strcmp_eq_zero p.str.nul s.nul h
      cases hp : p.str
      cases s
      rw [hp] at heq
      cases heq
      rfl

theorem takeWhile_all {l : List UInt8} (h : 0 ∉ l) : l.takeWhile (· ≠ 0) = l := by
  rw [List.takeWhile_eq_self_iff]
  exact fun b hb => decide_eq_true fun (h0 : b = 0) => h (h0 ▸ hb)

theorem takeWhile_nonzero {l : List UInt8} (h : 0 ∉ l) (rest : List UInt8) :
    (l ++ 0 :: rest).takeWhile (· ≠ 0) = l := by
  have hall : ∀ b ∈ l, decide (b ≠ 0) = true := fun b hb =>
    decide_eq_true fun (h0 : b = 0) => h (h0 ▸ hb)
  rw [List.takeWhile_append_of_pos (p := fun b => decide (b ≠ 0)) hall]
  show l ++ [] = l
  exact List.append_nil l

theorem or_shiftLeft {x i : Nat} (h : x < 2 ^ i) (y : Nat) : x ||| y <<< i = x + y * 2 ^ i := by
  rw [Nat.or_comm, ← Nat.shiftLeft_add_eq_or_of_lt h, Nat.shiftLeft_eq]
  omega

theorem or_swap (x y z : Nat) : x ||| y ||| z = x ||| z ||| y := by
  rw [Nat.or_assoc, Nat.or_comm y, ← Nat.or_assoc]

theorem inline_flags (t : Bool) : (if t then 3 else 2) = 2 + t.toNat := by cases t <;> rfl

theorem testBit_zero_flag (t : Bool) {c : Nat} (h : c % 2 = t.toNat) : c.testBit 0 = t := by
  rw [Nat.testBit_zero, h]
  cases t <;> rfl

theorem ecgetstr_inline (tab : List UInt8) (t : Bool) {s0 : UInt8} (h0 : s0 ≠ 0) (s1 s2 : UInt8) :
    ecgetstr tab (2 + t.toNat + s0.toNat * 2 ^ 3 + s1.toNat * 2 ^ 11 + s2.toNat * 2 ^ 19) =
      some ([s0, s1, s2].takeWhile (· ≠ 0), t) := by
  obtain ⟨c, hc⟩ : ∃ c, c = 2 + t.toNat + s0.toNat * 2 ^ 3 + s1.toNat * 2 ^ 11 +
    s2.toNat * 2 ^ 19 := ⟨_, rfl⟩
  have hpos : s0.toNat ≠ 0 := fun h => h0 (UInt8.toNat_inj.mp h)
  have hl0 := s0.toNat_lt
  have hl1 := s1.toNat_lt
  have hl2 := s2.toNat_lt
  have ht : t.toNat ≤ 1 := Bool.toNat_le t
  have hbit0 : c.testBit 0 = t := testBit_zero_flag t (by omega)
  have hbit1 : c.testBit 1 = true := by
    rw [Nat.testBit_eq_decide_div_mod_eq]
    exact decide_eq_true (by omega)
  have hbyte (b : UInt8) (i : Nat) (h : c / 2 ^ i % 2 ^ 8 = b.toNat) :
      UInt8.ofNat ((c >>> i) &&& 0xff) = b := by
    rw [show 0xff = 2 ^ 8 - 1 from rfl, Nat.and_two_pow_sub_one_eq_mod, Nat.shiftRight_eq_div_pow, h]
    exact UInt8.ofNat_toNat
  have hempty : ¬(c = 6 ∨ c = 7) := by omega
  rw [← hc]
  unfold ecgetstr
  rw [if_neg hempty, if_pos hbit1, hbit0]
  simp only [List.map_cons, List.map_nil]
  rw [hbyte s0 3 (by omega), hbyte s1 11 (by omega), hbyte s2 19 (by omega)]

theorem ecgetstr_shortCode (tab : List UInt8) {s : CStr} (h : s.bytes.length ≤ 3) :
    ecgetstr tab (shortCode s) = some (s.bytes, hasToken s) := by
  obtain ⟨bytes, nul⟩ := s
  have hle := Bool.toNat_le (hasToken ⟨bytes, nul⟩)
  match bytes, nul, h with
  | [], nul, h =>
    show ecgetstr tab 6 = some ([], false)
    rfl
  | [s0], nul, h =>
    have h0 : s0 ≠ 0 := fun h => nul (h ▸ List.mem_cons_self)
    have hcode : shortCode ⟨[s0], nul⟩ = 2 + (hasToken ⟨[s0], nul⟩).toNat + s0.toNat * 2 ^ 3 := by
      show (if _ then 3 else 2) ||| s0.toNat <<< 3 = _
      rw [inline_flags, or_shiftLeft (by omega)]
    have hread := ecgetstr_inline tab (hasToken ⟨[s0], nul⟩) h0 0 0
    simp only [UInt8.toNat_zero, Nat.zero_mul, Nat.add_zero] at hread
    rw [hcode, hread]
    exact congrArg (fun l => some (l, _)) (takeWhile_nonzero nul [0])
  | [s0, s1], nul, h =>
    have h0 : s0 ≠ 0 := fun h => nul (h ▸ List.mem_cons_self)
    have hl0 := s0.toNat_lt
    have hcode : shortCode ⟨[s0, s1], nul⟩ =
        2 + (hasToken ⟨[s0, s1], nul⟩).toNat + s0.toNat * 2 ^ 3 + s1.toNat * 2 ^ 11 := by
      show (if _ then 3 else 2) ||| s1.toNat <<< 11 ||| s0.toNat <<< 3 = _
      have hfirst := @or_shiftLeft (2 + (hasToken ⟨[s0, s1], nul⟩).toNat) 3 (by omega) s0.toNat
      rw [or_swap, inline_flags, hfirst, or_shiftLeft (by omega)]
    have hread := ecgetstr_inline tab (hasToken ⟨[s0, s1], nul⟩) h0 s1 0
    simp only [UInt8.toNat_zero, Nat.zero_mul, Nat.add_zero] at hread
    rw [hcode, hread]
    exact congrArg (fun l => some (l, _)) (takeWhile_nonzero nul [])
  | [s0, s1, s2], nul, h =>
    have h0 : s0 ≠ 0 := fun h => nul (h ▸ List.mem_cons_self)
    have hl0 := s0.toNat_lt
    have hl1 := s1.toNat_lt
    have hcode : shortCode ⟨[s0, s1, s2], nul⟩ = 2 + (hasToken ⟨[s0, s1, s2], nul⟩).toNat +
        s0.toNat * 2 ^ 3 + s1.toNat * 2 ^ 11 + s2.toNat * 2 ^ 19 := by
      show (if _ then 3 else 2) ||| s2.toNat <<< 19 ||| s1.toNat <<< 11 ||| s0.toNat <<< 3 = _
      have hfirst := @or_shiftLeft (2 + (hasToken ⟨[s0, s1, s2], nul⟩).toNat) 3 (by omega) s0.toNat
      have hsecond := @or_shiftLeft (2 + (hasToken ⟨[s0, s1, s2], nul⟩).toNat + s0.toNat * 2 ^ 3) 11
        (by omega) s1.toNat
      rw [or_swap _ (s2.toNat <<< 19), or_swap _ (s2.toNat <<< 19), or_swap _ (s1.toNat <<< 11),
        inline_flags, hfirst, hsecond, or_shiftLeft (by omega)]
    rw [hcode, ecgetstr_inline tab _ h0 s1 s2]
    exact congrArg (fun l => some (l, _)) (takeWhile_all nul)

theorem ecgetstr_longCode {tab : List UInt8} {off : Nat} {s : CStr} (hoff : off < 2 ^ 30)
    (h : (tab.drop off).take s.memory.length = s.memory) :
    ecgetstr tab (longCode off s) = some (s.bytes, hasToken s) := by
  have ht : (if hasToken s then 1 else 0) = (hasToken s).toNat := by cases hasToken s <;> rfl
  have hle := Bool.toNat_le (hasToken s)
  have hcode : longCode off s = (hasToken s).toNat + off * 2 ^ 2 := by
    unfold longCode
    rw [Nat.or_comm, ht, or_shiftLeft (by omega), Nat.mod_eq_of_lt (by omega)]
  have hbit0 : ((hasToken s).toNat + off * 2 ^ 2).testBit 0 = hasToken s :=
    testBit_zero_flag _ (by omega)
  have hbit1 : ((hasToken s).toNat + off * 2 ^ 2).testBit 1 = false := by
    rw [Nat.testBit_eq_decide_div_mod_eq]
    exact decide_eq_false (by omega)
  have hshift : ((hasToken s).toNat + off * 2 ^ 2) >>> 2 = off := by
    rw [Nat.shiftRight_eq_div_pow]
    omega
  have hdrop : tab.drop off = s.bytes ++ 0 :: (tab.drop off).drop s.memory.length := by
    conv => lhs; rw [← List.take_append_drop s.memory.length (tab.drop off), h]
    exact List.append_assoc _ _ _
  have hstring : cstring tab off = some s.bytes := by
    unfold cstring
    rw [hdrop, if_pos (List.mem_append_right _ List.mem_cons_self), takeWhile_nonzero s.nul]
  have hempty : ¬((hasToken s).toNat + off * 2 ^ 2 = 6 ∨ (hasToken s).toNat + off * 2 ^ 2 = 7) := by
    omega
  rw [hcode]
  unfold ecgetstr
  rw [if_neg hempty, if_neg (by rw [hbit1]; exact Bool.false_ne_true), hshift, hstring, hbit0]
  rfl

end NextBSD.Zsh
