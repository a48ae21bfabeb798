import Mathlib.Data.List.GetD
import Mathlib.Data.Nat.Digits.Lemmas

/-!
# pkg_checksum.c: digests in base 32

The bytes are read as one stream of bits, lowest bit first, and every five bits are a character.
-/

namespace NextBSD.Libpkg.Base32

def b32 : List Char := "ybndrfg8ejkmcpqxot1uwisza345h769".toList

def b32Char (d : Nat) : Char := b32.getD d 'y'

/-- The characters that were written, and the bits that wait for the next byte: `none` is `-1`. -/
structure Encoder where
  out : List Char
  remain : Option Nat
  deriving DecidableEq, Repr

def encodeByte (st : Encoder) (i : Nat) (c : UInt8) : Encoder :=
  let remain := st.remain.getD 0
  match i % 5 with
  | 0 => { out := st.out ++ [b32Char (c.toNat &&& 0x1f)], remain := some (c.toNat >>> 5) }
  | 1 =>
    -- 11 bits of input, 1 to remain
    let x := remain ||| c.toNat <<< 3
    { out := st.out ++ [b32Char (x &&& 0x1f)] ++ [b32Char (x >>> 5 &&& 0x1f)]
      remain := some (x >>> 10) }
  | 2 =>
    -- 9 bits of input, 4 to remain
    let x := remain ||| c.toNat <<< 1
    { out := st.out ++ [b32Char (x &&& 0x1f)], remain := some (x >>> 5) }
  | 3 =>
    -- 12 bits of input, 2 to remain
    let x := remain ||| c.toNat <<< 4
    { out := st.out ++ [b32Char (x &&& 0x1f)] ++ [b32Char (x >>> 5 &&& 0x1f)]
      remain := some (x >>> 10 &&& 0x3) }
  | _ =>
    -- 10 bits of input, nothing to remain
    let x := remain ||| c.toNat <<< 2
    { out := st.out ++ [b32Char (x &&& 0x1f)] ++ [b32Char (x >>> 5 &&& 0x1f)], remain := none }

def encodeLoop (st : Encoder) (i : Nat) : List UInt8 → Encoder
  | [] => st
  | c :: rest => encodeLoop (encodeByte st i c) (i + 1) rest

/-- `pkg_checksum_encode_base32`: what is written to `out`, unless its length is refused. -/
def encodeBase32 (bytes : List UInt8) (outlen : Nat) : Option (List Char) :=
  if outlen < bytes.length * 8 / 5 then none
  else
    let st := encodeLoop { out := [], remain := none } 0 bytes
    match st.remain with
    | some remain => some (st.out ++ [b32Char remain] ++ ['\x00'])
    | none => some (st.out ++ ['\x00'])

/-! ## The stream of bits -/

theorem b32Char_mem {d : Nat} (h : d < 32) : b32Char d ∈ b32 := by
  have hlength : d < b32.length := h
  unfold b32Char
  rw [List.getD_eq_getElem b32 'y' hlength]
  exact List.getElem_mem hlength

theorem b32Char_inj {d e : Nat} (hd : d < 32) (he : e < 32) (h : b32Char d = b32Char e) :
    d = e := by
  have hnodup : b32.Nodup := by decide
  unfold b32Char at h
  rw [List.getD_eq_getElem b32 'y' hd, List.getD_eq_getElem b32 'y' he] at h
  exact hnodup.getElem_inj_iff.mp h

def value (bytes : List UInt8) : Nat := Nat.ofDigits 256 (bytes.map UInt8.toNat)

/-- `out` has the low digits of the bytes `bytes`, and `x` the `w` bits above them. -/
def Holds (bytes : List UInt8) (out : List Char) (x w : Nat) : Prop :=
  ∃ digits : List Nat, (∀ d ∈ digits, d < 32) ∧ out = digits.map b32Char ∧
    5 * digits.length + w = 8 * bytes.length ∧ x < 2 ^ w ∧
    Nat.ofDigits 32 digits + 32 ^ digits.length * x = value bytes

theorem Holds.empty : Holds [] [] 0 0 := by
  refine ⟨[], fun d h => absurd h List.not_mem_nil, rfl, rfl, Nat.one_pos, rfl⟩

theorem Holds.byte {bytes : List UInt8} {out : List Char} {x w : Nat} (h : Holds bytes out x w)
    (c : UInt8) : Holds (bytes ++ [c]) out (x ||| c.toNat <<< w) (w + 8) := by
  obtain ⟨digits, hdigits, hout, hlength, hx, hvalue⟩ := h
  have hor : x ||| c.toNat <<< w = x + 2 ^ w * c.toNat := by
    rw [Nat.or_comm, ← Nat.shiftLeft_add_eq_or_of_lt hx, Nat.shiftLeft_eq, Nat.mul_comm,
      Nat.add_comm]
  have hpow : (256 : Nat) ^ bytes.length = 32 ^ digits.length * 2 ^ w := by
    calc (256 : Nat) ^ bytes.length = 2 ^ (8 * bytes.length) := by rw [Nat.pow_mul]
      _ = 2 ^ (5 * digits.length) * 2 ^ w := by rw [← hlength, Nat.pow_add]
      _ = 32 ^ digits.length * 2 ^ w := by rw [Nat.pow_mul]
  have hc : c.toNat < 256 := c.toNat_lt
  refine ⟨digits, hdigits, hout, ?_, ?_, ?_⟩
  · rw [List.length_append, List.length_singleton]
    omega
  · rw [hor, Nat.pow_add]
    have hmul : 2 ^ w * (c.toNat + 1) ≤ 2 ^ w * 2 ^ 8 := Nat.mul_le_mul_left _ hc
    rw [Nat.mul_add, Nat.mul_one] at hmul
    omega
  · have happend : value (bytes ++ [c]) = value bytes + 256 ^ bytes.length * c.toNat := by
      unfold value
      rw [List.map_append, Nat.ofDigits_append, List.length_map, List.map_singleton,
        Nat.ofDigits_singleton]
    rw [happend, ← hvalue, hor, hpow, Nat.mul_add, Nat.mul_assoc, Nat.add_assoc]

theorem Holds.emit {bytes : List UInt8} {out : List Char} {x w : Nat}
    (h : Holds bytes out x (w + 5)) :
    Holds bytes (out ++ [b32Char (x &&& 0x1f)]) (x >>> 5) w := by
  obtain ⟨digits, hdigits, hout, hlength, hx, hvalue⟩ := h
  have hand : x &&& 0x1f = x % 32 := Nat.and_two_pow_sub_one_eq_mod x 5
  have hshift : x >>> 5 = x / 32 := Nat.shiftRight_eq_div_pow x 5
  rw [hand, hshift]
  refine ⟨digits ++ [x % 32], ?_, ?_, ?_, ?_, ?_⟩
  · intro d hd
    rcases List.mem_append.mp hd with hd | hd
    · exact hdigits d hd
    · rw [List.mem_singleton.mp hd]
      exact Nat.mod_lt x (by decide)
  · rw [hout, List.map_append, List.map_singleton]
  · rw [List.length_append, List.length_singleton]
    omega
  · rw [Nat.pow_add] at hx
    exact Nat.div_lt_of_lt_mul (by omega)
  · rw [Nat.ofDigits_append, Nat.ofDigits_singleton, List.length_append, List.length_singleton,
      Nat.pow_succ, Nat.mul_assoc, Nat.add_assoc, ← Nat.mul_add, Nat.mod_add_div, hvalue]

def waiting (i : Nat) : Nat := [0, 3, 1, 4, 2].getD (i % 5) 0

/-- What the loop keeps: nothing waits exactly when a group of five bytes is complete. -/
structure Encodes (st : Encoder) (bytes : List UInt8) : Prop where
  holds : Holds bytes st.out (st.remain.getD 0) (waiting bytes.length)
  none_iff : st.remain = none ↔ bytes.length % 5 = 0

theorem Encodes.step {st : Encoder} {bytes : List UInt8} (h : Encodes st bytes) (c : UInt8) :
    Encodes (encodeByte st bytes.length c) (bytes ++ [c]) := by
  have hholds := h.holds
  have hlength : (bytes ++ [c]).length = bytes.length + 1 := by
    rw [List.length_append, List.length_singleton]
  have hplace : bytes.length % 5 = 0 ∨ bytes.length % 5 = 1 ∨ bytes.length % 5 = 2 ∨
      bytes.length % 5 = 3 ∨ bytes.length % 5 = 4 := by omega
  unfold waiting at hholds
  unfold encodeByte
  rcases hplace with hi | hi | hi | hi | hi
  · rw [hi] at hholds ⊢
    have hnext : (bytes.length + 1) % 5 = 1 := by omega
    have hnone := h.none_iff.mpr hi
    rw [hnone] at hholds
    have hbyte := hholds.byte c
    rw [show (none : Option Nat).getD 0 ||| c.toNat <<< [0, 3, 1, 4, 2].getD 0 0 = c.toNat from
      Nat.zero_or _] at hbyte
    refine ⟨?_, ?_⟩
    · unfold waiting
      rw [hlength, hnext]
      exact hbyte.emit
    · rw [hlength, hnext]
      exact ⟨nofun, nofun⟩
  · rw [hi] at hholds ⊢
    have hnext : (bytes.length + 1) % 5 = 2 := by omega
    refine ⟨?_, ?_⟩
    · unfold waiting
      rw [hlength, hnext]
      have hemit := (hholds.byte c).emit.emit
      rw [← Nat.shiftRight_add] at hemit
      exact hemit
    · rw [hlength, hnext]
      exact ⟨nofun, nofun⟩
  · rw [hi] at hholds ⊢
    have hnext : (bytes.length + 1) % 5 = 3 := by omega
    refine ⟨?_, ?_⟩
    · unfold waiting
      rw [hlength, hnext]
      exact (hholds.byte c).emit
    · rw [hlength, hnext]
      exact ⟨nofun, nofun⟩
  · rw [hi] at hholds ⊢
    have hnext : (bytes.length + 1) % 5 = 4 := by omega
    refine ⟨?_, ?_⟩
    · unfold waiting
      rw [hlength, hnext]
      have hemit := (hholds.byte c).emit.emit
      rw [← Nat.shiftRight_add] at hemit
      obtain ⟨-, -, -, -, hlt, -⟩ := id hemit
      have hand : (st.remain.getD 0 ||| c.toNat <<< 4) >>> 10 &&& 0x3 =
          (st.remain.getD 0 ||| c.toNat <<< 4) >>> 10 :=
        (Nat.and_two_pow_sub_one_eq_mod _ 2).trans (Nat.mod_eq_of_lt hlt)
      show Holds _ _ ((st.remain.getD 0 ||| c.toNat <<< 4) >>> 10 &&& 0x3) _
      rw [hand]
      exact hemit
    · rw [hlength, hnext]
      exact ⟨nofun, nofun⟩
  · rw [hi] at hholds ⊢
    have hnext : (bytes.length + 1) % 5 = 0 := by omega
    refine ⟨?_, ?_⟩
    · unfold waiting
      rw [hlength, hnext]
      have hemit := (hholds.byte c).emit.emit
      obtain ⟨digits, hdigits, hout, hcount, hlt, hvalue⟩ := hemit
      rw [Nat.lt_one_iff.mp hlt] at hvalue
      exact ⟨digits, hdigits, hout, hcount, Nat.one_pos, hvalue⟩
    · rw [hlength, hnext]
      exact ⟨fun _ => rfl, fun _ => rfl⟩

theorem Encodes.loop {st : Encoder} {bytes : List UInt8} (h : Encodes st bytes)
    (rest : List UInt8) : Encodes (encodeLoop st bytes.length rest) (bytes ++ rest) := by
  induction rest generalizing st bytes with
  | nil =>
    rw [List.append_nil]
    exact h
  | cons c rest ih =>
    have hrest := ih (h.step c)
    rw [List.length_append, List.length_singleton, ← List.append_cons] at hrest
    exact hrest

theorem encodeLoop_digits (bytes : List UInt8) :
    ∃ digits : List Nat, (∀ d ∈ digits, d < 32) ∧ digits.length = (8 * bytes.length + 4) / 5 ∧
      Nat.ofDigits 32 digits = value bytes ∧
      ∀ outlen, bytes.length * 8 / 5 ≤ outlen →
        encodeBase32 bytes outlen = some (digits.map b32Char ++ ['\x00']) := by
  have hstart : Encodes { out := [], remain := none } [] :=
    ⟨Holds.empty, ⟨fun _ => rfl, fun _ => rfl⟩⟩
  have h : Encodes (encodeLoop { out := [], remain := none } 0 bytes) bytes := hstart.loop bytes
  obtain ⟨digits, hdigits, hout, hlength, hlt, hvalue⟩ := h.holds
  have hwait : waiting bytes.length = [0, 3, 1, 4, 2].getD (bytes.length % 5) 0 := rfl
  cases hremain : (encodeLoop { out := [], remain := none } 0 bytes).remain with
  | none =>
    have hfull := h.none_iff.mp hremain
    rw [hfull] at hwait
    rw [hremain] at hvalue
    refine ⟨digits, hdigits, ?_, hvalue, fun outlen houtlen => ?_⟩
    · have hzero : waiting bytes.length = 0 := hwait
      omega
    · unfold encodeBase32
      rw [if_neg (Nat.not_lt.mpr houtlen)]
      dsimp only
      rw [hremain, hout]
  | some remain =>
    have hpart : bytes.length % 5 ≠ 0 := fun hzero => by
      have hnone := h.none_iff.mpr hzero
      exact absurd (hnone.symm.trans hremain) (Option.some_ne_none remain).symm
    have hwidth : 0 < waiting bytes.length ∧ waiting bytes.length ≤ 4 := by
      have hplace : bytes.length % 5 = 1 ∨ bytes.length % 5 = 2 ∨ bytes.length % 5 = 3 ∨
          bytes.length % 5 = 4 := by omega
      rcases hplace with hi | hi | hi | hi <;>
        · rw [hwait, hi]
          decide
    rw [hremain] at hlt hvalue
    have hremain32 : remain < 32 :=
      Nat.lt_of_lt_of_le hlt (Nat.pow_le_pow_right (by decide) (by omega : _ ≤ 5))
    refine ⟨digits ++ [remain], ?_, ?_, ?_, fun outlen houtlen => ?_⟩
    · intro d hd
      rcases List.mem_append.mp hd with hd | hd
      · exact hdigits d hd
      · rw [List.mem_singleton.mp hd]
        exact hremain32
    · rw [List.length_append, List.length_singleton]
      omega
    · rw [Nat.ofDigits_append, Nat.ofDigits_singleton]
      exact hvalue
    · unfold encodeBase32
      rw [if_neg (Nat.not_lt.mpr houtlen)]
      dsimp only
      rw [hremain, hout, List.map_append, List.map_singleton]

/-- With room for `⌈8n/5⌉` characters and a `NUL`, just these are written, from the alphabet, and
no other string of the same length gives them. -/
theorem encodeBase32_injective (bytes : List UInt8) {outlen : Nat}
    (h : (8 * bytes.length + 4) / 5 + 1 ≤ outlen) :
    ∃ text : List Char, encodeBase32 bytes outlen = some (text ++ ['\x00']) ∧
      text.length = (8 * bytes.length + 4) / 5 ∧ (∀ c ∈ text, c ∈ b32) ∧
      ∀ bytes' outlen', bytes'.length = bytes.length →
        encodeBase32 bytes' outlen' = some (text ++ ['\x00']) → bytes' = bytes := by
  obtain ⟨digits, hdigits, hlength, hvalue, hencode⟩ := encodeLoop_digits bytes
  refine ⟨digits.map b32Char, hencode outlen (by omega), by rw [List.length_map, hlength],
    fun c hc => ?_, fun bytes' outlen' hsame htext => ?_⟩
  · obtain ⟨d, hd, rfl⟩ := List.mem_map.mp hc
    exact b32Char_mem (hdigits d hd)
  · obtain ⟨digits', hdigits', hlength', hvalue', hencode'⟩ := encodeLoop_digits bytes'
    have hroom : bytes'.length * 8 / 5 ≤ outlen' := by
      by_contra hsmall
      unfold encodeBase32 at htext
      rw [if_pos (by omega)] at htext
      exact absurd htext (Option.some_ne_none _).symm
    rw [hencode' outlen' hroom] at htext
    have hmap : digits'.map b32Char = digits.map b32Char :=
      List.append_cancel_right (Option.some.inj htext)
    have heq : digits' = digits := by
      refine List.ext_getElem (by rw [hlength, hlength', hsame]) fun i hi hi' => ?_
      have hget : (digits'.map b32Char)[i]? = (digits.map b32Char)[i]? := by rw [hmap]
      rw [List.getElem?_map, List.getElem?_map, List.getElem?_eq_getElem hi,
        List.getElem?_eq_getElem hi'] at hget
      exact b32Char_inj (hdigits' _ (List.getElem_mem hi)) (hdigits _ (List.getElem_mem hi'))
        (Option.some.inj hget)
    have hbytes : bytes'.map UInt8.toNat = bytes.map UInt8.toNat := by
      have hlt : ∀ (l : List UInt8), ∀ d ∈ l.map UInt8.toNat, d < 256 := fun l d hd => by
        obtain ⟨c, -, rfl⟩ := List.mem_map.mp hd
        exact c.toNat_lt
      refine Nat.ofDigits_inj_of_len_eq (by decide) ?_ (hlt bytes') (hlt bytes) ?_
      · rw [List.length_map, List.length_map, hsame]
      · exact (hvalue'.symm.trans (congrArg _ heq)).trans hvalue
    exact List.map_injective_iff.mpr (fun a b hab => UInt8.toNat_inj.mp hab) hbytes

/-- A digest of two bytes. -/
theorem encodeBase32_injective_two :
    ∃ text : List Char, encodeBase32 [0xff, 0x01] 5 = some (text ++ ['\x00']) ∧ text.length = 4 ∧
      (∀ c ∈ text, c ∈ b32) ∧
      ∀ bytes' outlen', bytes'.length = 2 →
        encodeBase32 bytes' outlen' = some (text ++ ['\x00']) → bytes' = [0xff, 0x01] :=
  encodeBase32_injective [0xff, 0x01] (by decide)

end NextBSD.Libpkg.Base32
