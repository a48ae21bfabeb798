import Mathlib.Data.List.GetD
import NextBSD.Iolog.JsonScalars

/-!
# b64_encode.c and b64_decode.c: text in base 64

Both functions keep the bits that wait in a 32-bit word and store one byte at a time, each after a
look at the space that is left.  What a failed call has stored is part of the model.
-/

namespace NextBSD.Sudoers.Base64

open Iolog (Bytes ascii)

def base64encTab : Bytes := ascii "ABCDEFGHIJKLMNOPQRSTUVWXYZabcdefghijklmnopqrstuvwxyz0123456789+/"

def encChar (d : Nat) : UInt8 := base64encTab.getD d 0

/-- What was stored and what is returned: `none` is `(size_t)-1`. -/
structure Stored where
  written : Bytes
  ret : Option Nat
  deriving DecidableEq, Repr

def put (outLen : Nat) (out : Bytes) (c : UInt8) : Except Bytes Bytes :=
  if outLen ≤ out.length then .error out else .ok (out ++ [c])

def drain (outLen v rem : Nat) (out : Bytes) : Except Bytes (Nat × Bytes) :=
  if _h : 6 ≤ rem then do
    let rem := rem - 6
    let out ← put outLen out (encChar (v >>> rem &&& 63))
    drain outLen v rem out
  else pure (rem, out)
termination_by rem

def encodeLoop (outLen : Nat) : Nat → Nat → Bytes → Bytes → Except Bytes (Nat × Nat × Bytes)
  | v, rem, out, [] => pure (v, rem, out)
  | v, rem, out, ch :: input => do
    let v := (v <<< 8 ||| ch.toNat) % 2 ^ 32
    let (rem, out) ← drain outLen v (rem + 8) out
    encodeLoop outLen v rem out input

def pad (outLen : Nat) (out : Bytes) : Except Bytes Bytes :=
  if _h : out.length &&& 3 ≠ 0 then
    if outLen ≤ out.length then .error out else pad outLen (out ++ [61])
  else pure out
termination_by (4 - (out.length &&& 3)) % 4
decreasing_by
  have hand : ∀ n : Nat, n &&& 3 = n % 4 := fun n => Nat.and_two_pow_sub_one_eq_mod n 2
  rw [hand] at _h
  rw [hand, hand, List.length_append, List.length_singleton]
  omega

def base64Encode (input : Bytes) (outLen : Nat) : Stored :=
  let result := do
    let (v, rem, out) ← encodeLoop outLen 0 0 [] input
    let out ← if rem ≠ 0 then put outLen out (encChar ((v <<< (6 - rem)) % 2 ^ 32 &&& 63))
      else pure out
    let out ← pad outLen out
    if outLen ≤ out.length then .error out else pure out
  match result with
  | .error out => { written := out, ret := none }
  | .ok out => { written := out ++ [0], ret := some out.length }

def base64decTab : List Nat := [
  255, 255, 255, 255, 255, 255, 255, 255, 255, 255, 255, 255, 255, 255, 255, 255,
  255, 255, 255, 255, 255, 255, 255, 255, 255, 255, 255, 255, 255, 255, 255, 255,
  255, 255, 255, 255, 255, 255, 255, 255, 255, 255, 255, 62, 255, 255, 255, 63,
  52, 53, 54, 55, 56, 57, 58, 59, 60, 61, 255, 255, 255, 0, 255, 255,
  255, 0, 1, 2, 3, 4, 5, 6, 7, 8, 9, 10, 11, 12, 13, 14,
  15, 16, 17, 18, 19, 20, 21, 22, 23, 24, 25, 255, 255, 255, 255, 255,
  255, 26, 27, 28, 29, 30, 31, 32, 33, 34, 35, 36, 37, 38, 39, 40,
  41, 42, 43, 44, 45, 46, 47, 48, 49, 50, 51, 255, 255, 255, 255, 255,
  255, 255, 255, 255, 255, 255, 255, 255, 255, 255, 255, 255, 255, 255, 255, 255,
  255, 255, 255, 255, 255, 255, 255, 255, 255, 255, 255, 255, 255, 255, 255, 255,
  255, 255, 255, 255, 255, 255, 255, 255, 255, 255, 255, 255, 255, 255, 255, 255,
  255, 255, 255, 255, 255, 255, 255, 255, 255, 255, 255, 255, 255, 255, 255, 255,
  255, 255, 255, 255, 255, 255, 255, 255, 255, 255, 255, 255, 255, 255, 255, 255,
  255, 255, 255, 255, 255, 255, 255, 255, 255, 255, 255, 255, 255, 255, 255, 255,
  255, 255, 255, 255, 255, 255, 255, 255, 255, 255, 255, 255, 255, 255, 255, 255,
  255, 255, 255, 255, 255, 255, 255, 255, 255, 255, 255, 255, 255, 255, 255, 255]

def decChar (c : UInt8) : Nat := base64decTab.getD c.toNat 0

/-- The loop of the decoder; the text ends at a NUL or at `=`. -/
def decodeLoop (outSize : Nat) : Nat → Nat → Bytes → Bytes → Except Bytes (Nat × Nat × Bytes)
  | v, rem, out, [] => pure (v, rem, out)
  | v, rem, out, c :: input =>
    if c = 0 ∨ c = 61 then pure (v, rem, out)
    else
      let ch := decChar c
      if ch = 255 then .error out
      else
        let v := (v <<< 6 ||| ch) % 2 ^ 32
        let rem := rem + 6
        if 8 ≤ rem then do
          let rem := rem - 8
          let out ← put outSize out (UInt8.ofNat (v >>> rem &&& 0xff))
          decodeLoop outSize v rem out input
        else decodeLoop outSize v rem out input

def base64Decode (input : Bytes) (outSize : Nat) : Stored :=
  let result := do
    let (v, rem, out) ← decodeLoop outSize 0 0 [] input
    if 8 ≤ rem then put outSize out (UInt8.ofNat (v >>> (rem - 8) &&& 0xff)) else pure out
  match result with
  | .error out => { written := out, ret := none }
  | .ok out => { written := out, ret := some out.length }

/-! ## The text

Three bytes are four characters.  One byte or two at the end are padded. -/

def base64Text : Bytes → Bytes
  | [] => []
  | [a] => [encChar (a.toNat / 4), encChar (a.toNat % 4 * 16), 61, 61]
  | [a, b] =>
    [encChar (a.toNat / 4), encChar (a.toNat % 4 * 16 + b.toNat / 16),
      encChar (b.toNat % 16 * 4), 61]
  | a :: b :: c :: rest =>
    [encChar (a.toNat / 4), encChar (a.toNat % 4 * 16 + b.toNat / 16),
      encChar (b.toNat % 16 * 4 + c.toNat / 64), encChar (c.toNat % 64)] ++ base64Text rest

/-! ## Storing

A run of stores is one store of the whole text: a prefix of it is written where it does not fit. -/

def store (outLen : Nat) (out chars : Bytes) : Except Bytes Bytes :=
  if (out ++ chars).length ≤ outLen then .ok (out ++ chars)
  else .error ((out ++ chars).take outLen)

theorem put_eq_store {outLen : Nat} {out : Bytes} (h : out.length ≤ outLen) (c : UInt8) :
    put outLen out c = store outLen out [c] := by
  unfold put store
  have hlength : (out ++ [c]).length = out.length + 1 := by
    rw [List.length_append, List.length_singleton]
  rw [hlength]
  by_cases hfull : outLen ≤ out.length
  · have htake : (out ++ [c]).take outLen = out := by
      have hsame : outLen = out.length := Nat.le_antisymm hfull h
      rw [hsame]
      exact List.take_left
    rw [if_pos hfull, if_neg (by omega), htake]
  · rw [if_neg hfull, if_pos (by omega)]

theorem store_bind (outLen : Nat) (out chars more : Bytes) :
    (store outLen out chars >>= fun out => store outLen out more) =
      store outLen out (chars ++ more) := by
  unfold store
  by_cases hfits : (out ++ chars).length ≤ outLen
  · rw [if_pos hfits]
    show (if (out ++ chars ++ more).length ≤ outLen then _ else _) = _
    rw [List.append_assoc]
  · have hlong : ¬ (out ++ (chars ++ more)).length ≤ outLen := by
      simp only [List.length_append] at hfits ⊢
      omega
    have hprefix : (out ++ chars ++ more).take outLen = (out ++ chars).take outLen :=
      List.take_append_of_le_length (Nat.le_of_lt (Nat.lt_of_not_le hfits))
    rw [if_neg hfits, if_neg hlong, ← List.append_assoc, hprefix]
    rfl

theorem store_nil {outLen : Nat} {out : Bytes} (h : out.length ≤ outLen) :
    store outLen out [] = .ok out := by
  unfold store
  rw [List.append_nil, if_pos h]

theorem store_bind_congr {α : Type} {outLen : Nat} {out chars : Bytes}
    {f g : Bytes → Except Bytes α}
    (h : (out ++ chars).length ≤ outLen → f (out ++ chars) = g (out ++ chars)) :
    (store outLen out chars >>= f) = (store outLen out chars >>= g) := by
  unfold store
  split_ifs with hfits
  · exact h hfits
  · rfl

theorem store_put_bind {α : Type} (outLen : Nat) (out chars : Bytes) (c : UInt8)
    (f : Bytes → Except Bytes α) :
    (store outLen out chars >>= fun out => put outLen out c >>= f) =
      (store outLen out (chars ++ [c]) >>= f) := by
  rw [← store_bind, bind_assoc]
  exact store_bind_congr fun hfits => by rw [put_eq_store hfits]

theorem put_bind {α : Type} {outLen : Nat} {out : Bytes} (h : out.length ≤ outLen) (c : UInt8)
    (f : Bytes → Except Bytes α) : (put outLen out c >>= f) = (store outLen out [c] >>= f) := by
  rw [put_eq_store h]

/-! ## The encoder -/

theorem and_63 (n : Nat) : n &&& 63 = n % 64 := Nat.and_two_pow_sub_one_eq_mod n 6

theorem and_3 (n : Nat) : n &&& 3 = n % 4 := Nat.and_two_pow_sub_one_eq_mod n 2

theorem shift_or_byte (v : Nat) (ch : UInt8) : v <<< 8 ||| ch.toNat = v * 256 + ch.toNat := by
  rw [← Nat.shiftLeft_add_eq_or_of_lt (show ch.toNat < 2 ^ 8 from ch.toNat_lt), Nat.shiftLeft_eq]

theorem drain_lt {outLen v rem : Nat} (out : Bytes) (h : rem < 6) :
    drain outLen v rem out = pure (rem, out) := by
  rw [drain, dif_neg (by omega)]

theorem drain_add (outLen v rem : Nat) (out : Bytes) :
    drain outLen v (rem + 6) out =
      put outLen out (encChar (v / 2 ^ rem % 64)) >>= fun out => drain outLen v rem out := by
  rw [drain, dif_pos (Nat.le_add_left 6 rem), Nat.add_sub_cancel]
  dsimp only
  rw [and_63, Nat.shiftRight_eq_div_pow]

theorem encodeLoop_first (outLen v : Nat) (out : Bytes) (a : UInt8) (rest : Bytes) :
    encodeLoop outLen v 0 out (a :: rest) =
      put outLen out (encChar (a.toNat / 4)) >>= fun out =>
        encodeLoop outLen ((v * 256 + a.toNat) % 2 ^ 32) 2 out rest := by
  have ha := a.toNat_lt
  have hbits : (v * 256 + a.toNat) % 2 ^ 32 / 2 ^ 2 % 64 = a.toNat / 4 := by omega
  rw [encodeLoop]
  dsimp only
  rw [shift_or_byte, drain_add outLen _ 2, hbits, bind_assoc]
  congr 1
  funext out
  rw [drain_lt out (by decide)]
  rfl

theorem encodeLoop_second (outLen v : Nat) (out : Bytes) (b : UInt8) (rest : Bytes) :
    encodeLoop outLen v 2 out (b :: rest) =
      put outLen out (encChar (v % 4 * 16 + b.toNat / 16)) >>= fun out =>
        encodeLoop outLen ((v * 256 + b.toNat) % 2 ^ 32) 4 out rest := by
  have hb := b.toNat_lt
  have hbits : (v * 256 + b.toNat) % 2 ^ 32 / 2 ^ 4 % 64 = v % 4 * 16 + b.toNat / 16 := by omega
  rw [encodeLoop]
  dsimp only
  rw [shift_or_byte, drain_add outLen _ 4, hbits, bind_assoc]
  congr 1
  funext out
  rw [drain_lt out (by decide)]
  rfl

theorem encodeLoop_third (outLen v : Nat) (out : Bytes) (c : UInt8) (rest : Bytes) :
    encodeLoop outLen v 4 out (c :: rest) =
      put outLen out (encChar (v % 16 * 4 + c.toNat / 64)) >>= fun out =>
        put outLen out (encChar (c.toNat % 64)) >>= fun out =>
          encodeLoop outLen ((v * 256 + c.toNat) % 2 ^ 32) 0 out rest := by
  have hc := c.toNat_lt
  have hhigh : (v * 256 + c.toNat) % 2 ^ 32 / 2 ^ 6 % 64 = v % 16 * 4 + c.toNat / 64 := by omega
  have hlow : (v * 256 + c.toNat) % 2 ^ 32 / 2 ^ 0 % 64 = c.toNat % 64 := by omega
  rw [encodeLoop]
  dsimp only
  rw [shift_or_byte, drain_add outLen _ 6, hhigh, bind_assoc]
  congr 1
  funext out
  rw [drain_add outLen _ 0, hlow, bind_assoc]
  congr 1
  funext out
  rw [drain_lt out (by decide)]
  rfl

theorem pad_complete {outLen : Nat} {out : Bytes} (h : out.length % 4 = 0) :
    pad outLen out = pure out := by
  rw [pad, dif_neg (by rw [and_3, h]; exact fun hno => hno rfl)]

theorem pad_open {outLen : Nat} {out : Bytes} (h : out.length % 4 ≠ 0) :
    pad outLen out = put outLen out 61 >>= fun out => pad outLen out := by
  rw [pad, dif_pos (by rw [and_3]; exact h)]
  unfold put
  split_ifs
  · rfl
  · rfl

def ending (outLen : Nat) (out : Bytes) : Except Bytes Bytes :=
  if outLen ≤ out.length then .error out else pure out

def finish (outLen : Nat) : Nat × Nat × Bytes → Except Bytes Bytes := fun (v, rem, out) => do
  let out ← if rem ≠ 0 then put outLen out (encChar ((v <<< (6 - rem)) % 2 ^ 32 &&& 63))
    else pure out
  let out ← pad outLen out
  ending outLen out

theorem store_pad {α : Type} (outLen : Nat) (out chars : Bytes) {missing : Nat}
    (hfour : missing < 4) (h : ((out ++ chars).length + missing) % 4 = 0)
    (f : Bytes → Except Bytes α) :
    (store outLen out chars >>= fun out => pad outLen out >>= f) =
      (store outLen out (chars ++ List.replicate missing 61) >>= f) := by
  induction missing generalizing chars with
  | zero =>
    rw [List.replicate_zero, List.append_nil]
    exact store_bind_congr fun _ => by rw [pad_complete h, pure_bind]
  | succ missing ih =>
    have hopen : (out ++ chars).length % 4 ≠ 0 := by omega
    have hnext : ((out ++ (chars ++ [61])).length + missing) % 4 = 0 := by
      rw [← List.append_assoc, List.length_append, List.length_singleton]
      omega
    calc (store outLen out chars >>= fun out => pad outLen out >>= f)
        = (store outLen out chars >>= fun out =>
            put outLen out 61 >>= fun out => pad outLen out >>= f) :=
          store_bind_congr fun _ => by rw [pad_open hopen, bind_assoc]
      _ = (store outLen out (chars ++ [61]) >>= fun out => pad outLen out >>= f) :=
          store_put_bind outLen out chars 61 _
      _ = _ := by
          rw [ih (chars ++ [61]) (by omega) hnext, List.append_assoc]
          rfl

/-- The encoder stores the text of its input.  The cases are those of the text: none, one byte, two
bytes, a whole group. -/
theorem encodeLoop_finish (outLen : Nat) (input : Bytes) {v : Nat} {out : Bytes}
    (hspace : out.length ≤ outLen) (hgroup : out.length % 4 = 0) :
    (encodeLoop outLen v 0 out input >>= finish outLen) =
      (store outLen out (base64Text input) >>= ending outLen) := by
  induction input using base64Text.induct generalizing v out with
  | case1 =>
    show (pad outLen out >>= ending outLen) = _
    rw [pad_complete hgroup]
    show ending outLen out = (store outLen out [] >>= ending outLen)
    rw [store_nil hspace]
    rfl
  | case2 a =>
    have ha := a.toNat_lt
    have hbits : ((v * 256 + a.toNat) % 2 ^ 32) * 2 ^ 4 % 2 ^ 32 % 64 = a.toNat % 4 * 16 := by omega
    have hmissing : ((out ++ ([encChar (a.toNat / 4)] ++ [encChar (a.toNat % 4 * 16)])).length +
        2) % 4 = 0 := by
      rw [List.length_append]
      show (out.length + 2 + 2) % 4 = 0
      omega
    rw [encodeLoop_first, bind_assoc, put_bind hspace]
    show (store outLen out [encChar (a.toNat / 4)] >>= fun out =>
      put outLen out (encChar ((((v * 256 + a.toNat) % 2 ^ 32) <<< 4) % 2 ^ 32 &&& 63)) >>= fun out =>
        pad outLen out >>= ending outLen) = _
    rw [and_63, Nat.shiftLeft_eq, hbits, store_put_bind, store_pad outLen out _ (by decide) hmissing]
    rfl
  | case3 a b =>
    have ha := a.toNat_lt
    have hb := b.toNat_lt
    have hhigh : (v * 256 + a.toNat) % 2 ^ 32 % 4 * 16 + b.toNat / 16 =
        a.toNat % 4 * 16 + b.toNat / 16 := by omega
    have hbits : (((v * 256 + a.toNat) % 2 ^ 32 * 256 + b.toNat) % 2 ^ 32) * 2 ^ 2 % 2 ^ 32 % 64 =
        b.toNat % 16 * 4 := by omega
    have hmissing : ((out ++ ([encChar (a.toNat / 4)] ++
        [encChar (a.toNat % 4 * 16 + b.toNat / 16)] ++ [encChar (b.toNat % 16 * 4)])).length + 1) %
          4 = 0 := by
      rw [List.length_append]
      show (out.length + 3 + 1) % 4 = 0
      omega
    rw [encodeLoop_first, bind_assoc, put_bind hspace]
    simp only [encodeLoop_second, bind_assoc, hhigh]
    rw [store_put_bind]
    show (store outLen out _ >>= fun out =>
      put outLen out (encChar (((((v * 256 + a.toNat) % 2 ^ 32 * 256 + b.toNat) % 2 ^ 32) <<< 2) %
        2 ^ 32 &&& 63)) >>= fun out => pad outLen out >>= ending outLen) = _
    rw [and_63, Nat.shiftLeft_eq, hbits, store_put_bind, store_pad outLen out _ (by decide) hmissing]
    rfl
  | case4 a b c rest ih =>
    have ha := a.toNat_lt
    have hb := b.toNat_lt
    have hhigh : (v * 256 + a.toNat) % 2 ^ 32 % 4 * 16 + b.toNat / 16 =
        a.toNat % 4 * 16 + b.toNat / 16 := by omega
    have hmiddle : ∀ w : Nat, (w * 256 + b.toNat) % 2 ^ 32 % 16 = b.toNat % 16 := by
      intro w
      omega
    rw [encodeLoop_first, bind_assoc, put_bind hspace]
    simp only [encodeLoop_second, encodeLoop_third, bind_assoc, hhigh, hmiddle]
    rw [store_put_bind, store_put_bind, store_put_bind]
    refine (store_bind_congr (g := fun out => store outLen out (base64Text rest) >>= ending outLen)
      fun hfits => ih hfits ?_).trans ?_
    · rw [List.length_append]
      show (out.length + 4) % 4 = 0
      omega
    · rw [← bind_assoc, store_bind]
      rfl

theorem base64Encode_eq (input : Bytes) (outLen : Nat) :
    base64Encode input outLen =
      if (base64Text input).length < outLen then
        { written := base64Text input ++ [0], ret := some (base64Text input).length }
      else { written := (base64Text input).take outLen, ret := none } := by
  have hresult : (encodeLoop outLen 0 0 [] input >>= finish outLen) =
      (store outLen [] (base64Text input) >>= ending outLen) :=
    encodeLoop_finish outLen input (Nat.zero_le _) rfl
  unfold base64Encode
  change (match encodeLoop outLen 0 0 [] input >>= finish outLen with
    | .error out => ({ written := out, ret := none } : Stored)
    | .ok out => { written := out ++ [0], ret := some out.length }) = _
  rw [hresult]
  unfold store
  rw [List.nil_append]
  by_cases hlong : (base64Text input).length ≤ outLen
  · rw [if_pos hlong]
    show (match ending outLen (base64Text input) with
      | .error out => ({ written := out, ret := none } : Stored)
      | .ok out => { written := out ++ [0], ret := some out.length }) = _
    unfold ending
    by_cases hfull : outLen ≤ (base64Text input).length
    · rw [if_pos hfull, if_neg (Nat.not_lt.mpr hfull), List.take_of_length_le hlong]
    · rw [if_neg hfull, if_pos (Nat.lt_of_not_le hfull)]
      rfl
  · rw [if_neg hlong, if_neg (by omega)]
    rfl

/-! ## The decoder -/

theorem decChar_encChar {d : Nat} (h : d < 64) :
    decChar (encChar d) = d ∧ ¬ (encChar d = 0 ∨ encChar d = 61) := by
  have hall : ∀ d : Fin 64, decChar (encChar d.val) = d.val ∧
      ¬ (encChar d.val = 0 ∨ encChar d.val = 61) := by decide +kernel
  exact hall ⟨d, h⟩

theorem decChar_of_not_mem : ∀ c : UInt8, c ≠ 61 → c ∉ base64encTab → decChar c = 255 :=
  Iolog.forall_byte (by decide +kernel)

theorem and_255 (n : Nat) : n &&& 0xff = n % 256 := Nat.and_two_pow_sub_one_eq_mod n 8

theorem decodeLoop_char {outSize v rem d : Nat} (h : d < 64) (out input : Bytes) :
    decodeLoop outSize v rem out (encChar d :: input) =
      if 8 ≤ rem + 6 then
        put outSize out (UInt8.ofNat ((v * 64 + d) % 2 ^ 32 / 2 ^ (rem + 6 - 8) % 256)) >>=
          fun out => decodeLoop outSize ((v * 64 + d) % 2 ^ 32) (rem + 6 - 8) out input
      else decodeLoop outSize ((v * 64 + d) % 2 ^ 32) (rem + 6) out input := by
  obtain ⟨hvalue, hplain⟩ := decChar_encChar h
  have hor : v <<< 6 ||| d = v * 64 + d := by
    rw [← Nat.shiftLeft_add_eq_or_of_lt (show d < 2 ^ 6 from h), Nat.shiftLeft_eq]
  rw [decodeLoop, if_neg hplain]
  dsimp only
  rw [hvalue, if_neg (by omega), hor, and_255, Nat.shiftRight_eq_div_pow]

theorem decodeLoop_emit {outSize v rem d : Nat} (h : d < 64) {out : Bytes} {input : Bytes}
    (hrem : 2 ≤ rem) (hspace : out.length < outSize) {a : UInt8}
    (ha : (v * 64 + d) % 2 ^ 32 / 2 ^ (rem - 2) % 256 = a.toNat) :
    decodeLoop outSize v rem out (encChar d :: input) =
      decodeLoop outSize ((v * 64 + d) % 2 ^ 32) (rem - 2) (out ++ [a]) input := by
  have hless : rem + 6 - 8 = rem - 2 := by omega
  rw [decodeLoop_char h, if_pos (by omega), hless, ha, UInt8.ofNat_toNat]
  unfold put
  rw [if_neg (Nat.not_le.mpr hspace)]
  rfl

theorem decodeLoop_stop {outSize v rem : Nat} {out : Bytes} {c : UInt8} (h : c = 0 ∨ c = 61)
    (input : Bytes) : decodeLoop outSize v rem out (c :: input) = .ok (v, rem, out) := by
  rw [decodeLoop, if_pos h]
  rfl

theorem decodes_first (v : Nat) {a b : UInt8} (ha : a.toNat < 2 ^ 8) (hb : b.toNat < 2 ^ 8) :
    ((v * 64 + a.toNat / 4) % 2 ^ 32 * 64 + (a.toNat % 4 * 16 + b.toNat / 16)) % 2 ^ 32 / 2 ^ 4 %
      256 = a.toNat := by
  have hlow : (v * 64 + a.toNat / 4) % 2 ^ 32 % 64 = a.toNat / 4 := by omega
  generalize (v * 64 + a.toNat / 4) % 2 ^ 32 = w at hlow ⊢
  omega

theorem decodes_second (v : Nat) {m k : Nat} {b : UInt8} (hb : b.toNat < 2 ^ 8)
    (hm : m % 16 = 0) (hk : k / 4 = b.toNat % 16) :
    ((v * 64 + (m + b.toNat / 16)) % 2 ^ 32 * 64 + k) % 2 ^ 32 / 2 ^ 2 % 256 = b.toNat := by
  have hlow : (v * 64 + (m + b.toNat / 16)) % 2 ^ 32 % 16 = b.toNat / 16 := by omega
  generalize (v * 64 + (m + b.toNat / 16)) % 2 ^ 32 = w at hlow ⊢
  omega

theorem decodes_third (v : Nat) {m : Nat} {c : UInt8} (hc : c.toNat < 2 ^ 8) (hm : m % 4 = 0) :
    ((v * 64 + (m + c.toNat / 64)) % 2 ^ 32 * 64 + c.toNat % 64) % 2 ^ 32 / 2 ^ 0 % 256 =
      c.toNat := by
  have hlow : (v * 64 + (m + c.toNat / 64)) % 2 ^ 32 % 4 = c.toNat / 64 := by omega
  generalize (v * 64 + (m + c.toNat / 64)) % 2 ^ 32 = w at hlow ⊢
  omega

theorem decodeLoop_text {outSize : Nat} (x rest : Bytes) {v : Nat} {out : Bytes}
    (hspace : out.length + x.length ≤ outSize) :
    ∃ v' rem', decodeLoop outSize v 0 out (base64Text x ++ 0 :: rest) =
      .ok (v', rem', out ++ x) ∧ rem' < 8 := by
  induction x using base64Text.induct generalizing v out with
  | case1 =>
    refine ⟨v, 0, ?_, by decide⟩
    rw [List.append_nil]
    exact decodeLoop_stop (Or.inl rfl) rest
  | case2 a =>
    have ha := a.toNat_lt
    have hroom : out.length < outSize := by
      rw [List.length_singleton] at hspace
      omega
    have hbyte : ∀ w : Nat, ((w * 64 + a.toNat / 4) % 2 ^ 32 * 64 + a.toNat % 4 * 16) % 2 ^ 32 /
        2 ^ 4 % 256 = a.toNat := by
      intro w
      omega
    show ∃ v' rem', decodeLoop outSize v 0 out (encChar (a.toNat / 4) ::
      encChar (a.toNat % 4 * 16) :: 61 :: 61 :: 0 :: rest) = _ ∧ _
    rw [decodeLoop_char (by omega), if_neg (by decide),
      decodeLoop_emit (by omega) (by decide) hroom (hbyte v), decodeLoop_stop (Or.inr rfl)]
    exact ⟨_, _, rfl, by decide⟩
  | case3 a b =>
    have ha := a.toNat_lt
    have hb := b.toNat_lt
    have hroom : out.length + 1 < outSize := hspace
    have hroom' : (out ++ [a]).length < outSize := by
      rw [List.length_append]
      exact hroom
    have hfirst := decodes_first v (b := b) ha hb
    have hsecond := decodes_second ((v * 64 + a.toNat / 4) % 2 ^ 32) (m := a.toNat % 4 * 16)
      (k := b.toNat % 16 * 4) hb (by omega) (by omega)
    show ∃ v' rem', decodeLoop outSize v 0 out (encChar (a.toNat / 4) ::
      encChar (a.toNat % 4 * 16 + b.toNat / 16) :: encChar (b.toNat % 16 * 4) :: 61 :: 0 :: rest) =
        _ ∧ _
    rw [decodeLoop_char (by omega), if_neg (by decide),
      decodeLoop_emit (by omega) (by decide) (by omega) hfirst,
      decodeLoop_emit (by omega) (by decide) hroom' hsecond, decodeLoop_stop (Or.inr rfl),
      List.append_assoc]
    exact ⟨_, _, rfl, by decide⟩
  | case4 a b c x ih =>
    have ha := a.toNat_lt
    have hb := b.toNat_lt
    have hc := c.toNat_lt
    have hlength : out.length + (x.length + 3) ≤ outSize := hspace
    have hsecond : (out ++ [a]).length < outSize := by
      rw [List.length_append, List.length_singleton]
      omega
    have hthird : (out ++ [a] ++ [b]).length < outSize := by
      rw [List.length_append, List.length_append, List.length_singleton, List.length_singleton]
      omega
    have hleft : (out ++ [a] ++ [b] ++ [c]).length + x.length ≤ outSize := by
      simp only [List.length_append, List.length_singleton]
      omega
    have hbyteA := decodes_first v (b := b) ha hb
    have hbyteB := decodes_second ((v * 64 + a.toNat / 4) % 2 ^ 32) (m := a.toNat % 4 * 16)
      (k := b.toNat % 16 * 4 + c.toNat / 64) hb (by omega) (by omega)
    have hbyteC := decodes_third (((v * 64 + a.toNat / 4) % 2 ^ 32 * 64 +
      (a.toNat % 4 * 16 + b.toNat / 16)) % 2 ^ 32) (m := b.toNat % 16 * 4) hc (by omega)
    show ∃ v' rem', decodeLoop outSize v 0 out (encChar (a.toNat / 4) ::
      encChar (a.toNat % 4 * 16 + b.toNat / 16) :: encChar (b.toNat % 16 * 4 + c.toNat / 64) ::
        encChar (c.toNat % 64) :: (base64Text x ++ 0 :: rest)) = _ ∧ _
    rw [decodeLoop_char (by omega), if_neg (by decide),
      decodeLoop_emit (by omega) (by decide) (by omega) hbyteA,
      decodeLoop_emit (by omega) (by decide) hsecond hbyteB,
      decodeLoop_emit (by omega) (by decide) hthird hbyteC]
    have happend : out ++ a :: b :: c :: x = out ++ [a] ++ [b] ++ [c] ++ x := by
      simp only [List.append_assoc, List.cons_append, List.nil_append]
    rw [happend]
    exact ih hleft

theorem put_length {outLen : Nat} {out : Bytes} (h : out.length ≤ outLen) (c : UInt8) :
    (∀ stored, put outLen out c = .error stored → stored.length ≤ outLen) ∧
      ∀ stored, put outLen out c = .ok stored → stored.length ≤ outLen := by
  unfold put
  split_ifs with hfull
  · exact ⟨fun stored heq => Except.error.inj heq ▸ h, nofun⟩
  · refine ⟨nofun, fun stored heq => ?_⟩
    obtain rfl := Except.ok.inj heq
    rw [List.length_append, List.length_singleton]
    omega

theorem decodeLoop_length {outSize : Nat} (input : Bytes) {v rem : Nat} {out : Bytes}
    (h : out.length ≤ outSize) :
    (∀ stored, decodeLoop outSize v rem out input = .error stored → stored.length ≤ outSize) ∧
      ∀ v' rem' stored, decodeLoop outSize v rem out input = .ok (v', rem', stored) →
        stored.length ≤ outSize := by
  induction input generalizing v rem out with
  | nil =>
    refine ⟨nofun, fun v' rem' stored heq => ?_⟩
    obtain rfl : out = stored := congrArg (·.2.2) (Except.ok.inj heq)
    exact h
  | cons c input ih =>
    rw [decodeLoop]
    by_cases hstop : c = 0 ∨ c = 61
    · rw [if_pos hstop]
      refine ⟨nofun, fun v' rem' stored heq => ?_⟩
      obtain rfl : out = stored := congrArg (·.2.2) (Except.ok.inj heq)
      exact h
    · rw [if_neg hstop]
      dsimp only
      by_cases hbad : decChar c = 255
      · rw [if_pos hbad]
        exact ⟨fun stored heq => Except.error.inj heq ▸ h, nofun⟩
      · rw [if_neg hbad]
        split_ifs with hbyte
        · generalize UInt8.ofNat _ = byte
          obtain ⟨herror, hok⟩ := put_length h byte
          cases hput : put outSize out byte with
          | error stored =>
            refine ⟨fun stored' heq => ?_, nofun⟩
            obtain rfl := Except.error.inj heq
            exact herror _ hput
          | ok stored => exact ih (hok stored hput)
        · exact ih h

theorem decodeLoop_bad {outSize : Nat} {front : Bytes} (hfront : ∀ c ∈ front, c ≠ 0 ∧ c ≠ 61)
    {c : UInt8} (hplain : c ≠ 0 ∧ c ≠ 61) (hbad : c ∉ base64encTab) (input : Bytes) {v rem : Nat}
    {out : Bytes} : ∃ stored, decodeLoop outSize v rem out (front ++ c :: input) = .error stored := by
  induction front generalizing v rem out with
  | nil =>
    refine ⟨out, ?_⟩
    rw [List.nil_append, decodeLoop, if_neg (not_or.mpr hplain),
      decChar_of_not_mem c hplain.2 hbad]
    rfl
  | cons d front ih =>
    have hd := hfront d List.mem_cons_self
    have htail : ∀ c ∈ front, c ≠ 0 ∧ c ≠ 61 := fun c hc => hfront c (List.mem_cons_of_mem _ hc)
    rw [List.cons_append, decodeLoop, if_neg (not_or.mpr hd)]
    dsimp only
    by_cases hchar : decChar d = 255
    · exact ⟨out, if_pos hchar⟩
    · rw [if_neg hchar]
      split_ifs with hbyte
      · generalize UInt8.ofNat _ = byte
        cases hput : put outSize out byte with
        | error stored => exact ⟨stored, rfl⟩
        | ok stored => exact ih htail
      · exact ih htail

theorem base64Decode_text (x rest : Bytes) {outSize : Nat} (h : x.length ≤ outSize) :
    base64Decode (base64Text x ++ 0 :: rest) outSize =
      { written := x, ret := some x.length } := by
  have hspace : ([] : Bytes).length + x.length ≤ outSize := by
    rw [List.length_nil, Nat.zero_add]
    exact h
  obtain ⟨v, rem, hloop, hrem⟩ := decodeLoop_text x rest (v := 0) hspace
  unfold base64Decode
  dsimp only
  rw [hloop]
  show (match (if 8 ≤ rem then _ else pure ([] ++ x) : Except Bytes Bytes) with
    | .error out => ({ written := out, ret := none } : Stored)
    | .ok out => { written := out, ret := some out.length }) = _
  rw [if_neg (Nat.not_le.mpr hrem)]
  rfl

theorem base64Decode_length (input : Bytes) (outSize : Nat) :
    (base64Decode input outSize).written.length ≤ outSize := by
  have hempty : ([] : Bytes).length ≤ outSize := Nat.zero_le outSize
  obtain ⟨herror, hok⟩ := @decodeLoop_length outSize input 0 0 [] hempty
  unfold base64Decode
  dsimp only
  cases hloop : decodeLoop outSize 0 0 [] input with
  | error stored => exact herror stored hloop
  | ok found =>
    obtain ⟨v, rem, out⟩ := found
    have hout := hok v rem out hloop
    show List.length (Stored.written (match (if 8 ≤ rem then
      put outSize out (UInt8.ofNat (v >>> (rem - 8) &&& 0xff)) else pure out : Except Bytes Bytes) with
      | .error out => ({ written := out, ret := none } : Stored)
      | .ok out => { written := out, ret := some out.length })) ≤ outSize
    generalize UInt8.ofNat _ = byte
    obtain ⟨hputError, hputOk⟩ := put_length hout byte
    split_ifs
    · cases hput : put outSize out byte with
      | error stored => exact hputError stored hput
      | ok stored => exact hputOk stored hput
    · exact hout

/-- The encoder and the decoder, for every input and every size of the buffer. -/
structure RoundTrips : Prop where
  bounded : ∀ x n, (base64Encode x n).written.length ≤ n
  encodes : ∀ x n, (base64Encode x n).ret ≠ none →
    base64Encode x n =
      { written := base64Text x ++ [0], ret := some (base64Text x).length }
  fails : ∀ x n, (base64Encode x n).ret = none ↔ n < (base64Text x ++ [0]).length
  decodes : ∀ x n rest, x.length ≤ n →
    base64Decode (base64Text x ++ 0 :: rest) n = { written := x, ret := some x.length }
  decodeBounded : ∀ s n, (base64Decode s n).written.length ≤ n
  alphabet : ∀ front c rest n, (∀ b ∈ front, b ≠ 0 ∧ b ≠ 61) → c ≠ 0 ∧ c ≠ 61 →
    c ∉ base64encTab → (base64Decode (front ++ c :: rest) n).ret = none

theorem base64_roundTrips : RoundTrips := by
  refine ⟨fun x n => ?_, fun x n hret => ?_, fun x n => ?_,
    fun x n rest h => base64Decode_text x rest h, base64Decode_length, ?_⟩
  · rw [base64Encode_eq]
    split_ifs with h
    · rw [List.length_append, List.length_singleton]
      exact h
    · exact List.length_take_le n _
  · rw [base64Encode_eq] at hret ⊢
    split_ifs at hret ⊢ with h
    · rfl
    · exact absurd rfl hret
  · rw [base64Encode_eq, List.length_append, List.length_singleton]
    by_cases h : (base64Text x).length < n
    · rw [if_pos h]
      exact iff_of_false (Option.some_ne_none _) (by omega)
    · rw [if_neg h]
      exact iff_of_true rfl (by omega)
  · intro front c rest n hfront hplain hbad
    obtain ⟨stored, herror⟩ := @decodeLoop_bad n front hfront c hplain hbad rest 0 0 []
    unfold base64Decode
    dsimp only
    rw [herror]
    rfl

end NextBSD.Sudoers.Base64
