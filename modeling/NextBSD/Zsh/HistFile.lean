import Mathlib.Data.List.TakeWhile
import Mathlib.Tactic.Tauto
import NextBSD.Library.Digits

/-!
# hist.c: the lines of a history file

With `EXTENDEDHISTORY` an entry is written with its times and its text, in which a backslash stands
before every newline.  The file has no `NUL`, the buffer of `readhistline` grows so that a line fits
into it, and numbers do not overflow.
-/

namespace NextBSD.Zsh

abbrev Bytes := List UInt8

def inblank (c : UInt8) : Bool := c = 32 || c = 9 || c = 10

def imeta (c : UInt8) : Bool := c = 0 || (0x83 ≤ c && c ≤ 0xa2)

def metafy (s : Bytes) : Bytes := s.flatMap fun c => if imeta c then [0x83, c ^^^ 32] else [c]

def unmetafy : Bytes → Bytes
  | [] => []
  | [c] => [c]
  | c :: d :: s => if c = 0x83 then (d ^^^ 32) :: unmetafy s else c :: unmetafy (d :: s)

/-- Some character of a line would be written in another way by `metafy`. -/
def remeta : Bytes → Bool
  | [] => false
  | [c] => imeta c
  | c :: d :: s => if c = 0x83 then remeta s else imeta c || remeta (d :: s)

structure HistText where
  bytes : Bytes
  metafied : ∃ raw, bytes = metafy raw

/-- `%ld` of a number that is not negative. -/
def decimal (n : Nat) : Bytes :=
  if n = 0 then [48] else (Digits.printDigits 10 n).map fun d => UInt8.ofNat (48 + d)

/-- `%ld`. -/
def printLong : Int → Bytes
  | .ofNat n => decimal n
  | .negSucc n => 45 :: decimal (n + 1)

/-- `end_backslashes` after a text. -/
def endBackslashes (s : Bytes) : Bool := s.foldl (fun e c => c = 92 || (e && c = 32)) false

def escapeNewlines (s : Bytes) : Bytes := s.flatMap fun c => if c = 10 then [92, 10] else [c]

def endSpace (s : Bytes) : Bytes := if endBackslashes s then [32] else []

def histHeader (stim ftim : Int) : Bytes :=
  58 :: 32 :: (printLong stim ++ 58 :: (printLong (if ftim = 0 then 0 else ftim - stim) ++ [59]))

def histLine (stim ftim : Int) (nam : Bytes) : Bytes :=
  histHeader stim ftim ++ (escapeNewlines nam ++ (endSpace nam ++ [10]))

def fileLines : Bytes → List Bytes
  | [] => []
  | c :: rest =>
    if c = 10 then [10] :: fileLines rest
    else
      match fileLines rest with
      | [] => [[c]]
      | l :: lines => (c :: l) :: lines

/-- A space that was written because the text ends in a backslash, and maybe spaces, is removed.
Before a line of spaces only, nothing is looked at. -/
def dropEndSpace (buf : Bytes) : Bytes :=
  let r := buf.reverse.dropWhile (· = 32)
  if r.length ≠ buf.length ∧ r.head? = some 92 then buf.dropLast else buf

/-- The calls of `readhistline` up to the end of the file: the buffer, and the bytes that were
read for it. -/
def readhistlines (start : Bytes) (readbytes : Nat) : List Bytes → List (Bytes × Nat)
  | [] => []
  | line :: rest =>
    let readbytes := readbytes + line.length
    if line.getLast? ≠ some 10 then (start ++ line, readbytes) :: readhistlines [] 0 rest
    else
      let buf := (start ++ line).dropLast
      -- a backslash before the newline: the entry goes on
      if buf.getLast? = some 92 then readhistlines (buf.dropLast ++ [10]) readbytes rest
      else (dropEndSpace buf, readbytes) :: readhistlines [] 0 rest

def digitValue (c : UInt8) : Nat := if c ≤ 57 then c.toNat - 48 else (c.toNat &&& 0x1f) + 9

def isDigitIn (base : Nat) (c : UInt8) : Bool :=
  (48 ≤ c && c ≤ 57 || 97 ≤ c && c ≤ 122 || 65 ≤ c && c ≤ 90) && digitValue c < base

def digitsIn (base : Nat) (s : Bytes) : Nat :=
  Digits.readDigits base ((s.takeWhile (isDigitIn base)).map digitValue)

def unsignedIn : Bytes → Nat
  | 48 :: c :: s =>
    if c = 120 ∨ c = 88 then digitsIn 16 s
    else if c = 98 ∨ c = 66 then digitsIn 2 s
    else digitsIn 8 (c :: s)
  | s => digitsIn 10 s

def zstrtol (s : Bytes) : Int :=
  match s.dropWhile inblank with
  | [] => 0
  | c :: t =>
    if c = 45 ∨ c = 0x9b then -(unsignedIn t : Int)
    else if c = 43 then unsignedIn t
    else unsignedIn (c :: t)

def splitEntry (pt : Bytes) : Int × Int × Bytes :=
  match pt with
  | 58 :: pt =>
    let stim := zstrtol pt
    match pt.dropWhile (· ≠ 58) with
    | [] => (stim, stim, [])
    | _ :: pt => (stim, zstrtol pt, (pt.dropWhile (· ≠ 59)).drop 1)
  | 92 :: 58 :: pt => (0, 0, 58 :: pt)
  | pt => (0, 0, pt)

def readEntry (buf : Bytes) : Int × Int × Bytes :=
  splitEntry (if remeta buf then metafy (unmetafy buf) else buf)

theorem remeta_cons {c : UInt8} (h : imeta c = false) (s : Bytes) : remeta (c :: s) = remeta s := by
  have hmeta : c ≠ 0x83 := by
    rintro rfl
    exact absurd h (by decide)
  cases s with
  | nil => exact h
  | cons d s =>
    show (if c = 0x83 then remeta s else imeta c || remeta (d :: s)) = _
    rw [if_neg hmeta, h, Bool.false_or]

theorem remeta_metafy (raw : Bytes) : remeta (metafy raw) = false := by
  induction raw with
  | nil => rfl
  | cons c raw ih =>
    show remeta ((if imeta c then [0x83, c ^^^ 32] else [c]) ++ metafy raw) = false
    by_cases hc : imeta c = true
    · rw [if_pos hc]
      exact ih
    · rw [if_neg hc]
      show remeta (c :: metafy raw) = false
      rw [remeta_cons (Bool.eq_false_iff.mpr hc)]
      exact ih

theorem remeta_append {s : Bytes} (h : ∀ c ∈ s, imeta c = false) (t : Bytes) :
    remeta (s ++ t) = remeta t := by
  induction s with
  | nil => rfl
  | cons c s ih =>
    rw [List.cons_append, remeta_cons (h c List.mem_cons_self),
      ih fun d hd => h d (List.mem_cons_of_mem c hd)]

theorem newline_of_flip {c : UInt8} (h : c ^^^ 32 = 10) : imeta c = false := by
  have hc : c = 42 := by
    calc c = (c ^^^ 32) ^^^ 32 := by rw [UInt8.xor_assoc, UInt8.xor_self, UInt8.xor_zero]
      _ = 10 ^^^ 32 := by rw [h]
      _ = 42 := by decide
  rw [hc]
  decide

theorem metafy_dropLast {raw : Bytes} (h : (metafy raw).getLast? = some 10) :
    metafy raw.dropLast = (metafy raw).dropLast := by
  rcases List.eq_nil_or_concat' raw with rfl | ⟨s, c, rfl⟩
  · rfl
  · have happ : metafy (s ++ [c]) = metafy s ++ (if imeta c then [0x83, c ^^^ 32] else [c]) := by
      unfold metafy
      rw [List.flatMap_append, List.flatMap_singleton]
    rw [happ] at h ⊢
    rw [List.dropLast_concat]
    by_cases hc : imeta c = true
    · rw [if_pos hc, List.getLast?_append_cons] at h
      have hflip : c ^^^ 32 = 10 := Option.some.inj h
      rw [newline_of_flip hflip] at hc
      exact absurd hc Bool.false_ne_true
    · rw [if_neg hc, List.dropLast_concat]

/-- The newline that `hend` takes from the end of a line. -/
def HistText.dropNewline (t : HistText) : HistText :=
  if h : t.bytes.getLast? = some 10 then
    ⟨t.bytes.dropLast, by
      obtain ⟨raw, hraw⟩ := t.metafied
      rw [hraw] at h ⊢
      exact ⟨raw.dropLast, (metafy_dropLast h).symm⟩⟩
  else t

theorem fileLines_line {l : Bytes} (h : (10 : UInt8) ∉ l) (rest : Bytes) :
    fileLines (l ++ 10 :: rest) = (l ++ [10]) :: fileLines rest := by
  induction l with
  | nil => rfl
  | cons c l ih =>
    have hc : c ≠ 10 := fun heq => h (heq ▸ List.mem_cons_self)
    rw [List.cons_append, fileLines, if_neg hc,
      ih fun hl => h (List.mem_cons_of_mem c hl)]
    rfl

theorem endBackslashes_concat (s : Bytes) (c : UInt8) :
    endBackslashes (s ++ [c]) = (c = 92 || (endBackslashes s && c = 32)) := by
  unfold endBackslashes
  rw [List.foldl_append]
  rfl

theorem endBackslashes_append (s t : Bytes) {c : UInt8} (hc : c ≠ 92) (hsp : c ≠ 32) :
    endBackslashes ((s ++ [c]) ++ t) = endBackslashes t := by
  have hstart : endBackslashes (s ++ [c]) = false := by
    rw [endBackslashes_concat, decide_eq_false hc, decide_eq_false hsp, Bool.and_false]
    rfl
  unfold endBackslashes at hstart ⊢
  rw [List.foldl_append, hstart]

theorem endBackslashes_iff (s : Bytes) :
    endBackslashes s = true ↔ (s.reverse.dropWhile (· = 32)).head? = some 92 := by
  induction s using List.reverseRecOn with
  | nil => exact ⟨nofun, nofun⟩
  | append_singleton s c ih =>
    rw [endBackslashes_concat, List.reverse_append, List.reverse_singleton, List.singleton_append,
      List.dropWhile_cons]
    by_cases hsp : c = 32
    · subst hsp
      rw [if_pos (by decide), ← ih]
      show (false || (endBackslashes s && true)) = true ↔ _
      rw [Bool.false_or, Bool.and_true]
    · rw [if_neg (by rw [decide_eq_false hsp]; exact Bool.false_ne_true), decide_eq_false hsp,
        Bool.and_false, Bool.or_false, decide_eq_true_iff, List.head?_cons]
      exact ⟨fun h => h ▸ rfl, Option.some.inj⟩

theorem dropEndSpace_endSpace (s : Bytes) : dropEndSpace (s ++ endSpace s) = s := by
  unfold dropEndSpace endSpace
  by_cases h : endBackslashes s = true
  · have hhead := (endBackslashes_iff s).mp h
    have hle := (List.dropWhile_sublist (· = (32 : UInt8)) (l := s.reverse)).length_le
    rw [if_pos h]
    dsimp only
    rw [List.reverse_append, List.reverse_singleton, List.singleton_append,
      List.dropWhile_cons_of_pos rfl, List.length_append, List.length_singleton,
      List.dropLast_concat]
    rw [List.length_reverse] at hle
    exact if_pos ⟨by omega, hhead⟩
  · rw [if_neg h, List.append_nil]
    dsimp only
    rw [if_neg fun hboth => h ((endBackslashes_iff s).mpr hboth.2)]

theorem getLast?_endSpace (s : Bytes) : (s ++ endSpace s).getLast? ≠ some 92 := by
  unfold endSpace
  by_cases h : endBackslashes s = true
  · rw [if_pos h, List.getLast?_append_cons]
    exact fun heq => absurd (Option.some.inj heq) (by decide)
  · rw [if_neg h, List.append_nil]
    rcases List.eq_nil_or_concat' s with rfl | ⟨t, c, rfl⟩
    · exact nofun
    · rw [List.getLast?_concat]
      intro heq
      apply h
      rw [endBackslashes_concat, Option.some.inj heq]
      rfl

theorem newline_not_mem_endSpace (s : Bytes) : (10 : UInt8) ∉ endSpace s := by
  unfold endSpace
  by_cases h : endBackslashes s = true
  · rw [if_pos h]
    decide
  · rw [if_neg h]
    exact List.not_mem_nil

/-- The induction is on what is still to be written.  `pre` is the part of the line that is being
read, `start` what the lines before it have left in the buffer. -/
theorem readhistlines_escape (nam start pre : Bytes) (readbytes : Nat) (rest : Bytes)
    (hpre : (10 : UInt8) ∉ pre) :
    readhistlines start readbytes
        (fileLines (pre ++ (escapeNewlines nam ++ (endSpace (start ++ pre ++ nam) ++ 10 :: rest)))) =
      (start ++ pre ++ nam, readbytes +
        (pre ++ (escapeNewlines nam ++ (endSpace (start ++ pre ++ nam) ++ [10]))).length) ::
          readhistlines [] 0 (fileLines rest) := by
  induction nam generalizing start pre readbytes with
  | nil =>
    have hline : (10 : UInt8) ∉ pre ++ endSpace (start ++ pre) := by
      rw [List.mem_append]
      exact not_or.mpr ⟨hpre, newline_not_mem_endSpace _⟩
    rw [List.append_nil]
    show readhistlines start readbytes
      (fileLines (pre ++ (endSpace (start ++ pre) ++ 10 :: rest))) = _
    rw [← List.append_assoc, fileLines_line hline, readhistlines]
    dsimp only
    rw [if_neg (by rw [List.getLast?_concat]; exact fun h => h rfl), ← List.append_assoc,
      List.dropLast_concat, ← List.append_assoc, if_neg (getLast?_endSpace _),
      dropEndSpace_endSpace]
    show _ = (start ++ pre, readbytes + (pre ++ (endSpace (start ++ pre) ++ [10])).length) :: _
    rw [List.append_assoc pre]
  | cons c nam ih =>
    have hcons : start ++ pre ++ c :: nam = start ++ (pre ++ [c]) ++ nam := by
      rw [List.append_assoc start (pre ++ [c]), List.append_assoc pre, List.append_assoc]
      rfl
    by_cases hc : c = 10
    · subst hc
      have hline : (10 : UInt8) ∉ pre ++ [92] := by
        rw [List.mem_append]
        exact not_or.mpr ⟨hpre, by decide⟩
      have hstep := ih (start ++ pre ++ [10]) [] (readbytes + (pre ++ [92, 10]).length)
        List.not_mem_nil
      rw [List.append_nil] at hstep
      have hescape : escapeNewlines (10 :: nam) = 92 :: 10 :: escapeNewlines nam := rfl
      rw [hcons, ← List.append_assoc start, hescape, List.cons_append, List.cons_append,
        List.cons_append, List.cons_append, List.append_cons pre 92, fileLines_line hline,
        readhistlines]
      dsimp only
      rw [if_neg (by rw [List.getLast?_concat]; exact fun h => h rfl), ← List.append_assoc,
        List.dropLast_concat, ← List.append_assoc, if_pos (by rw [List.getLast?_concat]),
        List.dropLast_concat, List.append_assoc pre [92] [10], List.singleton_append]
      refine hstep.trans ?_
      rw [← List.append_cons, List.nil_append, Nat.add_assoc, ← List.length_append,
        List.append_assoc, List.append_assoc]
      rfl
    · have hpre' : (10 : UInt8) ∉ pre ++ [c] := by
        rw [List.mem_append, List.mem_singleton]
        exact not_or.mpr ⟨hpre, fun heq => hc heq.symm⟩
      have hescape : escapeNewlines (c :: nam) = c :: escapeNewlines nam := by
        show (if c = 10 then [92, 10] else [c]) ++ escapeNewlines nam = _
        rw [if_neg hc]
        rfl
      have hstep := ih start (pre ++ [c]) readbytes hpre'
      rw [hcons, hescape, List.cons_append, List.cons_append, List.append_cons]
      rw [List.append_cons pre c (escapeNewlines nam ++ (_ ++ [10]))]
      exact hstep

/-! ### The times -/

theorem digit_byte (d : Fin 10) :
    isDigitIn 10 (UInt8.ofNat (48 + d)) = true ∧ digitValue (UInt8.ofNat (48 + d)) = d ∧
      inblank (UInt8.ofNat (48 + d)) = false ∧ UInt8.ofNat (48 + d) ≠ 45 ∧
      UInt8.ofNat (48 + d) ≠ 0x9b ∧ UInt8.ofNat (48 + d) ≠ 43 ∧
      imeta (UInt8.ofNat (48 + d)) = false ∧ UInt8.ofNat (48 + d) ≠ 58 ∧
      UInt8.ofNat (48 + d) ≠ 10 ∧ (UInt8.ofNat (48 + d) = 48 → d = 0) := by
  revert d
  decide

theorem mem_decimal {n : Nat} {c : UInt8} (h : c ∈ decimal n) :
    ∃ d : Fin 10, c = UInt8.ofNat (48 + d) := by
  unfold decimal at h
  by_cases hn : n = 0
  · rw [if_pos hn, List.mem_singleton] at h
    exact ⟨0, h⟩
  · rw [if_neg hn] at h
    obtain ⟨d, hd, rfl⟩ := List.mem_map.mp h
    exact ⟨⟨d, Digits.printDigits_lt (by omega) hd⟩, rfl⟩

theorem decimal_cons (n : Nat) : ∃ c s, decimal n = c :: s ∧ (c = 48 → n = 0 ∧ s = []) := by
  by_cases hn : n = 0
  · subst hn
    exact ⟨48, [], rfl, fun _ => ⟨rfl, rfl⟩⟩
  · have hne : Nat.digits 10 n ≠ [] := Nat.digits_ne_nil_iff_ne_zero.mpr hn
    have hdigits : Digits.printDigits 10 n =
        (Nat.digits 10 n).getLast hne :: (Nat.digits 10 n).dropLast.reverse := by
      unfold Digits.printDigits
      conv_lhs => rw [← List.dropLast_append_getLast hne]
      rw [List.reverse_append, List.reverse_singleton, List.singleton_append]
    have hlt : (Nat.digits 10 n).getLast hne < 10 :=
      Nat.digits_lt_base (by omega) (List.getLast_mem hne)
    refine ⟨_, _, by unfold decimal; rw [if_neg hn, hdigits, List.map_cons], fun h48 => ?_⟩
    have hzero := (digit_byte ⟨_, hlt⟩).2.2.2.2.2.2.2.2.2 h48
    exact absurd (Fin.mk.inj hzero) (Nat.getLast_digit_ne_zero 10 hn)

theorem digitsIn_decimal (n : Nat) {c : UInt8} (hc : isDigitIn 10 c = false) (rest : Bytes) :
    digitsIn 10 (decimal n ++ c :: rest) = n := by
  have htake : (decimal n ++ c :: rest).takeWhile (isDigitIn 10) = decimal n := by
    rw [List.takeWhile_append_of_pos ?_, List.takeWhile_cons_of_neg (by rw [hc]; nofun),
      List.append_nil]
    intro b hb
    obtain ⟨d, rfl⟩ := mem_decimal hb
    exact (digit_byte d).1
  unfold digitsIn
  rw [htake]
  unfold decimal
  by_cases hn : n = 0
  · rw [if_pos hn, hn]
    rfl
  · have hmap : ((Digits.printDigits 10 n).map fun d => UInt8.ofNat (48 + d)).map digitValue =
        Digits.printDigits 10 n := by
      rw [List.map_map]
      conv_rhs => rw [← List.map_id (Digits.printDigits 10 n)]
      refine List.map_congr_left fun d hd => ?_
      exact (digit_byte ⟨d, Digits.printDigits_lt (by omega) hd⟩).2.1
    rw [if_neg hn, hmap, Digits.readDigits_printDigits]

theorem unsignedIn_decimal (n : Nat) {c : UInt8} (hc : c = 58 ∨ c = 59) (rest : Bytes) :
    unsignedIn (decimal n ++ c :: rest) = n := by
  have hend : isDigitIn 10 c = false := by
    rcases hc with rfl | rfl <;> decide
  have hten := digitsIn_decimal n hend rest
  obtain ⟨b, s, hs, hzero⟩ := decimal_cons n
  by_cases hb : b = 48
  · obtain ⟨hn, hnil⟩ := hzero hb
    rw [hs, hb, hnil, hn]
    rcases hc with rfl | rfl <;> rfl
  · rw [hs] at hten ⊢
    rw [List.cons_append] at hten ⊢
    unfold unsignedIn
    split
    · rename_i heq
      exact absurd (List.cons.inj heq).1 hb
    · exact hten

theorem zstrtol_unsigned {c : UInt8} (hc : inblank c = false) (hneg : c ≠ 45) (hdash : c ≠ 0x9b)
    (hplus : c ≠ 43) (s : Bytes) : zstrtol (c :: s) = unsignedIn (c :: s) := by
  unfold zstrtol
  rw [List.dropWhile_cons_of_neg (by rw [hc]; nofun)]
  dsimp only
  rw [if_neg (not_or.mpr ⟨hneg, hdash⟩), if_neg hplus]

theorem zstrtol_printLong (i : Int) {c : UInt8} (hc : c = 58 ∨ c = 59) (rest : Bytes) :
    zstrtol (printLong i ++ c :: rest) = i := by
  cases i with
  | ofNat n =>
    have hn := unsignedIn_decimal n hc rest
    obtain ⟨b, s, hs, -⟩ := decimal_cons n
    obtain ⟨d, hd⟩ := mem_decimal (n := n) (hs ▸ List.mem_cons_self)
    show zstrtol (decimal n ++ c :: rest) = _
    rw [hs, List.cons_append] at hn ⊢
    have hbyte := digit_byte d
    rw [← hd] at hbyte
    rw [zstrtol_unsigned hbyte.2.2.1 hbyte.2.2.2.1 hbyte.2.2.2.2.1 hbyte.2.2.2.2.2.1, hn]
    rfl
  | negSucc n =>
    show -(unsignedIn (decimal (n + 1) ++ c :: rest) : Int) = _
    rw [unsignedIn_decimal (n + 1) hc rest]
    rfl

theorem zstrtol_blank (s : Bytes) : zstrtol (32 :: s) = zstrtol s := rfl

theorem mem_printLong {i : Int} {c : UInt8} (h : c ∈ printLong i) :
    imeta c = false ∧ c ≠ 58 ∧ c ≠ 10 := by
  have hdecimal {n : Nat} (h : c ∈ decimal n) : imeta c = false ∧ c ≠ 58 ∧ c ≠ 10 := by
    obtain ⟨d, rfl⟩ := mem_decimal h
    have hd := digit_byte d
    exact ⟨hd.2.2.2.2.2.2.1, hd.2.2.2.2.2.2.2.1, hd.2.2.2.2.2.2.2.2.1⟩
  cases i with
  | ofNat n => exact hdecimal h
  | negSucc n =>
    rcases List.mem_cons.mp h with rfl | h
    · decide
    · exact hdecimal h

theorem dropWhile_colon {s : Bytes} (h : ∀ c ∈ s, c ≠ 58) (rest : Bytes) :
    (s ++ 58 :: rest).dropWhile (· ≠ 58) = 58 :: rest := by
  rw [List.dropWhile_append_of_pos fun c hc => decide_eq_true (h c hc)]
  rfl

theorem splitEntry_histHeader (stim : Int) (nam : Bytes) :
    splitEntry (histHeader stim 0 ++ nam) = (stim, 0, nam) := by
  have happ : histHeader stim 0 ++ nam = 58 :: 32 :: (printLong stim ++ 58 :: 48 :: 59 :: nam) := by
    show 58 :: 32 :: ((printLong stim ++ 58 :: 48 :: [59]) ++ nam) = _
    rw [List.append_assoc]
    rfl
  have hdrop : (32 :: (printLong stim ++ 58 :: 48 :: 59 :: nam)).dropWhile (· ≠ 58) =
      58 :: 48 :: 59 :: nam := by
    rw [List.dropWhile_cons_of_pos (by decide),
      dropWhile_colon fun c hc => (mem_printLong hc).2.1]
  rw [happ, splitEntry, hdrop, zstrtol_blank, zstrtol_printLong stim (Or.inl rfl)]
  rfl

theorem mem_histHeader {stim : Int} {c : UInt8} (h : c ∈ histHeader stim 0) :
    imeta c = false ∧ c ≠ 10 := by
  unfold histHeader at h
  rw [if_pos rfl] at h
  have hbyte : c = 58 ∨ c = 32 ∨ c ∈ printLong stim ∨ c ∈ printLong 0 ∨ c = 59 := by
    simp only [List.mem_cons, List.mem_append, List.not_mem_nil, or_false] at h
    tauto
  rcases hbyte with rfl | rfl | h | h | rfl
  · decide
  · decide
  · exact ⟨(mem_printLong h).1, (mem_printLong h).2.2⟩
  · exact ⟨(mem_printLong h).1, (mem_printLong h).2.2⟩
  · decide

theorem readEntry_histHeader (stim : Int) (t : HistText) :
    readEntry (histHeader stim 0 ++ t.bytes) = (stim, 0, t.bytes) := by
  obtain ⟨raw, hraw⟩ := t.metafied
  unfold readEntry
  rw [remeta_append (fun c hc => (mem_histHeader hc).1), hraw, remeta_metafy,
    if_neg Bool.false_ne_true, splitEntry_histHeader]

theorem endSpace_histHeader (stim : Int) (nam : Bytes) :
    endSpace (histHeader stim 0 ++ nam) = endSpace nam := by
  have hlast : histHeader stim 0 = (58 :: 32 :: (printLong stim ++ [58, 48])) ++ [59] := by
    show 58 :: 32 :: (printLong stim ++ [58, 48, 59]) = _
    rw [List.cons_append, List.cons_append, List.append_assoc]
    rfl
  unfold endSpace
  rw [hlast, endBackslashes_append _ nam (by decide) (by decide)]

theorem readhistlines_histLine (stim : Int) (nam rest : Bytes) :
    readhistlines [] 0 (fileLines (histLine stim 0 nam ++ rest)) =
      (histHeader stim 0 ++ nam, (histLine stim 0 nam).length) ::
        readhistlines [] 0 (fileLines rest) := by
  have hread := readhistlines_escape nam [] (histHeader stim 0) 0 rest
    fun h => (mem_histHeader h).2 rfl
  rw [List.nil_append, endSpace_histHeader, Nat.zero_add] at hread
  unfold histLine
  rw [List.append_assoc, List.append_assoc, List.append_assoc]
  exact hread

end NextBSD.Zsh
