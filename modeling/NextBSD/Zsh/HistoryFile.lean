import NextBSD.Zsh.History
import NextBSD.Zsh.Metafy

/-!
# hist.c: a history is written to a file and read into an empty one

`savehistfile` to a new file without flags, with no entry that is skipped, and `readhistfile(fn, 0,
0)` with no option that removes duplicates.  Here the buffer of `readhistline` has a size, which is
an `int`.
-/

namespace NextBSD.Zsh.HistoryFile

open History

/-- The value of a sum or difference of `time_t` values that is kept in 64 bits. -/
def long (n : Int) : Int := (n + 2 ^ 63) % 2 ^ 64 - 2 ^ 63

/-- What is written of a `struct histent`. -/
structure Entry where
  nam : HistText
  stim : Int
  ftim : Int
  stim_range : -2 ^ 63 ≤ stim ∧ stim < 2 ^ 63
  ftim_range : -2 ^ 63 ≤ ftim ∧ ftim < 2 ^ 63

/-- `(long)(he->ftim - he->stim)`, or 0 when the command has not ended. -/
def Entry.duration (e : Entry) : Int := if e.ftim = 0 then 0 else long (e.ftim - e.stim)

def entryStart (extended_history : Bool) (e : Entry) : Bytes :=
  if extended_history then
    58 :: 32 :: (printLong e.stim ++ 58 :: (printLong e.duration ++ [59]))
  else if e.nam.bytes.head? = some 58 then [92]
  else []

def entryLine (extended_history : Bool) (e : Entry) : Bytes :=
  entryStart extended_history e ++
    (escapeNewlines e.nam.bytes ++ (endSpace e.nam.bytes ++ [10]))

def savehistfile (extended_history : Bool) (entries : List Entry) : Bytes :=
  entries.flatMap (entryLine extended_history)

/-! ## Reading -/

/-- `fgets` with room for so many characters and a `NUL`: what is read, and what is left. -/
def fgets : Nat → Bytes → Bytes × Bytes
  | 0, inp => ([], inp)
  | _ + 1, [] => ([], [])
  | room + 1, c :: inp =>
    if c = 10 then ([10], inp)
    else
      let (line, inp) := fgets room inp
      (c :: line, inp)

/-- What `readhistline` returns: `0`, `-1` or a line. -/
inductive Line
  | eof
  | corrupt
  | text (buf : Bytes)
  deriving DecidableEq, Repr

/-- The space at the end of a line that was written for a backslash is removed.  `none` when the
search for the backslash leaves the buffer at its start. -/
def dropSpace (buf : Bytes) : Option Bytes :=
  match buf.reverse.dropWhile (· = 32) with
  | [] => if buf = [] then some buf else none
  | c :: before =>
    some (if (c :: before).length ≠ buf.length ∧ c = 92 then buf.dropLast else buf)

theorem fgets_append (room : Nat) (inp : Bytes) :
    (fgets room inp).1 ++ (fgets room inp).2 = inp := by
  induction inp generalizing room with
  | nil => cases room <;> rfl
  | cons c inp ih =>
    cases room with
    | zero => rfl
    | succ room =>
      rw [fgets]
      by_cases hc : c = 10
      · rw [if_pos hc, hc]
        rfl
      · rw [if_neg hc]
        exact congrArg (c :: ·) (ih room)

theorem fgets_rest_lt {room : Nat} {inp : Bytes} (h : (fgets room inp).1.takeWhile (· ≠ 0) ≠ []) :
    (fgets room inp).2.length < inp.length := by
  have hlength := congrArg List.length (fgets_append room inp)
  have hpos : 0 < (fgets room inp).1.length :=
    List.length_pos_of_ne_nil fun hnil => h (by rw [hnil]; rfl)
  rw [List.length_append] at hlength
  omega

/-- `readhistline`, with what is in the buffer before `start`.  `none` when it would read before the
buffer, or when the size of the buffer would not be an `int`. -/
def readhistline (buf : Bytes) (bufsiz : Nat) (inp : Bytes) : Option (Line × Nat × Bytes) :=
  if inp = [] then some (.eof, bufsiz, [])
  else
    let room := bufsiz - buf.length - 1
    let line := (fgets room inp).1.takeWhile (· ≠ 0)
    let rest := (fgets room inp).2
    if h : line = [] then some (.corrupt, bufsiz, rest)
    else if line.getLast? ≠ some 10 then
      -- `feof`: there was room for more
      if (fgets room inp).1.length < room ∧ rest = [] then some (.text (buf ++ line), bufsiz, rest)
      else if (buf ++ line).length < bufsiz - 1 then some (.corrupt, bufsiz, rest)
      else if 2 ^ 31 ≤ 2 * bufsiz then none
      else readhistline (buf ++ line) (2 * bufsiz) rest
    else
      let text := buf ++ line.dropLast
      -- after a newline the end of the file has not been met
      if text.getLast? = some 92 then readhistline (text.dropLast ++ [10]) bufsiz rest
      else (dropSpace text).map fun text => (.text text, bufsiz, rest)
termination_by inp.length
decreasing_by
  all_goals exact fgets_rest_lt h

theorem readhistline_rest_lt {buf : Bytes} {bufsiz : Nat} {inp : Bytes} {text : Bytes}
    {bufsiz' : Nat} {rest : Bytes}
    (h : readhistline buf bufsiz inp = some (.text text, bufsiz', rest)) :
    rest.length < inp.length := by
  fun_induction readhistline buf bufsiz inp with
  | case1 => cases h
  | case2 => cases h
  | case3 =>
    rename_i hline _ _
    have hrest := (Prod.mk.inj (Prod.mk.inj (Option.some.inj h)).2).2
    exact hrest ▸ fgets_rest_lt hline
  | case4 => cases h
  | case5 => cases h
  | case6 =>
    rename_i hline _ _ _ _ ih
    exact (ih h).trans (fgets_rest_lt hline)
  | case7 =>
    rename_i hline _ _ _ ih
    exact (ih h).trans (fgets_rest_lt hline)
  | case8 =>
    rename_i hline _ _ _
    obtain ⟨_, -, heq⟩ := Option.map_eq_some_iff.mp h
    exact (Prod.mk.inj (Prod.mk.inj heq).2).2 ▸ fgets_rest_lt hline

/-- What a line is in the history.  `tim` is the time now. -/
def entryData (tim : Int) (buf : Bytes) : HistData :=
  let (stim, ftim, pt) := readEntry buf
  { nam := pt
    stim := if stim = 0 then tim else stim
    ftim := if stim = 0 then tim else if ftim < stim then long (stim + ftim) else ftim
    old := true, foreign := false, tmpstore := false, nowrite := false }

def addEntry (tim : Int) (s : Session) (buf : Bytes) : Session :=
  let (s, he) := prepnexthistent s (entryData tim buf)
  let s := addhistnode s he
  match s.ring.getLast? with
  | some he => if he.dup then { freehistnode s he with curhist := s.curhist - 1 } else s
  | none => s

def readLoop (tim : Int) (s : Session) (bufsiz : Nat) (inp : Bytes) : Option Session :=
  match _h : readhistline [] bufsiz inp with
  | none => none
  | some (.eof, _, _) => some s
  | some (.corrupt, _, _) => some s
  | some (.text buf, bufsiz, rest) => readLoop tim (addEntry tim s buf) bufsiz rest
termination_by inp.length
decreasing_by exact readhistline_rest_lt _h

def readhistfile (tim : Int) (file : Bytes) : Option Session := readLoop tim Session.empty 1024 file

def Size (bufsiz : Nat) : Prop := ∃ k, 10 ≤ k ∧ k ≤ 30 ∧ bufsiz = 2 ^ k

theorem fgets_line {l : Bytes} (h : (10 : UInt8) ∉ l) (rest : Bytes) {room : Nat}
    (hroom : l.length < room) : fgets room (l ++ 10 :: rest) = (l ++ [10], rest) := by
  induction l generalizing room with
  | nil =>
    obtain ⟨room, rfl⟩ := Nat.exists_eq_succ_of_ne_zero (Nat.ne_of_gt hroom)
    rfl
  | cons c l ih =>
    obtain ⟨room, rfl⟩ := Nat.exists_eq_succ_of_ne_zero (Nat.ne_of_gt (Nat.zero_lt_of_lt hroom))
    rw [List.length_cons] at hroom
    have hc : c ≠ 10 := fun heq => h (heq ▸ List.mem_cons_self)
    rw [List.cons_append, fgets, if_neg hc,
      ih (fun hl => h (List.mem_cons_of_mem c hl)) (by omega)]
    rfl

theorem fgets_part {l : Bytes} (h : (10 : UInt8) ∉ l) (rest : Bytes) {room : Nat}
    (hroom : room ≤ l.length) : fgets room (l ++ rest) = (l.take room, l.drop room ++ rest) := by
  induction l generalizing room with
  | nil =>
    obtain rfl : room = 0 := Nat.le_zero.mp hroom
    rfl
  | cons c l ih =>
    cases room with
    | zero => rfl
    | succ room =>
      rw [List.length_cons] at hroom
      have hc : c ≠ 10 := fun heq => h (heq ▸ List.mem_cons_self)
      rw [List.cons_append, fgets, if_neg hc,
        ih (fun hl => h (List.mem_cons_of_mem c hl)) (by omega)]
      rfl

theorem takeWhile_text {l : Bytes} (h : (0 : UInt8) ∉ l) : l.takeWhile (· ≠ 0) = l :=
  List.takeWhile_eq_self_iff.mpr fun _ hc => decide_eq_true fun heq => h (heq ▸ hc)

def lineEnd (text : Bytes) (bufsiz : Nat) (rest : Bytes) : Option (Line × Nat × Bytes) :=
  if text.getLast? = some 92 then readhistline (text.dropLast ++ [10]) bufsiz rest
  else (dropSpace text).map fun text => (.text text, bufsiz, rest)

theorem readhistline_whole {l : Bytes} (hnl : (10 : UInt8) ∉ l) (hnul : (0 : UInt8) ∉ l)
    (rest buf : Bytes) {bufsiz : Nat} (h : (buf ++ l).length + 2 ≤ bufsiz) :
    readhistline buf bufsiz (l ++ 10 :: rest) = lineEnd (buf ++ l) bufsiz rest := by
  rw [List.length_append] at h
  have hnul : (0 : UInt8) ∉ l ++ [10] := by
    rw [List.mem_append]
    exact not_or.mpr ⟨hnul, by decide⟩
  rw [readhistline, if_neg (by rw [List.append_eq_nil_iff]; exact fun h => nomatch h.2)]
  dsimp only
  rw [fgets_line hnl rest (by omega)]
  dsimp only
  rw [takeWhile_text hnul, dif_neg (by rw [List.append_eq_nil_iff]; exact fun h => nomatch h.2),
    if_neg (by rw [List.getLast?_concat]; exact fun h => h rfl), List.dropLast_concat]
  rfl

theorem readhistline_grow {l : Bytes} (hnl : (10 : UInt8) ∉ l) (hnul : (0 : UInt8) ∉ l)
    (rest buf : Bytes) {bufsiz : Nat} (hroom : buf.length + 2 ≤ bufsiz)
    (h : bufsiz < (buf ++ l).length + 2) :
    readhistline buf bufsiz (l ++ 10 :: rest) =
      if 2 ^ 31 ≤ 2 * bufsiz then none
      else readhistline (buf ++ l.take (bufsiz - buf.length - 1)) (2 * bufsiz)
        (l.drop (bufsiz - buf.length - 1) ++ 10 :: rest) := by
  rw [List.length_append] at h
  have hsub : ∀ c ∈ l.take (bufsiz - buf.length - 1), c ∈ l := fun c hc => List.mem_of_mem_take hc
  have hlength : (l.take (bufsiz - buf.length - 1)).length = bufsiz - buf.length - 1 := by
    rw [List.length_take]
    omega
  have hne : l.take (bufsiz - buf.length - 1) ≠ [] := fun hnil => by
    rw [hnil, List.length_nil] at hlength
    omega
  rw [readhistline, if_neg (by rw [List.append_eq_nil_iff]; exact fun h => nomatch h.2)]
  dsimp only
  rw [fgets_part hnl _ (by omega)]
  dsimp only
  rw [takeWhile_text (fun h => hnul (hsub _ h)), dif_neg hne, if_pos, if_neg, if_neg]
  · rw [List.length_append, hlength]
    omega
  · rw [hlength]
    exact fun h => Nat.lt_irrefl _ h.1
  · exact fun hlast => hnl (hsub _ (List.mem_of_getLast? hlast))

/-- A line is read to its end, whatever has to be done with the buffer, when it fits into the
largest buffer. -/
theorem readhistline_line {l : Bytes} (hnl : (10 : UInt8) ∉ l) (hnul : (0 : UInt8) ∉ l)
    (rest buf : Bytes) {bufsiz : Nat} (hsize : Size bufsiz) (hroom : buf.length + 2 ≤ bufsiz) :
    ((buf ++ l).length + 2 ≤ 2 ^ 30 ∧ ∃ bufsiz', Size bufsiz' ∧ (buf ++ l).length + 2 ≤ bufsiz' ∧
      readhistline buf bufsiz (l ++ 10 :: rest) = lineEnd (buf ++ l) bufsiz' rest) ∨
    (2 ^ 30 < (buf ++ l).length + 2 ∧ readhistline buf bufsiz (l ++ 10 :: rest) = none) := by
  obtain ⟨k, hk, hk30, rfl⟩ := hsize
  -- the buffer can be doubled so many times
  generalize hn : 30 - k = n
  induction n generalizing k buf l with
  | zero =>
    obtain rfl : k = 30 := by omega
    by_cases h : (buf ++ l).length + 2 ≤ 2 ^ 30
    · exact Or.inl ⟨h, 2 ^ 30, ⟨30, hk, hk30, rfl⟩, h, readhistline_whole hnl hnul rest buf h⟩
    · refine Or.inr ⟨by omega, ?_⟩
      rw [readhistline_grow hnl hnul rest buf hroom (by omega), if_pos (by decide)]
  | succ n ih =>
    have hle : (2 : Nat) ^ (k + 1) ≤ 2 ^ 30 := Nat.pow_le_pow_right (by omega) (by omega)
    have hsucc : (2 : Nat) ^ (k + 1) = 2 * 2 ^ k := by rw [Nat.pow_succ, Nat.mul_comm]
    by_cases h : (buf ++ l).length + 2 ≤ 2 ^ k
    · exact Or.inl ⟨by omega, 2 ^ k, ⟨k, hk, hk30, rfl⟩, h,
        readhistline_whole hnl hnul rest buf h⟩
    · have happ : buf ++ l.take (2 ^ k - buf.length - 1) ++ l.drop (2 ^ k - buf.length - 1) =
          buf ++ l := by
        rw [List.append_assoc, List.take_append_drop]
      have hlength : (buf ++ l.take (2 ^ k - buf.length - 1)).length ≤ 2 ^ k - 1 := by
        rw [List.length_append, List.length_take]
        omega
      have hstep := ih (l := l.drop (2 ^ k - buf.length - 1))
        (fun h => hnl (List.mem_of_mem_drop h)) (fun h => hnul (List.mem_of_mem_drop h))
        (buf ++ l.take (2 ^ k - buf.length - 1)) (k + 1) (by omega) (by omega)
        (by omega) (by omega)
      rw [happ, hsucc] at hstep
      rw [readhistline_grow hnl hnul rest buf hroom (by omega), if_neg (by omega)]
      exact hstep

/-! ## Entries -/

def Spaces (s : Bytes) : Prop := s ≠ [] ∧ ∀ c ∈ s, c = 32

instance (s : Bytes) : Decidable (Spaces s) := inferInstanceAs (Decidable (_ ∧ _))

theorem dropSpace_eq (buf : Bytes) :
    dropSpace buf = if Spaces buf then none else some (dropEndSpace buf) := by
  have hall : buf.reverse.dropWhile (· = 32) = [] ↔ ∀ c ∈ buf, c = 32 := by
    rw [List.dropWhile_eq_nil_iff]
    exact ⟨fun h c hc => of_decide_eq_true (h c (List.mem_reverse.mpr hc)),
      fun h c hc => decide_eq_true (h c (List.mem_reverse.mp hc))⟩
  unfold dropSpace dropEndSpace
  dsimp only
  cases hdrop : buf.reverse.dropWhile (· = 32) with
  | nil =>
    dsimp only
    by_cases hnil : buf = []
    · rw [if_pos hnil, if_neg fun h => h.1 hnil, if_neg fun h => nomatch h.2]
    · rw [if_neg hnil, if_pos ⟨hnil, hall.mp hdrop⟩]
  | cons c before =>
    dsimp only
    have hspaces : ¬Spaces buf := fun h => List.cons_ne_nil c before (hdrop ▸ hall.mpr h.2)
    rw [if_neg hspaces, List.head?_cons]
    by_cases h : (c :: before).length ≠ buf.length ∧ c = 92
    · rw [if_pos h, if_pos ⟨h.1, congrArg some h.2⟩]
    · rw [if_neg h, if_neg fun h' => h ⟨h'.1, Option.some.inj h'.2⟩]

theorem spaces_endSpace (s : Bytes) : Spaces (s ++ endSpace s) ↔ Spaces s := by
  unfold endSpace
  by_cases h : endBackslashes s = true
  · have hmem : (92 : UInt8) ∈ s := by
      have hlast := (endBackslashes_iff s).mp h
      exact List.mem_reverse.mp
        ((List.dropWhile_sublist _).subset (List.mem_of_head? hlast))
    rw [if_pos h]
    exact ⟨fun hs => absurd (hs.2 92 (List.mem_append_left _ hmem)) (by decide),
      fun hs => absurd (hs.2 92 hmem) (by decide)⟩
  · rw [if_neg h, List.append_nil]

theorem dropSpace_endSpace (s : Bytes) :
    dropSpace (s ++ endSpace s) = if Spaces s then none else some s := by
  rw [dropSpace_eq, dropEndSpace_endSpace]
  exact if_congr (spaces_endSpace s) rfl rfl

theorem zero_not_mem_endSpace (s : Bytes) : (0 : UInt8) ∉ endSpace s := by
  unfold endSpace
  by_cases h : endBackslashes s = true
  · rw [if_pos h]
    decide
  · rw [if_neg h]
    exact List.not_mem_nil

/-- The induction is on what is still to be read of a text.  `pre` is the part of the line that is
being read, `start` what the lines before it have left in the buffer. -/
theorem readhistline_escape (nam start pre rest : Bytes) {bufsiz : Nat}
    (hpre : (10 : UInt8) ∉ pre) (hnul : (0 : UInt8) ∉ pre ++ nam) (hsize : Size bufsiz)
    (hroom : start.length + 2 ≤ bufsiz) :
    ∃ bufsiz', Size bufsiz' ∧
      readhistline start bufsiz
          (pre ++ (escapeNewlines nam ++ (endSpace (start ++ pre ++ nam) ++ 10 :: rest))) =
        if (start ++ pre ++ nam ++ endSpace (start ++ pre ++ nam)).length + 2 ≤ 2 ^ 30 then
          (dropSpace (start ++ pre ++ nam ++ endSpace (start ++ pre ++ nam))).map
            fun text => (.text text, bufsiz', rest)
        else none := by
  induction nam generalizing start pre bufsiz with
  | nil =>
    have hline : (10 : UInt8) ∉ pre ++ endSpace (start ++ pre) := by
      rw [List.mem_append]
      exact not_or.mpr ⟨hpre, newline_not_mem_endSpace _⟩
    have hzero : (0 : UInt8) ∉ pre ++ endSpace (start ++ pre) := by
      rw [List.append_nil] at hnul
      rw [List.mem_append]
      exact not_or.mpr ⟨hnul, zero_not_mem_endSpace _⟩
    rw [List.append_nil]
    show ∃ bufsiz', Size bufsiz' ∧
      readhistline start bufsiz (pre ++ (endSpace (start ++ pre) ++ 10 :: rest)) = _
    rw [← List.append_assoc]
    rcases readhistline_line hline hzero rest start hsize hroom with
      ⟨hfits, bufsiz', hsize', -, heq⟩ | ⟨hover, heq⟩
    · rw [← List.append_assoc] at hfits heq
      refine ⟨bufsiz', hsize', ?_⟩
      rw [heq, if_pos hfits, lineEnd, if_neg (getLast?_endSpace _)]
    · rw [← List.append_assoc] at hover
      exact ⟨bufsiz, hsize, by rw [heq, if_neg (by omega)]⟩
  | cons c nam ih =>
    have hcons : start ++ pre ++ c :: nam = start ++ (pre ++ [c]) ++ nam := by
      rw [List.append_assoc start (pre ++ [c]), List.append_assoc pre, List.append_assoc]
      rfl
    by_cases hc : c = 10
    · subst hc
      have hline : (10 : UInt8) ∉ pre ++ [92] := by
        rw [List.mem_append]
        exact not_or.mpr ⟨hpre, by decide⟩
      rw [List.mem_append, List.mem_cons, not_or, not_or] at hnul
      have hzero : (0 : UInt8) ∉ pre ++ [92] := by
        rw [List.mem_append]
        exact not_or.mpr ⟨hnul.1, by decide⟩
      have hescape : escapeNewlines (10 :: nam) = 92 :: 10 :: escapeNewlines nam := rfl
      rw [hcons, ← List.append_assoc start, hescape, List.cons_append, List.cons_append,
        List.append_cons pre 92]
      rcases readhistline_line hline hzero
          (escapeNewlines nam ++ (endSpace (start ++ pre ++ [10] ++ nam) ++ 10 :: rest)) start
          hsize hroom with
        ⟨hfits, bufsiz', hsize', hroom', heq⟩ | ⟨hover, heq⟩
      · rw [← List.append_assoc, List.length_append, List.length_singleton] at hroom'
        obtain ⟨last, hlast, hread⟩ := ih (start ++ pre ++ [10]) [] List.not_mem_nil
          (by rw [List.nil_append]; exact hnul.2.2) hsize'
          (by rw [List.length_append, List.length_singleton]; exact hroom')
        rw [List.append_nil] at hread
        refine ⟨last, hlast, ?_⟩
        rw [heq, lineEnd, ← List.append_assoc, if_pos (by rw [List.getLast?_concat]),
          List.dropLast_concat]
        exact hread
      · refine ⟨bufsiz, hsize, ?_⟩
        rw [heq, if_neg]
        simp only [List.length_append, List.length_singleton] at hover ⊢
        omega
    · have hpre' : (10 : UInt8) ∉ pre ++ [c] := by
        rw [List.mem_append, List.mem_singleton]
        exact not_or.mpr ⟨hpre, fun heq => hc heq.symm⟩
      have hescape : escapeNewlines (c :: nam) = c :: escapeNewlines nam := by
        show (if c = 10 then [92, 10] else [c]) ++ escapeNewlines nam = _
        rw [if_neg hc]
        rfl
      rw [List.append_cons] at hnul
      rw [hcons, hescape, List.cons_append, List.append_cons pre c]
      exact ih start (pre ++ [c]) hpre' hnul hsize hroom

theorem digit_plain (d : Fin 10) : imeta (UInt8.ofNat (48 + d)) = false ∧
    UInt8.ofNat (48 + d) ≠ 10 ∧ UInt8.ofNat (48 + d) ≠ 0 ∧ UInt8.ofNat (48 + d) ≠ 59 := by
  revert d
  decide

theorem printLong_plain {i : Int} {c : UInt8} (h : c ∈ printLong i) :
    imeta c = false ∧ c ≠ 10 ∧ c ≠ 0 ∧ c ≠ 59 := by
  have hdecimal {n : Nat} (h : c ∈ decimal n) : imeta c = false ∧ c ≠ 10 ∧ c ≠ 0 ∧ c ≠ 59 := by
    obtain ⟨d, rfl⟩ := mem_decimal h
    exact digit_plain d
  cases i with
  | ofNat n => exact hdecimal h
  | negSucc n =>
    rcases List.mem_cons.mp h with rfl | h
    · decide
    · exact hdecimal h

section

variable (extended_history : Bool) (e : Entry)

theorem mem_entryStart {c : UInt8} (h : c ∈ entryStart extended_history e) :
    imeta c = false ∧ c ≠ 10 ∧ c ≠ 0 := by
  have hlong {i : Int} (h : c ∈ printLong i) : imeta c = false ∧ c ≠ 10 ∧ c ≠ 0 :=
    ⟨(printLong_plain h).1, (printLong_plain h).2.1, (printLong_plain h).2.2.1⟩
  unfold entryStart at h
  split_ifs at h
  · simp only [List.mem_cons, List.mem_append, List.not_mem_nil, or_false] at h
    rcases h with rfl | rfl | h | rfl | h | rfl
    · decide
    · decide
    · exact hlong h
    · decide
    · exact hlong h
    · decide
  · rw [List.mem_singleton.mp h]
    decide
  · exact absurd h List.not_mem_nil

theorem endSpace_entryStart :
    endSpace (entryStart extended_history e ++ e.nam.bytes) = endSpace e.nam.bytes := by
  have hback : endBackslashes (entryStart extended_history e ++ e.nam.bytes) =
      endBackslashes e.nam.bytes := by
    unfold entryStart
    split_ifs with hext hcolon
    · have hlast : 58 :: 32 :: (printLong e.stim ++ 58 :: (printLong e.duration ++ [59])) =
          (58 :: 32 :: (printLong e.stim ++ 58 :: printLong e.duration)) ++ [59] := by
        rw [List.cons_append, List.cons_append, List.append_assoc, List.cons_append]
      rw [hlast, endBackslashes_append _ _ (by decide) (by decide)]
    · obtain ⟨nam, hnam⟩ := List.head?_eq_some_iff.mp hcolon
      rw [hnam, List.append_cons,
        endBackslashes_append [92] nam (by decide) (by decide)]
      exact (endBackslashes_append [] nam (by decide) (by decide)).symm
    · rfl
  unfold endSpace
  rw [hback]

def Fits : Prop :=
  (entryStart extended_history e ++ e.nam.bytes ++ endSpace e.nam.bytes).length + 2 ≤ 2 ^ 30

instance : Decidable (Fits extended_history e) := inferInstanceAs (Decidable (_ ≤ _))

/-- `readhistline` reads the line of the entry, and stays in its buffer. -/
def Readable : Prop := Fits extended_history e ∧ ¬(extended_history = false ∧ Spaces e.nam.bytes)

instance : Decidable (Readable extended_history e) := inferInstanceAs (Decidable (_ ∧ _))

theorem spaces_entryStart :
    Spaces (entryStart extended_history e ++ e.nam.bytes) ↔
      extended_history = false ∧ Spaces e.nam.bytes := by
  unfold entryStart
  split_ifs with hext hcolon
  · refine ⟨fun h => ?_, fun h => ?_⟩
    · exact absurd (h.2 58 List.mem_cons_self) (by decide)
    · exact absurd (h.1.symm.trans hext) Bool.false_ne_true
  · refine ⟨fun h => ?_, fun h => ?_⟩
    · exact absurd (h.2 92 List.mem_cons_self) (by decide)
    · exact absurd (h.2.2 58 (List.mem_of_head? hcolon)) (by decide)
  · exact ⟨fun h => ⟨Bool.eq_false_iff.mpr hext, h⟩, fun h => h.2⟩

theorem readhistline_entry (rest : Bytes) {bufsiz : Nat} (hsize : Size bufsiz) :
    ∃ bufsiz', Size bufsiz' ∧ readhistline [] bufsiz (entryLine extended_history e ++ rest) =
      if Readable extended_history e then
        some (.text (entryStart extended_history e ++ e.nam.bytes), bufsiz', rest)
      else none := by
  obtain ⟨raw, hraw⟩ := e.nam.metafied
  have hroom : 0 + 2 ≤ bufsiz := by
    obtain ⟨k, hk, -, rfl⟩ := hsize
    exact Nat.le_trans (by decide) (Nat.pow_le_pow_right (Nat.zero_lt_two) hk)
  have hnul : (0 : UInt8) ∉ entryStart extended_history e ++ e.nam.bytes := by
    rw [List.mem_append, hraw]
    exact not_or.mpr ⟨fun h => (mem_entryStart extended_history e h).2.2 rfl,
      metafy_noNull raw⟩
  obtain ⟨bufsiz', hsize', hread⟩ := readhistline_escape e.nam.bytes []
    (entryStart extended_history e) rest
    (fun h => (mem_entryStart extended_history e h).2.1 rfl) hnul hsize hroom
  have hline : entryLine extended_history e ++ rest = entryStart extended_history e ++
      (escapeNewlines e.nam.bytes ++ (endSpace e.nam.bytes ++ 10 :: rest)) := by
    unfold entryLine
    rw [List.append_assoc, List.append_assoc, List.append_assoc]
    rfl
  have hdrop := dropSpace_endSpace (entryStart extended_history e ++ e.nam.bytes)
  rw [endSpace_entryStart] at hdrop
  rw [List.nil_append, endSpace_entryStart, hdrop] at hread
  refine ⟨bufsiz', hsize', ?_⟩
  rw [hline, hread]
  change (if Fits extended_history e then _ else none) = _
  by_cases hfits : Fits extended_history e
  · rw [if_pos hfits]
    by_cases hspaces : extended_history = false ∧ Spaces e.nam.bytes
    · rw [if_pos ((spaces_entryStart extended_history e).mpr hspaces),
        if_neg fun h => h.2 hspaces]
      rfl
    · rw [if_neg fun h => hspaces ((spaces_entryStart extended_history e).mp h),
        if_pos ⟨hfits, hspaces⟩]
      rfl
  · rw [if_neg hfits, if_neg fun h => hfits h.1]

theorem splitEntry_times (stim ftim : Int) (nam : Bytes) :
    splitEntry (58 :: 32 :: (printLong stim ++ 58 :: (printLong ftim ++ [59])) ++ nam) =
      (stim, ftim, nam) := by
  have happ : 58 :: 32 :: (printLong stim ++ 58 :: (printLong ftim ++ [59])) ++ nam =
      58 :: 32 :: (printLong stim ++ 58 :: (printLong ftim ++ 59 :: nam)) := by
    rw [List.cons_append, List.cons_append, List.append_assoc, List.cons_append,
      List.append_assoc]
    rfl
  have hcolon : (32 :: (printLong stim ++ 58 :: (printLong ftim ++ 59 :: nam))).dropWhile
      (· ≠ 58) = 58 :: (printLong ftim ++ 59 :: nam) := by
    rw [List.dropWhile_cons_of_pos (by decide),
      dropWhile_colon fun c hc => (mem_printLong hc).2.1]
  have hsemi : (printLong ftim ++ 59 :: nam).dropWhile (· ≠ 59) = 59 :: nam := by
    rw [List.dropWhile_append_of_pos fun c hc => decide_eq_true (printLong_plain hc).2.2.2]
    rfl
  rw [happ, splitEntry, hcolon, zstrtol_blank, zstrtol_printLong stim (Or.inl rfl)]
  dsimp only
  rw [zstrtol_printLong ftim (Or.inr rfl), hsemi]
  rfl

/-- Before a text that is not extended, a backslash and a colon stand for a colon. -/
def readText (nam : Bytes) : Bytes := if [92, 58] <+: nam then nam.drop 1 else nam

theorem splitEntry_text {nam : Bytes} (h : nam.head? ≠ some 58) :
    splitEntry nam = (0, 0, readText nam) := by
  unfold splitEntry readText
  split
  · exact absurd rfl h
  · rename_i pt
    rw [if_pos ⟨pt, rfl⟩]
    rfl
  · rename_i hbackslash
    rw [if_neg]
    rintro ⟨pt, rfl⟩
    exact hbackslash pt rfl

theorem readEntry_entryStart :
    readEntry (entryStart extended_history e ++ e.nam.bytes) =
      if extended_history then (e.stim, e.duration, e.nam.bytes)
      else (0, 0, readText e.nam.bytes) := by
  obtain ⟨raw, hraw⟩ := e.nam.metafied
  have hplain : remeta (entryStart extended_history e ++ e.nam.bytes) = false := by
    rw [remeta_append fun c hc => (mem_entryStart extended_history e hc).1, hraw, remeta_metafy]
  unfold readEntry
  rw [hplain, if_neg Bool.false_ne_true]
  unfold entryStart
  split_ifs with hext hcolon
  · exact splitEntry_times e.stim e.duration e.nam.bytes
  · obtain ⟨nam, hnam⟩ := List.head?_eq_some_iff.mp hcolon
    rw [hnam]
    rfl
  · exact splitEntry_text hcolon

end

theorem toHistData_markDup (ring : List Histent) (addr : Nat) :
    (ring.map (markDup addr)).map (·.toHistData) = ring.map (·.toHistData) := by
  rw [List.map_map]
  refine List.map_congr_left fun he _ => ?_
  unfold markDup
  show (if he.addr = addr then _ else he).toHistData = he.toHistData
  split_ifs <;> rfl

theorem addhistnode_ring {s : Session} {he : Histent} (hforeign : he.foreign = false)
    (htop : s.ring.getLast? = some he) (hdup : he.dup = false) :
    (addhistnode s he).ring.map (·.toHistData) = s.ring.map (·.toHistData) ∧
      ∃ top, (addhistnode s he).ring.getLast? = some top ∧ top.dup = false := by
  unfold addhistnode
  cases hadd : History.addhashnode2 s.histtab he.nam he.addr with
  | mk oldnode tab =>
    cases oldnode with
    | none => exact ⟨rfl, he, htop, hdup⟩
    | some oldnode =>
      dsimp only
      split_ifs with hsame hforeign'
      · exact ⟨rfl, he, htop, hdup⟩
      · exact absurd (hforeign.symm.trans hforeign'.1) Bool.false_ne_true
      · refine ⟨toHistData_markDup s.ring oldnode.2, he, ?_, hdup⟩
        rw [List.getLast?_map, htop, Option.map_some, markDup, if_neg fun h => hsame h.symm]

theorem addEntry_ring (tim : Int) {s : Session} (buf : Bytes)
    (hperm : ∀ he ∈ s.ring, he.tmpstore = false) :
    (addEntry tim s buf).ring.map (·.toHistData) =
      s.ring.map (·.toHistData) ++ [entryData tim buf] := by
  have hdrop : dropTop s = s := by
    unfold dropTop
    cases htop : s.ring.getLast? with
    | none => rfl
    | some he =>
      dsimp only
      rw [if_neg (by rw [hperm he (List.mem_of_getLast? htop)]; exact Bool.false_ne_true)]
  obtain ⟨hring, top, htop, hdup⟩ := @addhistnode_ring (prepnexthistent s (entryData tim buf)).1
    (prepnexthistent s (entryData tim buf)).2 rfl (List.getLast?_concat ..) rfl
  unfold addEntry
  dsimp only
  rw [htop]
  dsimp only
  rw [if_neg (by rw [hdup]; exact Bool.false_ne_true), hring]
  show (((dropTop s).ring ++ [_]).map _) = _
  rw [hdrop, List.map_append]
  rfl

theorem readLoop_text {tim : Int} {s : Session} {bufsiz bufsiz' : Nat} {inp buf rest : Bytes}
    (h : readhistline [] bufsiz inp = some (.text buf, bufsiz', rest)) :
    readLoop tim s bufsiz inp = readLoop tim (addEntry tim s buf) bufsiz' rest := by
  rw [readLoop]
  split <;> rename_i heq <;> rw [h] at heq <;> cases heq
  rfl

theorem readLoop_none {tim : Int} {s : Session} {bufsiz : Nat} {inp : Bytes}
    (h : readhistline [] bufsiz inp = none) : readLoop tim s bufsiz inp = none := by
  rw [readLoop]
  split <;> rename_i heq <;> rw [h] at heq <;> cases heq

theorem readLoop_save (extended_history : Bool) (tim : Int) (entries : List Entry) {s : Session}
    {bufsiz : Nat} (hsize : Size bufsiz) (hperm : ∀ he ∈ s.ring, he.tmpstore = false) :
    ((∀ e ∈ entries, Readable extended_history e) ∧
      ∃ s', readLoop tim s bufsiz (savehistfile extended_history entries) = some s' ∧
        s'.ring.map (·.toHistData) = s.ring.map (·.toHistData) ++ entries.map fun e =>
          entryData tim (entryStart extended_history e ++ e.nam.bytes)) ∨
    (¬(∀ e ∈ entries, Readable extended_history e) ∧
      readLoop tim s bufsiz (savehistfile extended_history entries) = none) := by
  induction entries generalizing s bufsiz with
  | nil =>
    refine Or.inl ⟨fun e he => absurd he List.not_mem_nil, s, ?_, (List.append_nil _).symm⟩
    rw [readLoop]
    split <;> rename_i heq <;> rw [readhistline] at heq <;> cases heq
  | cons e entries ih =>
    have hfile : savehistfile extended_history (e :: entries) =
        entryLine extended_history e ++ savehistfile extended_history entries := rfl
    obtain ⟨bufsiz', hsize', hread⟩ := readhistline_entry extended_history e
      (savehistfile extended_history entries) hsize
    by_cases hreadable : Readable extended_history e
    · rw [if_pos hreadable] at hread
      have hring := addEntry_ring tim (entryStart extended_history e ++ e.nam.bytes) hperm
      have hperm' : ∀ he ∈ (addEntry tim s (entryStart extended_history e ++ e.nam.bytes)).ring,
          he.tmpstore = false := by
        intro he hmem
        have hdata := List.mem_map_of_mem (f := (·.toHistData)) hmem
        rw [hring] at hdata
        rcases List.mem_append.mp hdata with hdata | hdata
        · obtain ⟨he', hmem', heq⟩ := List.mem_map.mp hdata
          exact (congrArg HistData.tmpstore heq).symm.trans (hperm he' hmem')
        · exact congrArg HistData.tmpstore (List.mem_singleton.mp hdata)
      rw [hfile, readLoop_text hread]
      rcases ih hsize' hperm' with ⟨hall, s', hloop, heq⟩ | ⟨hbad, hloop⟩
      · refine Or.inl ⟨fun d hd => ?_, s', hloop, ?_⟩
        · rcases List.mem_cons.mp hd with rfl | hd
          · exact hreadable
          · exact hall d hd
        · rw [heq, hring, List.append_assoc]
          rfl
      · exact Or.inr ⟨fun hall => hbad fun d hd => hall d (List.mem_cons_of_mem e hd), hloop⟩
    · rw [if_neg hreadable] at hread
      refine Or.inr ⟨fun hall => hreadable (hall e List.mem_cons_self), ?_⟩
      rw [hfile, readLoop_none hread]

/-- The entry that was read is the entry that was written; the times are in the file when it is
extended. -/
structure SameEntry (extended_history : Bool) (e : Entry) (he : Histent) : Prop where
  nam : he.nam = e.nam.bytes
  times : extended_history = true → 0 < e.stim → 0 ≤ e.ftim - e.stim →
    e.ftim - e.stim < e.stim → he.stim = e.stim ∧ he.ftim - he.stim = e.ftim - e.stim

/-- What was written is read back, and nothing before the buffer of `readhistline` is read. -/
def RoundTrips (extended_history : Bool) (tim : Int) (entries : List Entry) : Prop :=
  ∃ s, readhistfile tim (savehistfile extended_history entries) = some s ∧
    List.Forall₂ (SameEntry extended_history) entries s.ring

/-- A text in a file that is not extended is not spaces only, and does not begin with a backslash
and a colon. -/
def Plain (nam : Bytes) : Prop := ¬Spaces nam ∧ ¬[92, 58] <+: nam

theorem readText_eq_self_iff (nam : Bytes) : readText nam = nam ↔ ¬[92, 58] <+: nam := by
  unfold readText
  split_ifs with h
  · refine ⟨fun heq => ?_, fun hnot => absurd h hnot⟩
    obtain ⟨t, rfl⟩ := h
    have hlength := congrArg List.length heq
    rw [List.length_drop, List.length_append, List.length_cons] at hlength
    omega
  · exact ⟨fun _ => h, fun _ => rfl⟩

theorem duration_eq {e : Entry} (hstim : 0 < e.stim) (hdur : 0 ≤ e.ftim - e.stim) :
    e.duration = e.ftim - e.stim := by
  have hrange := e.ftim_range
  unfold Entry.duration long
  rw [if_neg (by omega)]
  omega

theorem sameEntry_iff (extended_history : Bool) (tim : Int) (e : Entry) {he : Histent}
    (h : he.toHistData = entryData tim (entryStart extended_history e ++ e.nam.bytes)) :
    SameEntry extended_history e he ↔
      (extended_history = false → ¬[92, 58] <+: e.nam.bytes) := by
  have hentry := readEntry_entryStart extended_history e
  cases extended_history with
  | false =>
    have hnam : he.nam = readText e.nam.bytes := by
      have heq := congrArg HistData.nam h
      unfold entryData at heq
      rw [hentry] at heq
      exact heq
    refine ⟨fun hsame _ => (readText_eq_self_iff _).mp (hnam.symm.trans hsame.nam), fun hplain =>
      ⟨hnam.trans ((readText_eq_self_iff _).mpr (hplain rfl)), nofun⟩⟩
  | true =>
    have hdata : he.toHistData = _ := h
    unfold entryData at hdata
    rw [hentry] at hdata
    refine ⟨fun _ => nofun, fun _ => ⟨congrArg HistData.nam hdata, fun _ hstim hdur hlt => ?_⟩⟩
    have hs : he.stim = if e.stim = 0 then tim else e.stim := congrArg HistData.stim hdata
    have hf : he.ftim = if e.stim = 0 then tim else
        if e.duration < e.stim then long (e.stim + e.duration) else e.duration :=
      congrArg HistData.ftim hdata
    have hrange := e.ftim_range
    rw [duration_eq hstim hdur, if_neg (by omega), if_pos hlt] at hf
    rw [if_neg (by omega)] at hs
    unfold long at hf
    exact ⟨hs, by omega⟩

theorem forall₂_sameEntry_iff (extended_history : Bool) (tim : Int) (entries : List Entry)
    {ring : List Histent}
    (h : ring.map (·.toHistData) = entries.map fun e =>
      entryData tim (entryStart extended_history e ++ e.nam.bytes)) :
    List.Forall₂ (SameEntry extended_history) entries ring ↔
      ∀ e ∈ entries, extended_history = false → ¬[92, 58] <+: e.nam.bytes := by
  induction entries generalizing ring with
  | nil =>
    rw [List.map_nil, List.map_eq_nil_iff] at h
    rw [h]
    exact ⟨fun _ e he => absurd he List.not_mem_nil, fun _ => List.Forall₂.nil⟩
  | cons e entries ih =>
    cases ring with
    | nil => cases h
    | cons he ring =>
      rw [List.map_cons, List.map_cons] at h
      obtain ⟨hhead, htail⟩ := List.cons.inj h
      rw [List.forall₂_cons, List.forall_mem_cons, ih htail,
        sameEntry_iff extended_history tim e hhead]

theorem roundTrips_iff_entries (extended_history : Bool) (tim : Int) (entries : List Entry) :
    RoundTrips extended_history tim entries ↔ (∀ e ∈ entries, Readable extended_history e) ∧
      ∀ e ∈ entries, extended_history = false → ¬[92, 58] <+: e.nam.bytes := by
  have hperm : ∀ he ∈ Session.empty.ring, he.tmpstore = false :=
    fun he hmem => absurd hmem List.not_mem_nil
  rcases readLoop_save extended_history tim entries (show Size 1024 from ⟨10, by decide⟩) hperm
    with
    ⟨hall, s, hloop, hring⟩ | ⟨hbad, hloop⟩
  · have hring' : s.ring.map (·.toHistData) = entries.map fun e =>
        entryData tim (entryStart extended_history e ++ e.nam.bytes) := hring
    rw [← forall₂_sameEntry_iff extended_history tim entries hring']
    refine ⟨fun ⟨s', hread, hsame⟩ => ⟨hall, ?_⟩, fun h => ⟨s, hloop, h.2⟩⟩
    rw [readhistfile, hloop] at hread
    exact Option.some.inj hread ▸ hsame
  · refine ⟨fun ⟨s, hread, _⟩ => ?_, fun h => absurd h.1 hbad⟩
    rw [readhistfile, hloop] at hread
    cases hread

/-- A history comes back from its file exactly when no line is too long for a buffer whose size is
an `int` and, in a file that is not extended, each text is plain. -/
theorem readhistfile_savehistfile_iff (extended_history : Bool) (tim : Int)
    (entries : List Entry) :
    RoundTrips extended_history tim entries ↔
      ∀ e ∈ entries, Fits extended_history e ∧ (extended_history = false → Plain e.nam.bytes) := by
  rw [roundTrips_iff_entries, ← forall₂_and]
  refine forall₂_congr fun e _ => ?_
  unfold Readable Plain
  tauto

def backslashColon : Entry where
  nam := ⟨[92, 58], [92, 58], by decide⟩
  stim := 1
  ftim := 1
  stim_range := by decide
  ftim_range := by decide

theorem not_roundTrips_backslashColon : ¬RoundTrips false 0 [backslashColon] := by
  rw [roundTrips_iff_entries]
  exact fun h => h.2 backslashColon List.mem_cons_self rfl (by decide)

end NextBSD.Zsh.HistoryFile
