import NextBSD.Util.StrtonumExact

/-!
# iolog_timing.c: the timing file

What the plugin writes about the events of a session, and the reader by which `sudoreplay` gets
them back.  The names of signals are those of the platform.
-/

namespace NextBSD.Iolog.Timing

open Digits

structure Timespec where
  sec : Int
  nsec : Int
  deriving DecidableEq, Repr

def Timespec.ns (t : Timespec) : Int := t.sec * 1000000000 + t.nsec

/-- What a clock of 64 bits shows. -/
structure Timespec.Shown (t : Timespec) : Prop where
  sec : 0 ≤ t.sec ∧ t.sec < 2 ^ 63
  nsec : 0 ≤ t.nsec ∧ t.nsec < 1000000000

/-- The loop of `sudo_timespecsub`. -/
def borrow (sec nsec : Int) : Timespec :=
  if nsec < 0 then borrow (sec - 1) (nsec + 1000000000) else { sec := sec, nsec := nsec }
termination_by (-nsec).toNat

def timespecsub (ts1 ts2 : Timespec) : Timespec := borrow (ts1.sec - ts2.sec) (ts1.nsec - ts2.nsec)

inductive Stream where
  | stdin | stdout | stderr | ttyin | ttyout
  deriving DecidableEq, Repr

/-- `IO_EVENT_STDIN` to `IO_EVENT_TTYOUT`. -/
def Stream.event : Stream → Nat
  | .stdin => 0
  | .stdout => 1
  | .stderr => 2
  | .ttyin => 3
  | .ttyout => 4

inductive IoEvent where
  | log (stream : Stream) (len : Nat)
  | winsize (lines cols : Nat)
  | suspend (signo : Int)
  deriving DecidableEq, Repr

/-- `printf` with `%09ld`. -/
def printPadded (n : Int) : Bytes :=
  let digits := printUnsigned n.natAbs
  if n < 0 then 45 :: (List.replicate (8 - digits.length) 48 ++ digits)
  else List.replicate (9 - digits.length) 48 ++ digits

def timingLine (event : Nat) (delay : Timespec) (fields : Bytes) : Bytes :=
  printUnsigned event ++ 32 :: (printSigned delay.sec ++ 46 :: (printPadded delay.nsec ++
    32 :: (fields ++ [10])))

def written (line : Bytes) : Bytes := if 1024 ≤ line.length then [] else line

section
variable (sig2str : Int → Option Bytes)

def signame (signo : Int) : Option Bytes := if signo ≤ 0 then none else sig2str signo

/-- `sudoers_io_log`, `sudoers_io_change_winsize` and `sudoers_io_suspend`: what `last_time` becomes
and what is written. -/
def record (last now : Timespec) : IoEvent → Timespec × Bytes
  | .log stream len =>
    (now, written (timingLine stream.event (timespecsub now last) (printUnsigned len)))
  | .winsize lines cols =>
    (now, written (timingLine 5 (timespecsub now last)
      (printUnsigned lines ++ 32 :: printUnsigned cols)))
  | .suspend signo =>
    match signame sig2str signo with
    | none => (last, [])
    | some name => (now, written (timingLine 7 (timespecsub now last) name))

def timingFile : Timespec → List (Timespec × IoEvent) → Bytes
  | _, [] => []
  | last, (now, e) :: session =>
    (record sig2str last now e).2 ++ timingFile (record sig2str last now e).1 session

end

inductive TimingData where
  | nbytes (n : Nat)
  | winsize (lines cols : Nat)
  | signo (signo : Int)
  deriving DecidableEq, Repr

structure TimingRecord where
  event : Int
  delay : Timespec
  data : TimingData
  deriving DecidableEq, Repr

/-- `strtoul` with base 10 and a long of 64 bits: the number, whether it is out of range, and what
is behind it; `none` where there are no digits. -/
def strtoul (str : Bytes) : Option (Nat × Bool × Bytes) :=
  let (negative, digits, rest) := Util.parts str
  let n := readDigits 10 digits
  if digits = [] then none
  else if 2 ^ 64 ≤ n then some (2 ^ 64 - 1, true, rest)
  else some (if negative then (2 ^ 64 - n) % 2 ^ 64 else n, false, rest)

/-- The digits that have been copied to `numbuf` as a number. -/
def wholeNumber (numbuf : Bytes) (maxval : Int) : Option Int :=
  if 21 ≤ numbuf.length then none
  else (Util.sudoStrtonum numbuf 0 maxval).bind fun answer =>
    if answer.errstr = none then some answer.value else none

/-- The loops that bring a fraction of `len` digits to nine. -/
def nanoseconds (len : Nat) (llval : Int) : Int :=
  if len < 9 then (· * 10)^[9 - len] llval else (Int.tdiv · 10)^[len - 9] llval

def iologParseDelay (decimalPoint : UInt8) (cp : Bytes) : Option (Timespec × Bytes) := do
  let sec ← wholeNumber (cp.takeWhile isdigit) (2 ^ 63 - 1)
  match cp.dropWhile isdigit with
  | [] => some ({ sec := sec, nsec := 0 }, [])
  | c :: ep =>
    if c ≠ 46 ∧ c ≠ decimalPoint then
      if isspace c then some ({ sec := sec, nsec := 0 }, (c :: ep).dropWhile isspace) else none
    else do
      let llval ← wholeNumber (ep.takeWhile isdigit) (2 ^ 63 - 1)
      some ({ sec := sec, nsec := nanoseconds (ep.takeWhile isdigit).length llval },
        (ep.dropWhile isdigit).dropWhile isspace)

def startsBlank (ep : Bytes) : Bool := ep.head?.any isspace

def nextField (ep : Bytes) : Bytes := ep.tail.dropWhile isspace

section
variable (decimalPoint : UInt8) (str2sig : Bytes → Option Int)

def parseData (event : Int) (cp : Bytes) : Option TimingData :=
  if event = 7 then (str2sig cp).map .signo
  else if event = 5 then do
    let (lines, _, ep) ← strtoul cp
    if ¬ startsBlank ep ∨ 2 ^ 31 - 1 < lines then none
    else do
      let (cols, _, ep) ← strtoul (nextField ep)
      if ep ≠ [] ∨ 2 ^ 31 - 1 < cols then none else some (.winsize lines cols)
  else do
    let (n, erange, ep) ← strtoul cp
    if ep ≠ [] ∨ erange then none else some (.nbytes n)

/-- `iolog_parse_timing`, with `timing_event_adj` before and behind it. -/
def iologParseTiming (adj : Int) (line : Bytes) : Int × Option TimingRecord :=
  match strtoul line with
  | none => (adj, none)
  | some (n, _, ep) =>
    if ¬ startsBlank ep ∨ 8 ≤ n then (adj, none)
    else
      -- a bug in timing files generated by sudo 1.8.7
      let adj := if n = 6 then 2 else adj
      (adj, do
        let (delay, cp) ← iologParseDelay decimalPoint (nextField ep)
        let data ← parseData str2sig (n - adj) cp
        some { event := n - adj, delay := delay, data := data })

def fgets : Nat → Bytes → Bytes × Bytes
  | 0, file => ([], file)
  | _ + 1, [] => ([], [])
  | n + 1, c :: file => if c = 10 then ([c], file) else (c :: (fgets n file).1, (fgets n file).2)

theorem length_fgets (n : Nat) (file : Bytes) : (fgets n file).2.length ≤ file.length := by
  induction n generalizing file with
  | zero => exact Nat.le_refl _
  | succ n ih =>
    cases file with
    | nil => exact Nat.le_refl _
    | cons c file =>
      have hle := ih file
      rw [fgets]
      split_ifs
      · exact Nat.le_succ _
      · exact Nat.le_succ_of_le hle

/-- All records up to the end of the file, or `none` at an invalid line. -/
def readTimings (adj : Int) : Bytes → Option (List TimingRecord)
  | [] => some []
  | c :: file =>
    let line := (fgets 2047 (c :: file)).1.takeWhile fun c => c ≠ 10 ∧ c ≠ 0
    match (iologParseTiming decimalPoint str2sig adj line).2 with
    | none => none
    | some r =>
      (readTimings (iologParseTiming decimalPoint str2sig adj line).1
        (fgets 2047 (c :: file)).2).map (r :: ·)
termination_by file => file.length
decreasing_by
  have hle := length_fgets 2046 file
  rw [fgets]
  split_ifs
  · exact Nat.lt_succ_self _
  · exact Nat.lt_succ_of_le hle

end

/-- What the record of an event is to say, unless its signal has no name. -/
def IoEvent.entry (sig2str : Int → Option Bytes) : IoEvent → Option (Int × TimingData)
  | .log stream len => some (stream.event, .nbytes len)
  | .winsize lines cols => some (5, .winsize lines cols)
  | .suspend signo => (signame sig2str signo).map fun _ => (7, .signo signo)

/-- The events that are recorded, each with the time at which it happened. -/
def happened (sig2str : Int → Option Bytes) (session : List (Timespec × IoEvent)) :
    List (Int × Int × TimingData) :=
  session.filterMap fun p => (p.2.entry sig2str).map fun entry => (p.1.ns, entry)

/-- The times at which a player that waits for each delay comes to the records. -/
def played : Int → List TimingRecord → List (Int × Int × TimingData)
  | _, [] => []
  | t, r :: records => (t + r.delay.ns, r.event, r.data) :: played (t + r.delay.ns) records

def IoEvent.Typed : IoEvent → Prop
  | .log _ len => len < 2 ^ 32
  | .winsize lines cols => lines < 2 ^ 32 ∧ cols < 2 ^ 32
  | .suspend _ => True

def Ordered : Timespec → List (Timespec × IoEvent) → Prop
  | _, [] => True
  | last, (now, _) :: session => now.Shown ∧ last.ns ≤ now.ns ∧ Ordered now session

def IoEvent.Readable (sig2str : Int → Option Bytes) (str2sig : Bytes → Option Int) : IoEvent → Prop
  | .log _ _ => True
  | .winsize lines cols => lines < 2 ^ 31 ∧ cols < 2 ^ 31
  | .suspend signo => ∀ name, signame sig2str signo = some name → str2sig name = some signo

theorem borrow_ns (sec nsec : Int) : (borrow sec nsec).ns = sec * 1000000000 + nsec := by
  induction sec, nsec using borrow.induct with
  | case1 sec nsec h ih =>
    rw [borrow, if_pos h, ih]
    omega
  | case2 sec nsec h => rw [borrow, if_neg h, Timespec.ns]

theorem timespecsub_ns (ts1 ts2 : Timespec) : (timespecsub ts1 ts2).ns = ts1.ns - ts2.ns := by
  rw [timespecsub, borrow_ns, Timespec.ns, Timespec.ns]
  omega

theorem timespecsub_shown {ts1 ts2 : Timespec} (h1 : ts1.Shown) (h2 : ts2.Shown)
    (hle : ts2.ns ≤ ts1.ns) : (timespecsub ts1 ts2).Shown := by
  obtain ⟨hsec1, hnsec1⟩ := h1
  obtain ⟨hsec2, hnsec2⟩ := h2
  unfold Timespec.ns at hle
  unfold timespecsub
  by_cases hborrow : ts1.nsec - ts2.nsec < 0
  · have hdone : ¬ ts1.nsec - ts2.nsec + 1000000000 < 0 := by omega
    rw [borrow, if_pos hborrow, borrow, if_neg hdone]
    constructor <;> dsimp only <;> omega
  · rw [borrow, if_neg hborrow]
    constructor <;> dsimp only <;> omega

/-! ## Numbers -/

section
variable {digits : List Nat} {rest : Bytes}

theorem digitText_append (a b : List Nat) : digitText (a ++ b) = digitText a ++ digitText b :=
  List.map_append

theorem span_digits (hdigits : ∀ d ∈ digits, d < 10)
    (hrest : ∀ c cp, rest = c :: cp → isdigit c = false) :
    (digitText digits ++ rest).takeWhile isdigit = digitText digits ∧
      (digitText digits ++ rest).dropWhile isdigit = rest := by
  have hall : ∀ c ∈ digitText digits, isdigit c = true :=
    fun c hc => Util.isdigit_of_mem_digitText hdigits hc
  have hstop : rest.takeWhile isdigit = [] ∧ rest.dropWhile isdigit = rest := by
    cases rest with
    | nil => exact ⟨rfl, rfl⟩
    | cons c cp =>
      have hc := hrest c cp rfl
      simp [hc]
  rw [List.takeWhile_append_of_pos hall, List.dropWhile_append_of_pos hall, hstop.1, hstop.2,
    List.append_nil]
  exact ⟨rfl, rfl⟩

theorem parts_digits (hnil : digits = [] → rest = []) (hdigits : ∀ d ∈ digits, d < 10)
    (hrest : ∀ c cp, rest = c :: cp → isdigit c = false) :
    Util.Parts (digitText digits ++ rest) false digits rest := by
  refine ⟨[], [], rfl, fun _ hc => absurd hc List.not_mem_nil, Or.inr ⟨rfl, Or.inl rfl⟩, hdigits,
    hrest, fun hdigits _ c cp h => ?_⟩
  rw [hnil hdigits] at h
  cases h

theorem strtoul_print {n : Nat} (hn : n < 2 ^ 64)
    (hrest : ∀ c cp, rest = c :: cp → isdigit c = false) :
    strtoul (printUnsigned n ++ rest) = some (n, false, rest) := by
  obtain ⟨digits, hne, hdigits, hread, hprint⟩ := printUnsigned_digits n
  rw [hprint, strtoul, Util.parts_eq_iff.mpr (parts_digits (absurd · hne) hdigits hrest)]
  dsimp only
  rw [if_neg hne, hread, if_neg (by omega)]
  rfl

def Whole (digits : List Nat) : Prop :=
  digits ≠ [] ∧ digits.length ≤ 20 ∧ (readDigits 10 digits : Int) ≤ 2 ^ 63 - 1

instance : Decidable (Whole digits) := by unfold Whole; infer_instance

theorem wholeNumber_eq (hdigits : ∀ d ∈ digits, d < 10) :
    wholeNumber (digitText digits) (2 ^ 63 - 1) =
      if Whole digits then some (readDigits 10 digits : Int) else none := by
  have hlength : (digitText digits).length = digits.length := List.length_map _
  by_cases hshort : digits.length ≤ 20
  swap
  · rw [wholeNumber, if_pos (by omega), if_neg (fun h => hshort h.2.1)]
  have hparts := @parts_digits digits [] (fun _ => rfl) hdigits fun _ _ h => by cases h
  rw [List.append_nil] at hparts
  have hinside : ¬ Util.Outside false 0 (2 ^ 63 - 1) :=
    fun h => absurd (show (0 : Int) < 0 from h) (by decide)
  have hexact : Util.Exact (digitText digits) 0 (2 ^ 63 - 1) := by
    rw [Util.exact_iff (by decide) (by decide) (by decide), Util.blank_iff hparts,
      Util.jumps_iff hparts]
    exact ⟨fun h => hinside h.2.2.2, fun h => hinside h.2.2.1⟩
  obtain ⟨answer, hanswer, htells⟩ := hexact
  rw [wholeNumber, if_neg (by omega), hanswer, Option.bind_some]
  by_cases hwhole : Whole digits
  · obtain ⟨herrstr, hvalue⟩ := (htells.success (readDigits 10 digits)).mpr
      ⟨⟨false, digits, hparts, hwhole.1, rfl⟩, by omega, hwhole.2.2⟩
    rw [if_pos herrstr, if_pos hwhole, hvalue]
  · refine (if_neg fun herrstr => hwhole ?_).trans (if_neg hwhole).symm
    obtain ⟨⟨negative, digits', hparts', hne, hvalue⟩, -, hmax⟩ :=
      (htells.success answer.value).mp ⟨herrstr, rfl⟩
    obtain ⟨rfl, rfl, -⟩ := hparts.unique hparts'
    exact ⟨hne, hshort, by rw [← hvalue] at hmax; exact hmax⟩

theorem nanoseconds_eq (len n : Nat) :
    nanoseconds len n = ((n * 1000000000 / 10 ^ len : Nat) : Int) := by
  have hwiden : ∀ k n : Nat, (· * 10)^[k] (n : Int) = ((n * 10 ^ k : Nat) : Int) := by
    intro k
    induction k with
    | zero => intro n; simp
    | succ k ih =>
      intro n
      have hnext : (n : Int) * 10 = ((n * 10 : Nat) : Int) := by omega
      rw [Function.iterate_succ_apply, hnext, ih, Nat.mul_assoc, Nat.pow_succ']
  have hnarrow : ∀ k n : Nat, (Int.tdiv · 10)^[k] (n : Int) = ((n / 10 ^ k : Nat) : Int) := by
    intro k
    induction k with
    | zero => intro n; simp
    | succ k ih =>
      intro n
      have hnext : (n : Int).tdiv 10 = ((n / 10 : Nat) : Int) := rfl
      rw [Function.iterate_succ_apply, hnext, ih, Nat.div_div_eq_div_mul, Nat.pow_succ']
  unfold nanoseconds
  split_ifs with h
  · have hpow : 1000000000 = 10 ^ (9 - len) * 10 ^ len := by
      rw [← Nat.pow_add, Nat.sub_add_cancel (by omega)]
    rw [hwiden, hpow, ← Nat.mul_assoc, Nat.mul_div_cancel _ (by positivity)]
  · have hpow : 10 ^ len = 10 ^ (len - 9) * 1000000000 := by
      have hnine : (1000000000 : Nat) = 10 ^ 9 := by decide
      rw [hnine, ← Nat.pow_add, Nat.sub_add_cancel (by omega)]
    rw [hnarrow, hpow, Nat.mul_div_mul_right _ _ (by decide)]

end

theorem length_printUnsigned {n k : Nat} (hk : 0 < k) (h : n < 10 ^ k) :
    (printUnsigned n).length ≤ k := by
  unfold printUnsigned
  split_ifs
  · exact hk
  · rw [List.length_map]
    exact length_printDigits_le (by decide) h

theorem printPadded_digits {n : Int} (h : 0 ≤ n ∧ n < 1000000000) :
    ∃ digits : List Nat, digits.length = 9 ∧ (∀ d ∈ digits, d < 10) ∧
      (readDigits 10 digits : Int) = n ∧ printPadded n = digitText digits := by
  obtain ⟨digits, -, hdigits, hread, hprint⟩ := printUnsigned_digits n.natAbs
  have hle : digits.length ≤ 9 := by
    have hlength := length_printUnsigned (n := n.natAbs) (k := 9) (by decide) (by omega)
    rwa [hprint, digitText, List.length_map] at hlength
  refine ⟨List.replicate (9 - digits.length) 0 ++ digits, ?_, ?_, ?_, ?_⟩
  · rw [List.length_append, List.length_replicate]
    omega
  · intro d hd
    rcases List.mem_append.mp hd with hd | hd
    · rw [List.eq_of_mem_replicate hd]
      decide
    · exact hdigits d hd
  · rw [readDigits_zeros, hread]
    omega
  · rw [printPadded, if_neg (by omega), hprint, digitText_append, digitText, digitText,
      List.map_replicate, List.length_map]
    rfl

theorem dropWhile_space {s : Bytes} (h : ∀ c cp, s = c :: cp → isspace c = false) :
    s.dropWhile isspace = s := by
  cases s with
  | nil => rfl
  | cons c cp => rw [List.dropWhile_cons_of_neg (by rw [h c cp rfl]; exact Bool.false_ne_true)]

theorem delay_digits {delay : Timespec} (h : delay.Shown) : ∃ secs nsecs : List Nat,
    delay = { sec := readDigits 10 secs, nsec := readDigits 10 nsecs } ∧
    printSigned delay.sec = digitText secs ∧ printPadded delay.nsec = digitText nsecs ∧
    secs ≠ [] ∧ secs.length ≤ 19 ∧ nsecs.length = 9 ∧
    (∀ d ∈ secs, d < 10) ∧ ∀ d ∈ nsecs, d < 10 := by
  obtain ⟨hsec, hnsec⟩ := h
  obtain ⟨secs, hne, hsecs, hread, hprint⟩ := printUnsigned_digits delay.sec.natAbs
  obtain ⟨nsecs, hlength, hnsecs, hnread, hnprint⟩ := printPadded_digits hnsec
  have hle := length_printUnsigned (n := delay.sec.natAbs) (k := 19) (by decide) (by omega)
  rw [hprint, digitText, List.length_map] at hle
  refine ⟨secs, nsecs, ?_, ?_, hnprint, hne, hle, hlength, hsecs, hnsecs⟩
  · have habs : (delay.sec.natAbs : Int) = delay.sec := by omega
    rw [hread, hnread, habs]
  · rw [printSigned, if_neg (by omega), hprint]

section
variable {decimalPoint : UInt8} {str2sig : Bytes → Option Int} {delay : Timespec}
  {fields rest : Bytes}

/-! ## The texts of delays -/

/-- A text, the delay that it says and what is behind it: a whole number, with a fraction of any
precision that is cut off behind nine digits. -/
inductive DelayText (decimalPoint : UInt8) : Bytes → Timespec → Bytes → Prop where
  | whole {secs : List Nat} {tail : Bytes} (hsecs : ∀ d ∈ secs, d < 10) (hwhole : Whole secs)
      (htail : ∀ c cp, tail = c :: cp → isspace c = true ∧ c ≠ decimalPoint) :
      DelayText decimalPoint (digitText secs ++ tail)
        { sec := readDigits 10 secs, nsec := 0 } (tail.dropWhile isspace)
  | fraction {secs frac : List Nat} {point : UInt8} {tail : Bytes} (hsecs : ∀ d ∈ secs, d < 10)
      (hwhole : Whole secs) (hpoint : point = 46 ∨ point = decimalPoint)
      (hnodigit : isdigit point = false) (hfrac : ∀ d ∈ frac, d < 10) (hwhole' : Whole frac)
      (htail : ∀ c cp, tail = c :: cp → isdigit c = false) :
      DelayText decimalPoint (digitText secs ++ point :: (digitText frac ++ tail))
        { sec := readDigits 10 secs
          nsec := (readDigits 10 frac * 1000000000 / 10 ^ frac.length : Nat) }
        (tail.dropWhile isspace)

theorem exists_digits (s : Bytes) : ∃ digits rest, s = digitText digits ++ rest ∧
    (∀ d ∈ digits, d < 10) ∧ ∀ c cp, rest = c :: cp → isdigit c = false := by
  refine ⟨(s.takeWhile isdigit).map fun c => (c - 48).toNat, s.dropWhile isdigit, ?_, ?_, ?_⟩
  · rw [Util.digitText_map, List.takeWhile_append_dropWhile]
  · intro d hd
    obtain ⟨c, hc, rfl⟩ := List.mem_map.mp hd
    exact Util.digit_lt c (List.mem_takeWhile_imp hc)
  · intro c cp h
    have hnot := List.head?_dropWhile_not isdigit s
    rw [h] at hnot
    exact hnot

theorem parseDelay_whole {secs : List Nat} {tail : Bytes} (hsecs : ∀ d ∈ secs, d < 10)
    (htail : ∀ c cp, tail = c :: cp → isdigit c = false)
    (hpoint : ∀ c cp, tail = c :: cp → c ≠ 46 ∧ c ≠ decimalPoint) :
    iologParseDelay decimalPoint (digitText secs ++ tail) =
      if Whole secs ∧ ∀ c ∈ tail.head?, isspace c = true then
        some ({ sec := readDigits 10 secs, nsec := 0 }, tail.dropWhile isspace)
      else none := by
  obtain ⟨htake, hdrop⟩ := span_digits hsecs htail
  rw [iologParseDelay, htake, hdrop, wholeNumber_eq hsecs]
  by_cases hwhole : Whole secs
  swap
  · rw [if_neg hwhole, if_neg (fun h => hwhole h.1)]
    rfl
  rw [if_pos hwhole, Option.bind_eq_bind, Option.bind_some]
  cases tail with
  | nil => exact (if_pos ⟨hwhole, fun _ h => by cases h⟩).symm
  | cons c ep =>
    dsimp only
    rw [if_pos (hpoint c ep rfl)]
    by_cases hblank : isspace c = true
    · rw [if_pos hblank, if_pos ⟨hwhole, fun c' h => by cases h; exact hblank⟩]
    · rw [if_neg hblank, if_neg (fun h => hblank (h.2 c rfl))]

theorem parseDelay_fraction {secs frac : List Nat} {point : UInt8} {tail : Bytes}
    (hsecs : ∀ d ∈ secs, d < 10) (hpoint : point = 46 ∨ point = decimalPoint)
    (hnodigit : isdigit point = false) (hfrac : ∀ d ∈ frac, d < 10)
    (htail : ∀ c cp, tail = c :: cp → isdigit c = false) :
    iologParseDelay decimalPoint (digitText secs ++ point :: (digitText frac ++ tail)) =
      if Whole secs ∧ Whole frac then
        some ({ sec := readDigits 10 secs
                nsec := (readDigits 10 frac * 1000000000 / 10 ^ frac.length : Nat) },
          tail.dropWhile isspace)
      else none := by
  obtain ⟨htake, hdrop⟩ := @span_digits secs (point :: (digitText frac ++ tail)) hsecs
    (by rintro c cp h; cases h; exact hnodigit)
  obtain ⟨htake', hdrop'⟩ := span_digits hfrac htail
  have hlength : (digitText frac).length = frac.length := List.length_map _
  have hradix : ¬ (point ≠ 46 ∧ point ≠ decimalPoint) := by
    rintro ⟨h46, hdecimal⟩
    exact hpoint.elim h46 hdecimal
  rw [iologParseDelay, htake, hdrop, wholeNumber_eq hsecs]
  by_cases hwhole : Whole secs
  swap
  · rw [if_neg hwhole, if_neg (fun h => hwhole h.1)]
    rfl
  rw [if_pos hwhole, Option.bind_eq_bind, Option.bind_some]
  dsimp only
  rw [if_neg hradix, htake', hdrop', wholeNumber_eq hfrac]
  by_cases hwhole' : Whole frac
  · rw [if_pos hwhole', if_pos ⟨hwhole, hwhole'⟩, Option.bind_some, hlength, nanoseconds_eq]
  · rw [if_neg hwhole', if_neg (fun h => hwhole' h.2)]
    rfl

theorem parseDelay_text (hdelay : delay.Shown)
    (hfields : ∀ c cp, fields = c :: cp → isspace c = false) :
    iologParseDelay decimalPoint
      (printSigned delay.sec ++ 46 :: (printPadded delay.nsec ++ 32 :: fields)) =
      some (delay, fields) := by
  obtain ⟨secs, nsecs, heq, hsec, hnsec, hne, hle, hlength, hsecs, hnsecs⟩ := delay_digits hdelay
  have hnnil : nsecs ≠ [] := fun h => by rw [h] at hlength; cases hlength
  have hshown := hdelay
  rw [heq] at hshown
  have hsecmax := hshown.sec.2
  have hnsecmax := hshown.nsec.2
  dsimp only at hsecmax hnsecmax
  rw [hsec, hnsec, parseDelay_fraction hsecs (Or.inl rfl) rfl hnsecs
      (by rintro c cp h; cases h; rfl),
    if_pos ⟨⟨hne, by omega, by omega⟩, hnnil, by omega, by omega⟩, hlength,
    show (10 : Nat) ^ 9 = 1000000000 from rfl, Nat.mul_div_cancel _ (by decide), ← heq,
    List.dropWhile_cons_of_pos rfl, dropWhile_space hfields]

/-- The reader of delays accepts exactly their texts, and finds what they say. -/
theorem iologParseDelay_iff {cp rest : Bytes} :
    iologParseDelay decimalPoint cp = some (delay, rest) ↔
      DelayText decimalPoint cp delay rest := by
  constructor
  · intro h
    obtain ⟨secs, tail, rfl, hsecs, htail⟩ := exists_digits cp
    by_cases hradix : ∀ c cp, tail = c :: cp → c ≠ 46 ∧ c ≠ decimalPoint
    · rw [parseDelay_whole hsecs htail hradix] at h
      split_ifs at h with hwhole
      cases h
      refine .whole hsecs hwhole.1 fun c cp htail => ⟨hwhole.2 c ?_, (hradix c cp htail).2⟩
      rw [htail]
      rfl
    · obtain ⟨point, ep, rfl, hpoint⟩ : ∃ point ep, tail = point :: ep ∧
          (point = 46 ∨ point = decimalPoint) := by
        by_contra hno
        exact hradix fun c cp h =>
          ⟨fun h46 => hno ⟨c, cp, h, Or.inl h46⟩, fun hpoint => hno ⟨c, cp, h, Or.inr hpoint⟩⟩
      obtain ⟨frac, tail, rfl, hfrac, htail'⟩ := exists_digits ep
      have hnodigit := htail point _ rfl
      rw [parseDelay_fraction hsecs hpoint hnodigit hfrac htail'] at h
      split_ifs at h with hwhole
      cases h
      exact .fraction hsecs hwhole.1 hpoint hnodigit hfrac hwhole.2 htail'
  · intro h
    cases h with
    | @whole secs tail hsecs hwhole htail =>
      have hblank : ∀ c ∈ tail.head?, isspace c = true := by
        intro c hc
        obtain ⟨cp, hcp⟩ := List.head?_eq_some_iff.mp hc
        exact (htail c cp hcp).1
      have hnodigit : ∀ c cp, tail = c :: cp → isdigit c = false := by
        intro c cp h
        by_contra hdigit
        have hspace := (isdigit_plain c (by simpa using hdigit)).1
        rw [(htail c cp h).1] at hspace
        cases hspace
      have hradix : ∀ c cp, tail = c :: cp → c ≠ 46 ∧ c ≠ decimalPoint := by
        intro c cp h
        refine ⟨?_, (htail c cp h).2⟩
        rintro rfl
        exact absurd (htail 46 cp h).1 (by decide)
      rw [parseDelay_whole hsecs hnodigit hradix, if_pos ⟨hwhole, hblank⟩]
    | fraction hsecs hwhole hpoint hnodigit hfrac hwhole' htail =>
      rw [parseDelay_fraction hsecs hpoint hnodigit hfrac htail, if_pos ⟨hwhole, hwhole'⟩]

def timingText (event : Nat) (delay : Timespec) (fields : Bytes) : Bytes :=
  printUnsigned event ++ 32 :: (printSigned delay.sec ++ 46 :: (printPadded delay.nsec ++
    32 :: fields))

theorem timingLine_eq (event : Nat) (delay : Timespec) (fields : Bytes) :
    timingLine event delay fields = timingText event delay fields ++ [10] := by
  simp only [timingLine, timingText, List.append_assoc, List.cons_append]

theorem parseTiming_text {event : Nat} (hevent : event < 8) (hne : event ≠ 6)
    (hdelay : delay.Shown) (hfields : ∀ c cp, fields = c :: cp → isspace c = false) :
    iologParseTiming decimalPoint str2sig 0 (timingText event delay fields) =
      (0, (parseData str2sig event fields).map fun data =>
        { event := event, delay := delay, data := data }) := by
  obtain ⟨secs, nsecs, -, hsec, -, hsecne, -, -, hsecs, -⟩ := delay_digits hdelay
  have hdigit : nextField
      (32 :: (printSigned delay.sec ++ 46 :: (printPadded delay.nsec ++ 32 :: fields))) =
        printSigned delay.sec ++ 46 :: (printPadded delay.nsec ++ 32 :: fields) := by
    refine dropWhile_space fun c cp h => ?_
    obtain ⟨c', cp', htext, hc'⟩ := digitText_head hsecne hsecs
    rw [hsec, htext] at h
    cases h
    exact (isdigit_plain c hc').1
  rw [timingText, iologParseTiming, strtoul_print (by omega) (by rintro c cp h; cases h; rfl)]
  dsimp only
  rw [if_neg (by simp [startsBlank, isspace]; omega), if_neg hne, hdigit,
    parseDelay_text hdelay hfields, Option.bind_eq_bind, Option.bind_some, Int.sub_zero]
  cases parseData str2sig event fields <;> rfl

theorem fgets_line {body : Bytes} {n : Nat} (hbody : ∀ c ∈ body, c ≠ 10) (h : body.length < n) :
    fgets n (body ++ 10 :: rest) = (body ++ [10], rest) := by
  induction body generalizing n with
  | nil =>
    cases n with
    | zero => cases h
    | succ n => rfl
  | cons c body ih =>
    cases n with
    | zero => cases h
    | succ n =>
      have htail := ih (fun c hc => hbody c (List.mem_cons_of_mem _ hc)) (Nat.lt_of_succ_lt_succ h)
      rw [List.cons_append, fgets, if_neg (hbody c List.mem_cons_self), htail]
      rfl

theorem readTimings_line {line : Bytes} (hline : ∀ c ∈ line, c ≠ 10 ∧ c ≠ 0)
    (hlength : line.length < 1024) :
    readTimings decimalPoint str2sig 0 (line ++ 10 :: rest) =
      (iologParseTiming decimalPoint str2sig 0 line).2.bind fun r =>
        (readTimings decimalPoint str2sig (iologParseTiming decimalPoint str2sig 0 line).1
          rest).map (r :: ·) := by
  have hget := @fgets_line rest line 2047 (fun c hc => (hline c hc).1) (by omega)
  have htext : (line ++ [10]).takeWhile (fun c => decide (c ≠ 10 ∧ c ≠ 0)) = line := by
    rw [List.takeWhile_append_of_pos (fun c hc => decide_eq_true (hline c hc))]
    exact List.append_nil line
  obtain ⟨c, file, hfile⟩ : ∃ c file, line ++ 10 :: rest = c :: file := by
    cases line with
    | nil => exact ⟨_, _, rfl⟩
    | cons c line => exact ⟨_, _, rfl⟩
  rw [hfile] at hget ⊢
  rw [readTimings, hget, htext]
  cases (iologParseTiming decimalPoint str2sig 0 line).2 <;> rfl

end

/-! ## Fields -/

theorem clean_digitText {digits : List Nat} (h : ∀ d ∈ digits, d < 10) :
    ∀ c ∈ digitText digits, c ≠ 10 ∧ c ≠ 0 := by
  intro c hc
  have hdigit := Util.isdigit_of_mem_digitText h hc
  constructor <;> rintro rfl <;> exact absurd hdigit (by decide)

theorem clean_print (n : Nat) : ∀ c ∈ printUnsigned n, c ≠ 10 ∧ c ≠ 0 := by
  obtain ⟨digits, -, hdigits, -, hprint⟩ := printUnsigned_digits n
  rw [hprint]
  exact clean_digitText hdigits

theorem print_head {n : Nat} {tail : Bytes} : ∀ c cp, printUnsigned n ++ tail = c :: cp →
    isspace c = false := by
  intro c cp h
  obtain ⟨digits, hne, hdigits, -, hprint⟩ := printUnsigned_digits n
  obtain ⟨c', cp', htext, hc'⟩ := digitText_head hne hdigits
  rw [hprint, htext] at h
  cases h
  exact (isdigit_plain c hc').1

/-- The fields behind the delay are short, and hold no byte that ends a line or a string. -/
structure Fields (fields : Bytes) : Prop where
  head : ∀ c cp, fields = c :: cp → isspace c = false
  clean : ∀ c ∈ fields, c ≠ 10 ∧ c ≠ 0
  short : fields.length ≤ 31

theorem Fields.text {fields : Bytes} (h : Fields fields) {event : Nat} (hevent : event < 8)
    {delay : Timespec} (hdelay : delay.Shown) :
    (∀ c ∈ timingText event delay fields, c ≠ 10 ∧ c ≠ 0) ∧
      (timingText event delay fields).length < 1023 := by
  obtain ⟨secs, nsecs, -, hsec, hnsec, -, hle, hlength, hsecs, hnsecs⟩ := delay_digits hdelay
  unfold timingText
  rw [hsec, hnsec]
  constructor
  · simp only [List.forall_mem_append, List.forall_mem_cons]
    exact ⟨clean_print event, by decide, clean_digitText hsecs, by decide, clean_digitText hnsecs,
      by decide, h.clean⟩
  · have hone := length_printUnsigned (n := event) (k := 1) (by decide) (by omega)
    have hshort := h.short
    simp only [List.length_append, List.length_cons, digitText, List.length_map]
    omega

theorem fields_print {n : Nat} (h : n < 2 ^ 32) : Fields (printUnsigned n) := by
  refine ⟨fun c cp hc => @print_head n [] c cp (by rw [List.append_nil, hc]), clean_print n, ?_⟩
  have hle := length_printUnsigned (n := n) (k := 10) (by decide) (by omega)
  omega

theorem fields_winsize {lines cols : Nat} (hlines : lines < 2 ^ 32) (hcols : cols < 2 ^ 32) :
    Fields (printUnsigned lines ++ 32 :: printUnsigned cols) := by
  refine ⟨print_head, ?_, ?_⟩
  · simp only [List.forall_mem_append, List.forall_mem_cons]
    exact ⟨clean_print lines, by decide, clean_print cols⟩
  · have hle := length_printUnsigned (n := lines) (k := 10) (by decide) (by omega)
    have hle' := length_printUnsigned (n := cols) (k := 10) (by decide) (by omega)
    rw [List.length_append, List.length_cons]
    omega

section
variable {str2sig : Bytes → Option Int}

theorem parseData_nbytes {event : Int} (h7 : event ≠ 7) (h5 : event ≠ 5) {n : Nat}
    (hn : n < 2 ^ 32) : parseData str2sig event (printUnsigned n) = some (.nbytes n) := by
  have hread := @strtoul_print [] n (by omega)
    (fun _ _ h => absurd h (List.cons_ne_nil _ _).symm)
  rw [List.append_nil] at hread
  rw [parseData, if_neg h7, if_neg h5, hread]
  rfl

theorem parseData_winsize {lines cols : Nat} (hlines : lines < 2 ^ 32) (hcols : cols < 2 ^ 32) :
    parseData str2sig 5 (printUnsigned lines ++ 32 :: printUnsigned cols) =
      if lines < 2 ^ 31 ∧ cols < 2 ^ 31 then some (.winsize lines cols) else none := by
  have hread := @strtoul_print (32 :: printUnsigned cols) lines (by omega)
    (by rintro c cp h; cases h; rfl)
  have hread' := @strtoul_print [] cols (by omega)
    (fun _ _ h => absurd h (List.cons_ne_nil _ _).symm)
  have hnext : nextField (32 :: printUnsigned cols) = printUnsigned cols ++ [] := by
    rw [List.append_nil]
    exact dropWhile_space (fields_print hcols).head
  rw [parseData, if_neg (by decide), if_pos rfl, hread, Option.bind_eq_bind, Option.bind_some]
  dsimp only
  by_cases hl : lines < 2 ^ 31
  · rw [if_neg (by simp [startsBlank, isspace]; omega), hnext, hread', Option.bind_some]
    dsimp only
    by_cases hc : cols < 2 ^ 31
    · rw [if_neg (by simp; omega), if_pos ⟨hl, hc⟩]
    · rw [if_pos (Or.inr (by omega)), if_neg (fun h => hc h.2)]
  · rw [if_pos (Or.inr (by omega)), if_neg (fun h => hl h.1)]

/-- What a platform promises of the names of its signals. -/
def Names (sig2str : Int → Option Bytes) : Prop :=
  ∀ signo name, sig2str signo = some name →
    name.length < 32 ∧ ∀ c ∈ name, isspace c = false ∧ c ≠ 0

variable {sig2str : Int → Option Bytes}

theorem signame_some {signo : Int} {name : Bytes} (h : signame sig2str signo = some name) :
    sig2str signo = some name := by
  unfold signame at h
  split_ifs at h
  exact h

theorem Names.fields (h : Names sig2str) {signo : Int} {name : Bytes}
    (hname : sig2str signo = some name) : Fields name := by
  obtain ⟨hshort, hall⟩ := h signo name hname
  refine ⟨?_, fun c hc => ⟨?_, (hall c hc).2⟩, by omega⟩
  · rintro c cp rfl
    exact (hall c List.mem_cons_self).1
  · rintro rfl
    exact absurd (hall 10 hc).1 (by decide)

/-- An event leaves a line that is read as its entry if it is readable, or nothing at all. -/
theorem record_cases (hnames : Names sig2str) {last now : Timespec} {e : IoEvent} (he : e.Typed)
    (hdelay : (timespecsub now last).Shown) :
    (e.entry sig2str = none ∧ record sig2str last now e = (last, []) ∧
      e.Readable sig2str str2sig) ∨
    ∃ (event : Nat) (data : TimingData) (fields : Bytes),
      e.entry sig2str = some ((event : Int), data) ∧ event < 8 ∧ event ≠ 6 ∧ Fields fields ∧
      record sig2str last now e = (now, timingLine event (timespecsub now last) fields) ∧
      (parseData str2sig event fields = some data ↔ e.Readable sig2str str2sig) := by
  have hwritten : ∀ {event : Nat} {fields : Bytes}, event < 8 → Fields fields →
      written (timingLine event (timespecsub now last) fields) =
        timingLine event (timespecsub now last) fields := by
    intro event fields hevent hfields
    obtain ⟨-, hlength⟩ := hfields.text hevent hdelay
    rw [written, if_neg (by rw [timingLine_eq, List.length_append]; simp; omega)]
  cases e with
  | log stream len =>
    have hstream : stream.event < 5 := by cases stream <;> decide
    have hfields := fields_print he
    refine Or.inr ⟨stream.event, .nbytes len, _, rfl, by omega, by omega, hfields, ?_, ?_⟩
    · rw [record, hwritten (by omega) hfields]
    · exact iff_of_true (parseData_nbytes (by omega) (by omega) he) trivial
  | winsize lines cols =>
    have hfields := fields_winsize he.1 he.2
    refine Or.inr ⟨5, .winsize lines cols, _, rfl, by decide, by decide, hfields, ?_, ?_⟩
    · rw [record, hwritten (by decide) hfields]
    · show parseData str2sig 5 _ = _ ↔ _
      rw [parseData_winsize he.1 he.2, IoEvent.Readable]
      split_ifs with h
      · exact iff_of_true rfl h
      · exact iff_of_false (fun hno => by cases hno) h
  | suspend signo =>
    cases hname : signame sig2str signo with
    | none =>
      refine Or.inl ⟨by rw [IoEvent.entry, hname]; rfl, by rw [record, hname], ?_⟩
      intro name h
      rw [hname] at h
      cases h
    | some name =>
      have hfields := hnames.fields (signame_some hname)
      refine Or.inr ⟨7, .signo signo, name, by rw [IoEvent.entry, hname]; rfl, by decide,
        by decide, hfields, ?_, ?_⟩
      · rw [record, hname]
        dsimp only
        rw [hwritten (by decide) hfields]
      · rw [parseData, if_pos (by decide), IoEvent.Readable, Option.map_eq_some_iff]
        constructor
        · rintro ⟨signo', hsigno, heq⟩ name' hname'
          cases heq
          rw [hname] at hname'
          cases hname'
          exact hsigno
        · exact fun h => ⟨signo, h name hname, rfl⟩

theorem Ordered.earlier {last now : Timespec} {session : List (Timespec × IoEvent)}
    (hle : last.ns ≤ now.ns) (h : Ordered now session) : Ordered last session := by
  cases session with
  | nil => trivial
  | cons p session => exact ⟨h.1, Int.le_trans hle h.2.1, h.2.2⟩

/-- Playing the timing file of a session comes to every event at its time, with its own data,
exactly if no window is too large to be read and every signal is found by its name. -/
theorem timingFile_plays_iff {decimalPoint : UInt8} (hnames : Names sig2str) {start : Timespec}
    {session : List (Timespec × IoEvent)} (hstart : start.Shown) (hordered : Ordered start session)
    (htyped : ∀ p ∈ session, p.2.Typed) :
    (∃ records, readTimings decimalPoint str2sig 0 (timingFile sig2str start session) =
        some records ∧ played start.ns records = happened sig2str session) ↔
      ∀ p ∈ session, p.2.Readable sig2str str2sig := by
  induction session generalizing start with
  | nil =>
    refine iff_of_true ⟨[], ?_, rfl⟩ fun p hp => absurd hp List.not_mem_nil
    rw [timingFile, readTimings]
  | cons p session ih =>
    obtain ⟨now, e⟩ := p
    obtain ⟨hnow, hle, hrest⟩ := hordered
    have htail : ∀ p ∈ session, p.2.Typed := fun p hp => htyped p (List.mem_cons_of_mem _ hp)
    have hdelay := timespecsub_shown hnow hstart hle
    rw [List.forall_mem_cons]
    have he := htyped (now, e) List.mem_cons_self
    rcases @record_cases str2sig sig2str hnames start now e he hdelay with
      ⟨hentry, hrecord, hreadable⟩ |
      ⟨event, data, fields, hentry, hevent, hne, hfields, hrecord, hparse⟩
    · have hsame : happened sig2str ((now, e) :: session) = happened sig2str session := by
        rw [happened, List.filterMap_cons_none (by rw [hentry]; rfl), happened]
      rw [timingFile, hrecord, hsame]
      dsimp only
      rw [List.nil_append, ih hstart (hrest.earlier hle) htail]
      exact ⟨fun h => ⟨hreadable, h⟩, fun h => h.2⟩
    · have hns : start.ns + (timespecsub now start).ns = now.ns := by
        rw [timespecsub_ns]
        omega
      have hhappened : happened sig2str ((now, e) :: session) =
          (now.ns, (event : Int), data) :: happened sig2str session := by
        rw [happened, List.filterMap_cons_some (b := (now.ns, (event : Int), data))
          (by rw [hentry]; rfl), happened]
      obtain ⟨hclean, hlength⟩ := hfields.text hevent hdelay
      rw [timingFile, hrecord, hhappened]
      dsimp only
      rw [timingLine_eq, List.append_assoc]
      rw [List.singleton_append, readTimings_line hclean (by omega),
        parseTiming_text hevent hne hdelay hfields.head]
      dsimp only
      rw [← hparse, ← ih hnow hrest htail]
      cases parseData str2sig event fields with
      | none => exact iff_of_false (fun ⟨_, hread, _⟩ => by cases hread) (fun h => by cases h.1)
      | some data' =>
        constructor
        · rintro ⟨records, hread, hplayed⟩
          obtain ⟨records', hread', rfl⟩ := Option.map_eq_some_iff.mp hread
          rw [played, hns] at hplayed
          obtain ⟨hhead, hrest⟩ := List.cons.inj hplayed
          cases hhead
          exact ⟨rfl, records', hread', hrest⟩
        · rintro ⟨hdata, records, hread, hplayed⟩
          cases hdata
          refine ⟨_ :: records, Option.map_eq_some_iff.mpr ⟨records, hread, rfl⟩, ?_⟩
          rw [played, hns, hplayed]

end

theorem timingFile_plays_tstp :
    ∃ records, readTimings 46 (fun name => if name = ascii "TSTP" then some 20 else none) 0
        (timingFile (fun signo => if signo = 20 then some (ascii "TSTP") else none)
          ⟨5, 900000000⟩ [(⟨6, 150000000⟩, .log .ttyout 10), (⟨7, 1⟩, .winsize 24 80),
            (⟨7, 1⟩, .suspend 20)]) = some records ∧
      played 5900000000 records =
        happened (fun signo => if signo = 20 then some (ascii "TSTP") else none)
          [(⟨6, 150000000⟩, .log .ttyout 10), (⟨7, 1⟩, .winsize 24 80), (⟨7, 1⟩, .suspend 20)] := by
  refine Iff.mpr (@timingFile_plays_iff _ _ 46 ?_ ⟨5, 900000000⟩ _ ⟨by decide, by decide⟩
    ⟨⟨by decide, by decide⟩, by decide, ⟨by decide, by decide⟩, by decide,
      ⟨by decide, by decide⟩, by decide, trivial⟩ ?_) ?_
  · intro signo name h
    dsimp only at h
    split_ifs at h
    cases h
    decide +kernel
  · simp [IoEvent.Typed]
  · simp [IoEvent.Readable, signame]

end NextBSD.Iolog.Timing
