import NextBSD.Util.Strtonum

/-!
# iolog_nextid.c: the sequence file

Any number of processes ask for session ids.  Each call opens the file, waits for its lock, reads,
overwrites the start of the file in place, and gives the lock up when it closes the file.
-/

namespace NextBSD.Iolog.NextId

open Digits

/-- `SESSID_MAX`, which is 36 to the sixth power. -/
def SESSID_MAX : Nat := 2176782336

/-- `iolog_set_maxseq`; `iolog_get_maxseq` returns what it has stored. -/
def iologSetMaxseq (newval : Nat) : Nat := if SESSID_MAX < newval then SESSID_MAX else newval

def b36char (d : Nat) : UInt8 := if d < 10 then UInt8.ofNat (48 + d) else UInt8.ofNat (55 + d)

/-- The value that `strtoul` gives a character in base 36. -/
def digit36 (c : UInt8) : Option Nat :=
  if 48 ≤ c ∧ c ≤ 57 then some (c.toNat - 48)
  else if 65 ≤ c ∧ c ≤ 90 then some (c.toNat - 55)
  else if 97 ≤ c ∧ c ≤ 122 then some (c.toNat - 87)
  else none

/-- `strtoul` with base 36 and a long of 64 bits: the number, and what is behind it unless there
is no number. -/
def strtoul (str : Bytes) : Nat × Option Bytes :=
  let (negative, cp) := Util.skipSign (str.dropWhile isspace)
  let digits := (cp.takeWhile fun c => (digit36 c).isSome).filterMap digit36
  if digits = [] then (0, none)
  else
    let n := readDigits 36 digits
    let n := if 2 ^ 64 ≤ n then 2 ^ 64 - 1 else if negative then (2 ^ 64 - n) % 2 ^ 64 else n
    (n, some (cp.dropWhile fun c => (digit36 c).isSome))

def fill : Nat → Nat → List Nat → List Nat
  | 0, _, buf => buf
  | i + 1, id, buf => fill i (id / 36) (id % 36 :: buf)

def sessidOf (id : Nat) : Bytes := (fill 6 id []).map b36char

/-- The number that is read from the file; 0 is what a bad sequence number becomes. -/
def readSeq (maxseq : Nat) (seq : Bytes) : Nat :=
  -- one byte of the buffer is left for the terminator
  let buf := seq.take 31
  if buf = [] then 0
  else
    let buf := if buf.getLast? = some 10 then buf.dropLast else buf
    let (id, ep) := strtoul (buf.takeWhile (· ≠ 0))
    if ep ≠ some [] ∨ maxseq ≤ id then 0 else id

def nextSessid (maxseq : Nat) (seq : Bytes) : Bytes := sessidOf (readSeq maxseq seq + 1)

def pwriteStart (seq data : Bytes) : Bytes := data ++ seq.drop data.length

def afterWrite (seq sessid : Bytes) : Bytes := pwriteStart seq (sessid ++ [10])

/-- Where a process is in `iolog_nextid`. -/
inductive Phase where
  | outside
  | opened
  | locked
  | haveRead (sessid : Bytes)
  | written (sessid : Bytes)
  deriving DecidableEq, Repr

/-- The file, who holds its lock, the processes, and what the calls have returned so far. -/
structure World where
  seq : Option Bytes
  holder : Option Nat
  phase : Nat → Phase
  returned : List Bytes

inductive Action where
  | openSeq | lock | read | write | close
  deriving DecidableEq, Repr

def World.setPhase (w : World) (pid : Nat) (phase : Phase) : Nat → Phase :=
  Function.update w.phase pid phase

/-- `none` where the process cannot make the step: a lock that is held is waited for. -/
def World.step (maxseq : Nat) (w : World) (pid : Nat) (a : Action) : Option World :=
  match a, w.phase pid with
  | .openSeq, .outside =>
    some { w with seq := some (w.seq.getD []), phase := w.setPhase pid .opened }
  | .lock, .opened =>
    if w.holder = none then some { w with holder := some pid, phase := w.setPhase pid .locked }
    else none
  | .read, .locked =>
    some { w with phase := w.setPhase pid (.haveRead (nextSessid maxseq (w.seq.getD []))) }
  | .write, .haveRead sessid =>
    some { w with
      seq := some (afterWrite (w.seq.getD []) sessid)
      phase := w.setPhase pid (.written sessid) }
  | .close, .written sessid =>
    some { w with
      holder := none
      phase := w.setPhase pid .outside
      returned := w.returned ++ [sessid] }
  | _, _ => none

def World.initial (seq : Option Bytes) : World where
  seq := seq
  holder := none
  phase := fun _ => .outside
  returned := []

inductive Reached (maxseq : Nat) (seq : Option Bytes) : World → Prop
  | initial : Reached maxseq seq (World.initial seq)
  | step {w w' : World} {pid : Nat} {a : Action} (h : Reached maxseq seq w)
      (hstep : w.step maxseq pid a = some w') : Reached maxseq seq w'

def isId (sessid : Bytes) : Prop := sessid.length = 6 ∧ ∀ c ∈ sessid, ∃ d < 36, c = b36char d

def number (sessid : Bytes) : Nat := readDigits 36 (sessid.filterMap digit36)

def successor (maxseq n : Nat) : Nat := if maxseq ≤ n then 1 else (n + 1) % SESSID_MAX

/-- Every id is the successor of the one before, and none is repeated within `maxseq` calls. -/
structure Unrepeated (maxseq : Nat) (ids : List Bytes) : Prop where
  digits : ∀ sessid ∈ ids, isId sessid
  follows : ∀ i sessid next, ids[i]? = some sessid → ids[i + 1]? = some next →
    number next = successor maxseq (number sessid)
  distinct : ∀ i j sessid, i < j → j < i + maxseq → ids[i]? = some sessid → ids[j]? ≠ some sessid

/-! ## The lock puts the calls in an order -/

/-- What so many calls return that follow one another, and the file they leave. -/
def calls (maxseq : Nat) (seq : Bytes) : Nat → List Bytes × Bytes
  | 0 => ([], seq)
  | n + 1 =>
    let (ids, seq) := calls maxseq seq n
    let sessid := nextSessid maxseq seq
    (ids ++ [sessid], afterWrite seq sessid)

def Phase.critical : Phase → Prop
  | .outside | .opened => False
  | _ => True

/-- How far the process that holds the lock has got, when `n` calls are over. -/
def Underway (maxseq : Nat) (seq : Bytes) (n : Nat) (w : World) : Phase → Prop
  | .locked => w.seq.getD [] = (calls maxseq seq n).2
  | .haveRead sessid =>
    w.seq.getD [] = (calls maxseq seq n).2 ∧ sessid = nextSessid maxseq (w.seq.getD [])
  | .written sessid =>
    w.seq.getD [] = (calls maxseq seq (n + 1)).2 ∧
      sessid = nextSessid maxseq (calls maxseq seq n).2
  | _ => False

structure Serial (maxseq : Nat) (seq : Bytes) (w : World) : Prop where
  returned : w.returned = (calls maxseq seq w.returned.length).1
  exclusive : ∀ pid, (w.phase pid).critical → w.holder = some pid
  free : w.holder = none → w.seq.getD [] = (calls maxseq seq w.returned.length).2
  held : ∀ pid, w.holder = some pid → Underway maxseq seq w.returned.length w (w.phase pid)

theorem Serial.initial (maxseq : Nat) (seq : Option Bytes) :
    Serial maxseq (seq.getD []) (World.initial seq) where
  returned := rfl
  exclusive := fun _ h => h.elim
  free := fun _ => rfl
  held := fun _ h => by cases h

theorem length_calls (maxseq : Nat) (seq : Bytes) (n : Nat) :
    (calls maxseq seq n).1.length = n := by
  induction n with
  | zero => rfl
  | succ n ih =>
    unfold calls
    rw [List.length_append, ih]
    rfl

theorem World.step_cases {maxseq : Nat} {w w' : World} {pid : Nat} {a : Action}
    (h : w.step maxseq pid a = some w') :
    (w.phase pid = .outside ∧
      w' = { w with seq := some (w.seq.getD []), phase := w.setPhase pid .opened }) ∨
    (w.phase pid = .opened ∧ w.holder = none ∧
      w' = { w with holder := some pid, phase := w.setPhase pid .locked }) ∨
    (w.phase pid = .locked ∧
      w' = { w with phase := w.setPhase pid (.haveRead (nextSessid maxseq (w.seq.getD []))) }) ∨
    (∃ sessid, w.phase pid = .haveRead sessid ∧
      w' = { w with
        seq := some (afterWrite (w.seq.getD []) sessid)
        phase := w.setPhase pid (.written sessid) }) ∨
    ∃ sessid, w.phase pid = .written sessid ∧
      w' = { w with
        holder := none
        phase := w.setPhase pid .outside
        returned := w.returned ++ [sessid] } := by
  unfold World.step at h
  split at h
  · next hphase => exact .inl ⟨hphase, (Option.some.inj h).symm⟩
  · next hphase =>
    split at h
    · next hfree => exact .inr (.inl ⟨hphase, hfree, (Option.some.inj h).symm⟩)
    · cases h
  · next hphase => exact .inr (.inr (.inl ⟨hphase, (Option.some.inj h).symm⟩))
  · next sessid hphase =>
    exact .inr (.inr (.inr (.inl ⟨sessid, hphase, (Option.some.inj h).symm⟩)))
  · next sessid hphase =>
    exact .inr (.inr (.inr (.inr ⟨sessid, hphase, (Option.some.inj h).symm⟩)))
  · cases h

theorem setPhase_self (w : World) (pid : Nat) (phase : Phase) : w.setPhase pid phase pid = phase := by
  unfold World.setPhase
  exact Function.update_self pid phase w.phase

theorem setPhase_other {w : World} {pid other : Nat} (phase : Phase) (h : other ≠ pid) :
    w.setPhase pid phase other = w.phase other := by
  unfold World.setPhase
  exact Function.update_of_ne h phase w.phase

theorem Serial.exclusive_setPhase {maxseq : Nat} {seq : Bytes} {w : World}
    (h : Serial maxseq seq w) {pid : Nat} {phase : Phase} {holder : Option Nat}
    (hpid : phase.critical → holder = some pid)
    (hother : ∀ other, other ≠ pid → w.holder = some other → holder = some other) (other : Nat)
    (hcritical : (w.setPhase pid phase other).critical) : holder = some other := by
  by_cases hother' : other = pid
  · subst hother'
    rw [setPhase_self] at hcritical
    exact hpid hcritical
  · rw [setPhase_other phase hother'] at hcritical
    exact hother other hother' (h.exclusive other hcritical)

theorem Serial.not_holder {maxseq : Nat} {seq : Bytes} {w : World} (h : Serial maxseq seq w)
    {pid : Nat} (hphase : ¬(w.phase pid).critical) : w.holder ≠ some pid := by
  intro hholder
  have hunderway := h.held pid hholder
  cases hphase' : w.phase pid with
  | outside =>
    rw [hphase'] at hunderway
    exact hunderway
  | opened =>
    rw [hphase'] at hunderway
    exact hunderway
  | _ =>
    rw [hphase'] at hphase
    exact hphase trivial

theorem Serial.step {maxseq : Nat} {seq : Bytes} {w w' : World} {pid : Nat} {a : Action}
    (h : Serial maxseq seq w) (hstep : w.step maxseq pid a = some w') : Serial maxseq seq w' := by
  obtain ⟨hphase, rfl⟩ | ⟨hphase, hfree, rfl⟩ | ⟨hphase, rfl⟩ | ⟨sessid, hphase, rfl⟩ |
    ⟨sessid, hphase, rfl⟩ := World.step_cases hstep
  · have hnot : w.holder ≠ some pid := h.not_holder (by rw [hphase]; exact id)
    refine ⟨h.returned, h.exclusive_setPhase (fun hc => hc.elim) fun _ _ ho => ho, h.free, ?_⟩
    intro other hother
    have hne : other ≠ pid := fun heq => hnot (heq ▸ hother)
    show Underway maxseq seq _ _ (w.setPhase pid .opened other)
    rw [setPhase_other _ hne]
    exact h.held other hother
  · refine ⟨h.returned, h.exclusive_setPhase (fun _ => rfl) ?_, fun hnone => (by cases hnone), ?_⟩
    · intro other _ ho
      rw [hfree] at ho
      cases ho
    · intro other hother
      cases hother
      show Underway maxseq seq _ _ (w.setPhase pid .locked pid)
      rw [setPhase_self]
      exact h.free hfree
  · have hholder : w.holder = some pid := h.exclusive pid (by rw [hphase]; exact trivial)
    have hunderway := h.held pid hholder
    rw [hphase] at hunderway
    refine ⟨h.returned, h.exclusive_setPhase (fun _ => hholder) fun _ _ ho => ho, h.free, ?_⟩
    intro other hother
    cases hholder.symm.trans hother
    show Underway maxseq seq _ _ (w.setPhase pid _ pid)
    rw [setPhase_self]
    exact ⟨hunderway, rfl⟩
  · have hholder : w.holder = some pid := h.exclusive pid (by rw [hphase]; exact trivial)
    have hunderway := h.held pid hholder
    rw [hphase] at hunderway
    refine ⟨h.returned, h.exclusive_setPhase (fun _ => hholder) fun _ _ ho => ho, ?_, ?_⟩
    · intro hnone
      cases hholder.symm.trans hnone
    · intro other hother
      cases hholder.symm.trans hother
      show Underway maxseq seq _ _ (w.setPhase pid _ pid)
      rw [setPhase_self]
      obtain ⟨hseq, hsessid⟩ := hunderway
      rw [hseq] at hsessid
      refine ⟨?_, hsessid⟩
      show afterWrite (w.seq.getD []) sessid = _
      rw [hseq, hsessid]
      rfl
  · have hholder : w.holder = some pid := h.exclusive pid (by rw [hphase]; exact trivial)
    have hunderway := h.held pid hholder
    rw [hphase] at hunderway
    obtain ⟨hseq, hsessid⟩ := hunderway
    have hlength : (w.returned ++ [sessid]).length = w.returned.length + 1 := List.length_append
    refine ⟨?_, h.exclusive_setPhase (fun hc => hc.elim) ?_, ?_, fun _ hnone => (by cases hnone)⟩
    · show w.returned ++ [sessid] = _
      rw [hlength, h.returned, length_calls, hsessid]
      rfl
    · intro other hne ho
      exact absurd (Option.some.inj (hholder.symm.trans ho)).symm hne
    · intro _
      show w.seq.getD [] = _
      rw [hlength]
      exact hseq

theorem Reached.serial {maxseq : Nat} {seq : Option Bytes} {w : World}
    (h : Reached maxseq seq w) : Serial maxseq (seq.getD []) w := by
  induction h with
  | initial => exact Serial.initial maxseq seq
  | step _ hstep ih => exact ih.step hstep

theorem step_openSeq {w : World} {pid : Nat} (maxseq : Nat) (h : w.phase pid = .outside) :
    w.step maxseq pid .openSeq =
      some { w with seq := some (w.seq.getD []), phase := w.setPhase pid .opened } := by
  unfold World.step
  rw [h]

theorem step_lock {w : World} {pid : Nat} (maxseq : Nat) (h : w.phase pid = .opened)
    (hfree : w.holder = none) :
    w.step maxseq pid .lock =
      some { w with holder := some pid, phase := w.setPhase pid .locked } := by
  unfold World.step
  rw [h]
  exact if_pos hfree

theorem step_read {w : World} {pid : Nat} (maxseq : Nat) (h : w.phase pid = .locked) :
    w.step maxseq pid .read =
      some { w with
        phase := w.setPhase pid (.haveRead (nextSessid maxseq (w.seq.getD []))) } := by
  unfold World.step
  rw [h]

theorem step_write {w : World} {pid : Nat} {sessid : Bytes} (maxseq : Nat)
    (h : w.phase pid = .haveRead sessid) :
    w.step maxseq pid .write =
      some { w with
        seq := some (afterWrite (w.seq.getD []) sessid)
        phase := w.setPhase pid (.written sessid) } := by
  unfold World.step
  rw [h]

theorem step_close {w : World} {pid : Nat} {sessid : Bytes} (maxseq : Nat)
    (h : w.phase pid = .written sessid) :
    w.step maxseq pid .close =
      some { w with
        holder := none
        phase := w.setPhase pid .outside
        returned := w.returned ++ [sessid] } := by
  unfold World.step
  rw [h]

theorem Reached.call {maxseq : Nat} {seq : Option Bytes} {w : World} (h : Reached maxseq seq w)
    (hfree : w.holder = none) {pid : Nat} (hphase : w.phase pid = .outside) :
    ∃ w', Reached maxseq seq w' ∧ w'.holder = none ∧ w'.phase pid = .outside ∧
      w'.returned = w.returned ++ [nextSessid maxseq (w.seq.getD [])] := by
  have hopened := h.step (step_openSeq maxseq hphase)
  have hlocked := hopened.step (step_lock maxseq (setPhase_self _ pid .opened) hfree)
  have hread := hlocked.step (step_read maxseq (setPhase_self _ pid .locked))
  have hwritten := hread.step (step_write maxseq (setPhase_self _ pid _))
  have hclosed := hwritten.step (step_close maxseq (setPhase_self _ pid _))
  exact ⟨_, hclosed, rfl, setPhase_self _ pid .outside, rfl⟩

theorem exists_reached (maxseq : Nat) (seq : Option Bytes) (n : Nat) :
    ∃ w, Reached maxseq seq w ∧ w.returned = (calls maxseq (seq.getD []) n).1 := by
  suffices hfree : ∃ w, Reached maxseq seq w ∧ w.holder = none ∧ w.phase 0 = .outside ∧
      w.returned = (calls maxseq (seq.getD []) n).1 by
    obtain ⟨w, hw, -, -, hreturned⟩ := hfree
    exact ⟨w, hw, hreturned⟩
  induction n with
  | zero => exact ⟨World.initial seq, .initial, rfl, rfl, rfl⟩
  | succ n ih =>
    obtain ⟨w, hw, hfree, hphase, hreturned⟩ := ih
    obtain ⟨w', hw', hfree', hphase', hreturned'⟩ := hw.call hfree hphase
    refine ⟨w', hw', hfree', hphase', ?_⟩
    rw [hreturned', hw.serial.free hfree, hreturned, length_calls]
    rfl

/-! ## What is read back -/

theorem digit36_b36char {d : Nat} (hd : d < 36) : digit36 (b36char d) = some d := by
  revert d
  decide

theorem fill_lt (i id : Nat) {buf : List Nat} (hbuf : ∀ d ∈ buf, d < 36) :
    ∀ d ∈ fill i id buf, d < 36 := by
  induction i generalizing id buf with
  | zero => exact hbuf
  | succ i ih =>
    refine ih (id / 36) fun d hd => ?_
    obtain rfl | hd := List.mem_cons.mp hd
    · exact Nat.mod_lt _ (by omega)
    · exact hbuf d hd

theorem length_fill (i id : Nat) (buf : List Nat) : (fill i id buf).length = i + buf.length := by
  induction i generalizing id buf with
  | zero => exact (Nat.zero_add _).symm
  | succ i ih =>
    unfold fill
    rw [ih, List.length_cons]
    omega

theorem readFrom_fill (i id : Nat) (buf : List Nat) :
    readFrom 36 0 (fill i id buf) = readFrom 36 (id % 36 ^ i) buf := by
  induction i generalizing id buf with
  | zero =>
    rw [Nat.pow_zero, Nat.mod_one]
    rfl
  | succ i ih =>
    have hmod : id / 36 % 36 ^ i * 36 + id % 36 = id % 36 ^ (i + 1) := by
      rw [Nat.pow_succ, Nat.mul_comm (36 ^ i) 36, Nat.mod_mul]
      omega
    unfold fill
    rw [ih, readFrom_cons, hmod]

theorem isId_sessidOf (id : Nat) : isId (sessidOf id) := by
  constructor
  · unfold sessidOf
    rw [List.length_map, length_fill]
    rfl
  · intro c hc
    obtain ⟨d, hd, rfl⟩ := List.mem_map.mp hc
    exact ⟨d, fill_lt 6 id (fun _ h => by cases h) d hd, rfl⟩

theorem filterMap_digit36 {digits : List Nat} (h : ∀ d ∈ digits, d < 36) :
    (digits.map b36char).filterMap digit36 = digits := by
  rw [List.filterMap_map]
  refine (List.filterMap_congr fun d hd => digit36_b36char (h d hd)).trans ?_
  exact List.filterMap_some

theorem isId_nextSessid (maxseq : Nat) (seq : Bytes) : isId (nextSessid maxseq seq) :=
  isId_sessidOf _

theorem number_sessidOf (id : Nat) : number (sessidOf id) = id % SESSID_MAX := by
  unfold number sessidOf
  rw [filterMap_digit36 (fill_lt 6 id fun _ h => by cases h)]
  exact readFrom_fill 6 id []

theorem number_nextSessid (maxseq : Nat) (seq : Bytes) :
    number (nextSessid maxseq seq) = (readSeq maxseq seq + 1) % SESSID_MAX := number_sessidOf _

theorem isId.exists_digits {sessid : Bytes} (h : isId sessid) :
    ∃ digits : List Nat, digits.length = 6 ∧ (∀ d ∈ digits, d < 36) ∧
      sessid = digits.map b36char := by
  obtain ⟨hlength, hdigits⟩ := h
  rw [← hlength]
  clear hlength
  induction sessid with
  | nil => exact ⟨[], rfl, fun _ h => (by cases h), rfl⟩
  | cons c sessid ih =>
    obtain ⟨d, hd, rfl⟩ := hdigits c List.mem_cons_self
    obtain ⟨digits, hlength, hlt, rfl⟩ := ih fun c hc => hdigits c (List.mem_cons_of_mem _ hc)
    refine ⟨d :: digits, congrArg (· + 1) hlength, fun e he => ?_, rfl⟩
    obtain rfl | he := List.mem_cons.mp he
    · exact hd
    · exact hlt e he

theorem b36char_class {d : Nat} (hd : d < 36) :
    isspace (b36char d) = false ∧ b36char d ≠ 43 ∧ b36char d ≠ 45 ∧ b36char d ≠ 0 ∧
      b36char d ≠ 10 := by
  revert d
  decide

theorem strtoul_append {sessid rest : Bytes} (h : isId sessid)
    (hrest : ∀ c ∈ rest.head?, digit36 c = none) :
    strtoul (sessid ++ rest) = (number sessid, some rest) := by
  have hdigit : ∀ c ∈ sessid, (digit36 c).isSome = true := by
    intro c hc
    obtain ⟨d, hd, rfl⟩ := h.2 c hc
    rw [digit36_b36char hd]
    rfl
  have hstop : rest.takeWhile (fun c => (digit36 c).isSome) = [] ∧
      rest.dropWhile (fun c => (digit36 c).isSome) = rest := by
    cases rest with
    | nil => exact ⟨rfl, rfl⟩
    | cons c rest =>
      have hc : ¬(digit36 c).isSome = true := by
        rw [hrest c rfl]
        exact Bool.false_ne_true
      exact ⟨List.takeWhile_cons_of_neg hc, List.dropWhile_cons_of_neg hc⟩
  have hskip : Util.skipSign ((sessid ++ rest).dropWhile isspace) = (false, sessid ++ rest) := by
    obtain ⟨hlength, hids⟩ := h
    cases sessid with
    | nil => cases hlength
    | cons c sessid =>
      obtain ⟨d, hd, rfl⟩ := hids c List.mem_cons_self
      obtain ⟨hspace, hplus, hminus, -, -⟩ := b36char_class hd
      rw [List.cons_append, List.dropWhile_cons_of_neg (by rw [hspace]; exact Bool.false_ne_true)]
      unfold Util.skipSign
      split
      · next heq => exact absurd (List.cons.inj heq).1 hminus
      · next heq => exact absurd (List.cons.inj heq).1 hplus
      · rfl
  obtain ⟨digits, hlength, hlt, rfl⟩ := h.exists_digits
  have hread : number (digits.map b36char) = readDigits 36 digits := by
    unfold number
    rw [filterMap_digit36 hlt]
  have hbound : readDigits 36 digits < 2 ^ 64 := by
    have hsix := readFrom_lt 0 hlt
    rw [hlength] at hsix
    exact Nat.lt_trans hsix (by norm_num)
  unfold strtoul
  rw [hskip]
  dsimp only
  rw [List.takeWhile_append_of_pos hdigit, List.dropWhile_append_of_pos hdigit, hstop.1,
    hstop.2, List.append_nil, filterMap_digit36 hlt, hread]
  have hne : digits ≠ [] := by
    rintro rfl
    cases hlength
  rw [if_neg hne, if_neg (by omega), if_neg Bool.false_ne_true]

theorem readSeq_lt {maxseq : Nat} (hmax : 0 < maxseq) (seq : Bytes) :
    readSeq maxseq seq < maxseq := by
  unfold readSeq
  dsimp only
  split
  · exact hmax
  · generalize strtoul _ = read
    split
    · exact hmax
    · next hread => exact Nat.lt_of_not_le fun hle => hread (.inr hle)

theorem readSeq_short {maxseq : Nat} {seq sessid : Bytes} (h : isId sessid)
    (hshort : seq.length ≤ 7) :
    readSeq maxseq (afterWrite seq sessid) =
      if maxseq ≤ number sessid then 0 else number sessid := by
  have hafter : afterWrite seq sessid = sessid ++ [10] := by
    unfold afterWrite pwriteStart
    rw [List.drop_eq_nil_of_le, List.append_nil]
    rw [List.length_append, h.1]
    exact hshort
  have htake : (sessid ++ [10]).take 31 = sessid ++ [10] := by
    refine List.take_of_length_le ?_
    rw [List.length_append, h.1]
    decide
  have hcstring : sessid.takeWhile (· ≠ 0) = sessid := by
    refine List.takeWhile_eq_self_iff.mpr fun c hc => ?_
    obtain ⟨d, hd, rfl⟩ := h.2 c hc
    exact decide_eq_true (b36char_class hd).2.2.2.1
  have hread : strtoul (sessid ++ []) = (number sessid, some []) :=
    strtoul_append h fun c hc => by cases hc
  rw [List.append_nil] at hread
  unfold readSeq
  rw [hafter, htake]
  dsimp only
  rw [if_neg (by simp), if_pos List.getLast?_concat, List.dropLast_concat, hcstring, hread]
  dsimp only
  by_cases hmax : maxseq ≤ number sessid
  · rw [if_pos (.inr hmax), if_pos hmax]
  · rw [if_neg (by simpa using hmax), if_neg hmax]

theorem readSeq_long {maxseq : Nat} {seq sessid : Bytes} (h : isId sessid)
    (hlong : 7 < seq.length) : readSeq maxseq (afterWrite seq sessid) = 0 := by
  have htail : seq.drop 7 ≠ [] := by
    intro hnil
    have hle := List.drop_eq_nil_iff.mp hnil
    omega
  have hafter : afterWrite seq sessid = sessid ++ 10 :: seq.drop 7 := by
    have hlength : (sessid ++ [10]).length = 7 := by
      rw [List.length_append, h.1]
      rfl
    unfold afterWrite pwriteStart
    rw [hlength, List.append_assoc]
    rfl
  have htake : (sessid ++ 10 :: seq.drop 7).take 31 = sessid ++ 10 :: (seq.drop 7).take 24 := by
    have hlength := h.1
    rw [List.take_append, hlength, List.take_of_length_le (by omega)]
    rfl
  have hne : (seq.drop 7).take 24 ≠ [] := fun hnil =>
    (List.take_eq_nil_iff.mp hnil).elim (fun hzero => by cases hzero) htail
  -- at most the last byte goes, and the end of line behind the number stays
  obtain ⟨more, hmore⟩ : ∃ more, (if (sessid ++ 10 :: (seq.drop 7).take 24).getLast? = some 10 then
      (sessid ++ 10 :: (seq.drop 7).take 24).dropLast else sessid ++ 10 :: (seq.drop 7).take 24) =
      sessid ++ 10 :: more := by
    split
    · refine ⟨((seq.drop 7).take 24).dropLast, ?_⟩
      rw [List.dropLast_append_of_ne_nil (List.cons_ne_nil _ _), List.dropLast_cons_of_ne_nil hne]
    · exact ⟨_, rfl⟩
  have hcstring : (sessid ++ 10 :: more).takeWhile (· ≠ 0) =
      sessid ++ 10 :: more.takeWhile (· ≠ 0) := by
    rw [List.takeWhile_append_of_pos fun c hc => ?_]
    · rfl
    · obtain ⟨d, hd, rfl⟩ := h.2 c hc
      exact decide_eq_true (b36char_class hd).2.2.2.1
  have hread : strtoul (sessid ++ 10 :: more.takeWhile (· ≠ 0)) =
      (number sessid, some (10 :: more.takeWhile (· ≠ 0))) :=
    strtoul_append h fun c hc => by
      cases hc
      rfl
  unfold readSeq
  rw [hafter, htake]
  dsimp only
  rw [if_neg (by simp), hmore, hcstring, hread]
  exact if_pos (.inl fun heq => by cases heq)

/-! ## All calls -/

theorem length_afterWrite {seq sessid : Bytes} (h : isId sessid) :
    (afterWrite seq sessid).length = max 7 seq.length := by
  unfold afterWrite pwriteStart
  rw [List.length_append, List.length_drop, List.length_append, h.1, List.length_singleton]
  omega

theorem length_calls_snd (maxseq : Nat) (seq : Bytes) (n : Nat) :
    7 < (calls maxseq seq n).2.length ↔ 7 < seq.length := by
  induction n with
  | zero => exact Iff.rfl
  | succ n ih =>
    unfold calls
    dsimp only
    rw [length_afterWrite (isId_nextSessid maxseq _)]
    omega

theorem wrap {maxseq n : Nat} (hmax : maxseq ≤ SESSID_MAX) (hn : n < maxseq) :
    (n + 1) % maxseq =
      if maxseq ≤ (n + 1) % SESSID_MAX then 0 else (n + 1) % SESSID_MAX := by
  obtain hlt | heq := Nat.lt_or_eq_of_le (Nat.succ_le_of_lt hn)
  · rw [Nat.mod_eq_of_lt hlt, Nat.mod_eq_of_lt (Nat.lt_of_lt_of_le hlt hmax), if_neg (by omega)]
  · rw [Nat.add_one, heq, Nat.mod_self]
    obtain hlt | hself := Nat.lt_or_eq_of_le hmax
    · rw [Nat.mod_eq_of_lt hlt, if_pos (Nat.le_refl _)]
    · rw [hself, Nat.mod_self, ite_self]

theorem readSeq_calls {maxseq : Nat} (hpos : 0 < maxseq) (hmax : maxseq ≤ SESSID_MAX) {seq : Bytes}
    (h : seq.length ≤ 7 ∨ maxseq = 1) (n : Nat) :
    readSeq maxseq (calls maxseq seq n).2 = (readSeq maxseq seq + n) % maxseq := by
  obtain hshort | rfl := h
  · induction n with
    | zero => exact (Nat.mod_eq_of_lt (readSeq_lt hpos seq)).symm
    | succ n ih =>
      have hle : (calls maxseq seq n).2.length ≤ 7 :=
        Nat.le_of_not_lt fun hlt => by
          have hlong := (length_calls_snd maxseq seq n).mp hlt
          omega
      unfold calls
      dsimp only
      rw [readSeq_short (isId_nextSessid maxseq _) hle, number_nextSessid, ih, ← Nat.add_assoc,
        ← wrap hmax (Nat.mod_lt _ hpos), Nat.mod_add_mod]
  · rw [Nat.mod_one]
    exact Nat.lt_one_iff.mp (readSeq_lt hpos _)

theorem calls_succ_fst (maxseq : Nat) (seq : Bytes) (n : Nat) :
    (calls maxseq seq (n + 1)).1 =
      (calls maxseq seq n).1 ++ [nextSessid maxseq (calls maxseq seq n).2] := rfl

theorem calls_getElem? (maxseq : Nat) (seq : Bytes) {i n : Nat} (h : i < n) :
    (calls maxseq seq n).1[i]? = some (nextSessid maxseq (calls maxseq seq i).2) := by
  induction n with
  | zero => cases h
  | succ n ih =>
    rw [calls_succ_fst]
    obtain hlt | rfl := Nat.lt_or_eq_of_le (Nat.le_of_lt_succ h)
    · rw [List.getElem?_append_left (by rw [length_calls]; exact hlt)]
      exact ih hlt
    · rw [List.getElem?_append_right (by rw [length_calls]), length_calls, Nat.sub_self]
      rfl

theorem successor_eq {maxseq n : Nat} (hmax : maxseq ≤ SESSID_MAX) (hn : n < maxseq) :
    successor maxseq ((n + 1) % SESSID_MAX) = ((n + 1) % maxseq + 1) % SESSID_MAX := by
  rw [wrap hmax hn]
  unfold successor
  split
  · decide
  · rfl

theorem lt_of_calls_getElem? {maxseq : Nat} {seq sessid : Bytes} {i n : Nat}
    (h : (calls maxseq seq n).1[i]? = some sessid) :
    i < n ∧ sessid = nextSessid maxseq (calls maxseq seq i).2 := by
  have hlt : i < n := by
    rw [← length_calls maxseq seq n]
    exact (List.getElem?_eq_some_iff.mp h).1
  rw [calls_getElem? maxseq seq hlt] at h
  exact ⟨hlt, (Option.some.inj h).symm⟩

theorem unrepeated_calls {maxseq : Nat} (hpos : 0 < maxseq) (hmax : maxseq ≤ SESSID_MAX)
    {seq : Bytes} (h : seq.length ≤ 7 ∨ maxseq = 1) (n : Nat) :
    Unrepeated maxseq (calls maxseq seq n).1 where
  digits := by
    intro sessid hmem
    obtain ⟨i, hi⟩ := List.mem_iff_getElem?.mp hmem
    rw [(lt_of_calls_getElem? hi).2]
    exact isId_nextSessid maxseq _
  follows := by
    intro i sessid next hsessid hnext
    have hread := readSeq_calls hpos hmax h
    rw [(lt_of_calls_getElem? hsessid).2, (lt_of_calls_getElem? hnext).2, number_nextSessid,
      number_nextSessid, hread, hread, successor_eq hmax (Nat.mod_lt _ hpos), Nat.mod_add_mod,
      Nat.add_assoc]
  distinct := by
    intro i j sessid hij hj hi hsame
    have hread := readSeq_calls hpos hmax h
    have hnumber : number (nextSessid maxseq (calls maxseq seq i).2) =
        number (nextSessid maxseq (calls maxseq seq j).2) := by
      rw [← (lt_of_calls_getElem? hi).2, ← (lt_of_calls_getElem? hsame).2]
    rw [number_nextSessid, number_nextSessid, hread, hread] at hnumber
    have hlti := Nat.mod_lt (readSeq maxseq seq + i) hpos
    have hltj := Nat.mod_lt (readSeq maxseq seq + j) hpos
    -- both numbers are from 1 to the maximum, so that nothing is lost in six digits
    have heq : (readSeq maxseq seq + i) % maxseq = (readSeq maxseq seq + j) % maxseq :=
      Nat.ModEq.eq_of_lt_of_lt (Nat.ModEq.add_right_cancel' 1 hnumber) (by omega) (by omega)
    have hdvd : maxseq ∣ j - i :=
      (Nat.modEq_iff_dvd' (Nat.le_of_lt hij)).mp (Nat.ModEq.add_left_cancel' _ heq)
    have hle := Nat.le_of_dvd (by omega) hdvd
    omega

theorem nextSessid_long {maxseq : Nat} {seq : Bytes} (hlong : 7 < seq.length) (n : Nat) :
    nextSessid maxseq (calls maxseq seq (n + 1)).2 = sessidOf 1 := by
  have hstill := (length_calls_snd maxseq seq n).mpr hlong
  have hread : readSeq maxseq (calls maxseq seq (n + 1)).2 = 0 :=
    readSeq_long (isId_nextSessid maxseq _) hstill
  unfold nextSessid
  rw [hread]

theorem not_unrepeated_calls {maxseq : Nat} {seq : Bytes}
    (hlong : 7 < seq.length) (htwo : 1 < maxseq) : ¬Unrepeated maxseq (calls maxseq seq 3).1 := by
  intro h
  have hfollows := h.follows 1 _ _ (calls_getElem? maxseq seq (by omega))
    (calls_getElem? maxseq seq (by omega))
  rw [nextSessid_long hlong, nextSessid_long hlong, number_sessidOf] at hfollows
  have hone : 1 % SESSID_MAX = 1 := by decide
  unfold successor at hfollows
  rw [hone, if_neg (by omega)] at hfollows
  cases hfollows

/-- The ids follow one another in every run exactly if the file is at first no longer than what
is written to it; only a maximum of 1 is no matter. -/
theorem nextid_unrepeated_iff {maxseq : Nat} (hpos : 0 < maxseq) (hmax : maxseq ≤ SESSID_MAX)
    (seq : Option Bytes) :
    (∀ w, Reached (iologSetMaxseq maxseq) seq w → Unrepeated maxseq w.returned) ↔
      (seq.getD []).length ≤ 7 ∨ maxseq = 1 := by
  have hset : iologSetMaxseq maxseq = maxseq := if_neg (Nat.not_lt.mpr hmax)
  rw [hset]
  constructor
  · intro hall
    by_contra hnot
    obtain ⟨hlong, htwo⟩ := not_or.mp hnot
    obtain ⟨w, hw, hreturned⟩ := exists_reached maxseq seq 3
    have hunrepeated := hall w hw
    rw [hreturned] at hunrepeated
    exact not_unrepeated_calls (by omega) (by omega) hunrepeated
  · intro h w hw
    rw [hw.serial.returned]
    exact unrepeated_calls hpos hmax h _

/-- No file at first. -/
theorem nextid_unrepeated_no_file :
    (∀ w, Reached (iologSetMaxseq 1000) none w → Unrepeated 1000 w.returned) ↔
      (none.getD ([] : Bytes)).length ≤ 7 ∨ 1000 = 1 :=
  nextid_unrepeated_iff (by decide) (by decide) none

/-- `000007` with a second line behind it: the second and the third session share an id. -/
theorem nextid_repeats_behind_long_file :
    ∃ w, Reached (iologSetMaxseq SESSID_MAX) (some (ascii "000007\n\n")) w ∧
      ¬Unrepeated SESSID_MAX w.returned := by
  obtain ⟨w, hw, hreturned⟩ := exists_reached (iologSetMaxseq SESSID_MAX)
    (some (ascii "000007\n\n")) 3
  refine ⟨w, hw, ?_⟩
  rw [hreturned]
  exact not_unrepeated_calls (by decide) (by decide)

end NextBSD.Iolog.NextId
