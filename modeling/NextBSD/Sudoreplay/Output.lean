import NextBSD.Library.Block

/-!
# sudoreplay: the output of an event

What was recorded is read into a buffer and written from there, with a carriage return in front of
a newline where the terminal needs one.  One newline is looked at for each `writev`, and a `writev`
may write a part of what it was offered.
-/

namespace NextBSD.Sudoreplay

abbrev Bytes := List UInt8

inductive IoEvent where
  | stdin
  | stdout
  | stderr
  | ttyin
  | ttyout
  deriving DecidableEq, Repr

structure ReplayEnv where
  interactive : Bool
  event : IoEvent

def ReplayEnv.inserts (env : ReplayEnv) : Bool :=
  env.interactive && (env.event = .stdout || env.event = .stderr)

/-- `sizeof(closure->iobuf.buf)`. -/
def bufSize : Nat := 64 * 1024

structure IoBuffer where
  len : Nat
  off : Nat
  toread : Nat
  lastc : UInt8
  buf : Block

inductive ReplayStatus where
  | writing
  | nextRecord
  | broken
  deriving DecidableEq, Repr

structure ReplayState where
  iobuf : IoBuffer
  log : Bytes
  out : Bytes
  status : ReplayStatus

/-- `get_timing_record` for an event with so many bytes; the memory is what it was. -/
def recordStart (nbytes : Nat) (log : Bytes) (buf : Block) : ReplayState where
  iobuf := { len := 0, off := 0, toread := nbytes, lastc := 0, buf := buf }
  log := log
  out := []
  status := .writing

/-- `fill_iobuf`; nothing at a premature end of the file. -/
def fillIobuf (st : ReplayState) : Option ReplayState :=
  let iobuf := st.iobuf
  let space := bufSize - iobuf.len
  if iobuf.toread ≠ 0 ∧ space ≠ 0 then
    let read := st.log.take (min iobuf.toread space)
    if read = [] then none
    else
      some { st with
        iobuf := { iobuf with
          buf := iobuf.buf.overwrite iobuf.off read
          toread := iobuf.toread - read.length
          len := iobuf.len + read.length }
        log := st.log.drop read.length }
  else some st

def IoBuffer.base (iobuf : IoBuffer) : Bytes := iobuf.buf.bytes iobuf.off (iobuf.len - iobuf.off)

/-- The character in front of some text, where `lastc` was written before. -/
def lastOf (lastc : UInt8) (text : Bytes) : UInt8 := text.getLast?.getD lastc

/-- The part in front of a newline that lacks its carriage return, if the first newline does. -/
def crPoint (env : ReplayEnv) (iobuf : IoBuffer) : Option Bytes :=
  let front := iobuf.base.takeWhile (· ≠ 10)
  if env.inserts = true ∧ 10 ∈ iobuf.base ∧ lastOf iobuf.lastc front ≠ 13 then some front else none

def offered (env : ReplayEnv) (iobuf : IoBuffer) : Bytes :=
  match crPoint env iobuf with
  | none => iobuf.base
  | some front => front ++ [13, 10]

def consume (env : ReplayEnv) (iobuf : IoBuffer) (nwritten : Nat) : IoBuffer :=
  if nwritten = 0 then iobuf
  else
    match crPoint env iobuf with
    | none =>
      { iobuf with
        lastc := iobuf.buf.byte (iobuf.off + nwritten)
        off := iobuf.off + nwritten }
    | some front =>
      let nbytes := front.length + 2
      { iobuf with
        lastc :=
          if nbytes - 1 ≤ nwritten then (if nwritten = nbytes then 10 else 13)
          else iobuf.buf.byte (iobuf.off + nwritten)
        off := iobuf.off + (nwritten - 1) }

/-- `write_output`, where `writev` accepts so many bytes. -/
def writeOutput (env : ReplayEnv) (nwritten : Nat) (st : ReplayState) : ReplayState :=
  match fillIobuf st with
  | none => { st with status := .broken }
  | some st =>
    let iobuf := consume env st.iobuf nwritten
    { st with
      iobuf := iobuf
      out := st.out ++ (offered env st.iobuf).take nwritten
      status := if iobuf.off = iobuf.len then .nextRecord else .writing }

/-- The text behind a character, with a carriage return in front of every newline that lacks it. -/
def withCr (last : UInt8) : Bytes → Bytes
  | [] => []
  | c :: rest =>
    if c = 10 ∧ last ≠ 13 then 13 :: 10 :: withCr 10 rest else c :: withCr c rest

def expectedOutput (env : ReplayEnv) (last : UInt8) (data : Bytes) : Bytes :=
  if env.inserts then withCr last data else data

def Complete (last : UInt8) : Bytes → Prop
  | [] => True
  | c :: rest => (c = 10 → last = 13) ∧ Complete c rest

/-- An answer of `writev`: at least one byte, if any was offered. -/
def Accepted (env : ReplayEnv) (iobuf : IoBuffer) (nwritten : Nat) : Prop :=
  nwritten ≤ (offered env iobuf).length ∧ (nwritten = 0 → offered env iobuf = [])

/-- An answer that the code is made for.  An inserted carriage return is written; otherwise no
newline is written that lacks one, and the text is not cut in front of a newline that has one. -/
def Fine (env : ReplayEnv) (iobuf : IoBuffer) (nwritten : Nat) : Prop :=
  env.inserts = true →
    match crPoint env iobuf with
    | none =>
      Complete iobuf.lastc (iobuf.base.take nwritten) ∧
        ¬(iobuf.base[nwritten - 1]? = some 13 ∧ iobuf.base[nwritten]? = some 10)
    | some front => front.length < nwritten

/-- The states that answers for which `Allowed` holds lead to, up to the next timing record. -/
inductive Reaches (env : ReplayEnv) (Allowed : IoBuffer → Nat → Prop) :
    ReplayState → ReplayState → Prop
  | refl (st : ReplayState) : Reaches env Allowed st st
  | step {st st' filled : ReplayState} {nwritten : Nat} (hwriting : st.status = .writing)
      (hfill : fillIobuf st = some filled) (haccepted : Accepted env filled.iobuf nwritten)
      (hallowed : Allowed filled.iobuf nwritten)
      (hrest : Reaches env Allowed (writeOutput env nwritten st) st') : Reaches env Allowed st st'

theorem withCr_congr {last last' : UInt8} {text : Bytes}
    (h : ∀ rest, text = 10 :: rest → (last = 13 ↔ last' = 13)) :
    withCr last text = withCr last' text := by
  cases text with
  | nil => rfl
  | cons c rest =>
    by_cases hc : c = 10
    · simp only [withCr, hc, ne_eq, h rest (hc ▸ rfl)]
    · simp [withCr, hc]

theorem withCr_append {last : UInt8} {front : Bytes} (h : Complete last front) (rest : Bytes) :
    withCr last (front ++ rest) = front ++ withCr (lastOf last front) rest := by
  induction front generalizing last with
  | nil => rfl
  | cons c front ih =>
    obtain ⟨hc, hfront⟩ := h
    have hstay : ¬(c = 10 ∧ last ≠ 13) := fun hboth => hboth.2 (hc hboth.1)
    have hlast : lastOf last (c :: front) = lastOf c front := by
      unfold lastOf
      rw [List.getLast?_cons]
      rfl
    rw [List.cons_append, withCr, if_neg hstay, ih hfront, hlast]
    rfl

theorem complete_of_not_mem {last : UInt8} {front : Bytes} (h : 10 ∉ front) :
    Complete last front := by
  induction front generalizing last with
  | nil => trivial
  | cons c front ih =>
    exact ⟨fun hc => absurd (hc ▸ List.mem_cons_self) h,
      ih fun hmem => h (List.mem_cons_of_mem _ hmem)⟩

theorem not_mem_takeWhile (text : Bytes) : 10 ∉ text.takeWhile (· ≠ 10) := by
  induction text with
  | nil => exact List.not_mem_nil
  | cons c text ih =>
    rw [List.takeWhile_cons]
    split
    case isTrue hc =>
      rw [List.mem_cons, not_or]
      exact ⟨fun heq => absurd heq.symm (of_decide_eq_true hc), ih⟩
    case isFalse => exact List.not_mem_nil

theorem takeWhile_append_newline {text : Bytes} (h : 10 ∈ text) :
    ∃ rest, text = text.takeWhile (· ≠ 10) ++ 10 :: rest := by
  induction text with
  | nil => exact absurd h List.not_mem_nil
  | cons c text ih =>
    by_cases hc : c = 10
    · exact ⟨text, by simp [hc]⟩
    · obtain ⟨rest, hrest⟩ := ih ((List.mem_cons.mp h).resolve_left (Ne.symm hc))
      refine ⟨rest, ?_⟩
      rw [List.takeWhile_cons_of_pos (by simpa using hc), List.cons_append, ← hrest]

/-- The data is in the buffer, and with what is left to write the output is as it should be. -/
structure Filled (env : ReplayEnv) (data : Bytes) (st : ReplayState) : Prop where
  toread : st.iobuf.toread = 0
  len : st.iobuf.len = data.length
  off : st.iobuf.off ≤ st.iobuf.len
  bytes : st.iobuf.buf.bytes 0 data.length = data
  out : st.out ++ expectedOutput env st.iobuf.lastc (data.drop st.iobuf.off) =
    expectedOutput env 0 data
  next : st.status = .nextRecord → st.iobuf.off = st.iobuf.len
  broken : st.status ≠ .broken

variable {env : ReplayEnv} {data : Bytes} {st : ReplayState} {nwritten : Nat}

theorem Filled.base (h : Filled env data st) : st.iobuf.base = data.drop st.iobuf.off := by
  unfold IoBuffer.base
  have hdrop := Block.drop_bytes st.iobuf.buf 0 data.length st.iobuf.off
  rw [h.bytes, Nat.zero_add] at hdrop
  rw [hdrop, h.len]

theorem IoBuffer.byte_of_base {iobuf : IoBuffer} {c : UInt8} {n : Nat}
    (hc : iobuf.base[n]? = some c) : iobuf.buf.byte (iobuf.off + n) = c := by
  have hlt : n < iobuf.len - iobuf.off := by
    have hn := (List.getElem?_eq_some_iff.mp hc).1
    rwa [IoBuffer.base, Block.length_bytes] at hn
  rw [IoBuffer.base, Block.getElem?_bytes hlt] at hc
  exact Option.some.inj hc

theorem Filled.fill (h : Filled env data st) : fillIobuf st = some st := by
  unfold fillIobuf
  exact if_neg fun hread => hread.1 h.toread

theorem fillIobuf_recordStart (env : ReplayEnv) {data : Bytes} (hdata : data.length ≤ bufSize)
    (more : Bytes) (buf : Block) :
    ∃ filled, fillIobuf (recordStart data.length (data ++ more) buf) = some filled ∧
      Filled env data filled := by
  by_cases hnil : data = []
  · subst hnil
    refine ⟨recordStart 0 ([] ++ more) buf, by simp [fillIobuf, recordStart], ?_⟩
    exact
      { toread := rfl, len := rfl, off := Nat.le_refl 0, bytes := rfl, out := rfl
        next := by simp [recordStart], broken := by simp [recordStart] }
  · have hpos := List.length_pos_iff.mpr hnil
    have hread : (data ++ more).take (min data.length (bufSize - 0)) = data := by
      rw [Nat.min_eq_left (by omega)]
      exact List.take_left
    have hfill : fillIobuf (recordStart data.length (data ++ more) buf) =
        some { recordStart data.length (data ++ more) buf with
          iobuf :=
            { len := 0 + data.length, off := 0, toread := data.length - data.length, lastc := 0
              buf := buf.overwrite 0 data }
          log := (data ++ more).drop data.length } := by
      unfold fillIobuf recordStart
      dsimp only
      rw [if_pos ⟨by omega, by unfold bufSize; omega⟩, hread, if_neg hnil]
    exact ⟨_, hfill,
      { toread := Nat.sub_self _, len := Nat.zero_add _, off := Nat.zero_le _
        bytes := Block.bytes_overwrite_self buf 0 data, out := rfl
        next := by simp [recordStart], broken := by simp [recordStart] }⟩

/-! ## One call -/

theorem writeOutput_of_fill {filled : ReplayState} (h : fillIobuf st = some filled) :
    writeOutput env nwritten st =
      { filled with
        iobuf := consume env filled.iobuf nwritten
        out := filled.out ++ (offered env filled.iobuf).take nwritten
        status :=
          if (consume env filled.iobuf nwritten).off = (consume env filled.iobuf nwritten).len then
            .nextRecord
          else .writing } := by
  unfold writeOutput
  rw [h]

theorem Filled.consume (h : Filled env data st) {lastc : UInt8} {off : Nat} {text : Bytes}
    (hconsume : Sudoreplay.consume env st.iobuf nwritten = { st.iobuf with lastc := lastc, off := off })
    (hoff : off ≤ data.length) (htext : (offered env st.iobuf).take nwritten = text)
    (hout : expectedOutput env st.iobuf.lastc (data.drop st.iobuf.off) =
      text ++ expectedOutput env lastc (data.drop off)) :
    Filled env data (writeOutput env nwritten st) := by
  rw [writeOutput_of_fill h.fill, hconsume, htext]
  refine
    { toread := h.toread, len := h.len, off := h.len ▸ hoff, bytes := h.bytes, out := ?_
      next := ?_, broken := ?_ }
  · show st.out ++ text ++ expectedOutput env lastc (data.drop off) = _
    rw [List.append_assoc, ← hout, h.out]
  · dsimp only
    split
    case isTrue heq => exact fun _ => heq
    case isFalse => simp
  · dsimp only
    split <;> simp

theorem Filled.plain (h : Filled env data st) (hnone : crPoint env st.iobuf = none)
    (hpos : nwritten ≠ 0) (haccepted : Accepted env st.iobuf nwritten)
    (hfine : Fine env st.iobuf nwritten) : Filled env data (writeOutput env nwritten st) := by
  have hoffered : offered env st.iobuf = data.drop st.iobuf.off := by
    rw [offered, hnone]
    exact h.base
  have hlen : nwritten ≤ data.length - st.iobuf.off := by
    have := haccepted.1
    rwa [hoffered, List.length_drop] at this
  have hsplit : data.drop st.iobuf.off =
      (data.drop st.iobuf.off).take nwritten ++ data.drop (st.iobuf.off + nwritten) := by
    rw [← List.drop_drop, List.take_append_drop]
  refine @Filled.consume env data st nwritten h (st.iobuf.buf.byte (st.iobuf.off + nwritten))
    (st.iobuf.off + nwritten) ((data.drop st.iobuf.off).take nwritten) ?_ ?_ ?_ ?_
  · rw [Sudoreplay.consume, if_neg hpos, hnone]
  · have := h.off
    have := h.len
    omega
  · rw [hoffered]
  · unfold expectedOutput
    split
    case isFalse => exact hsplit
    case isTrue hinserts =>
      have hfine := hfine hinserts
      rw [hnone] at hfine
      obtain ⟨hcomplete, hcut⟩ := hfine
      rw [h.base] at hcomplete hcut
      conv_lhs => rw [hsplit]
      rw [withCr_append hcomplete]
      congr 1
      refine withCr_congr fun rest hrest => ?_
      -- The newline in front is not behind a carriage return, and neither is `lastc` one.
      have hnewline : (data.drop st.iobuf.off)[nwritten]? = some 10 := by
        rw [List.getElem?_drop, ← List.head?_drop, hrest]
        rfl
      have hlastc := IoBuffer.byte_of_base (h.base ▸ hnewline)
      rw [hlastc]
      have hlast : lastOf st.iobuf.lastc ((data.drop st.iobuf.off).take nwritten) ≠ 13 := by
        intro heq
        refine hcut ⟨?_, hnewline⟩
        have hlt : nwritten - 1 < (data.drop st.iobuf.off).length := by
          rw [List.length_drop]
          omega
        rw [lastOf, List.getLast?_eq_getElem?, List.length_take, List.length_drop,
          Nat.min_eq_left hlen, List.getElem?_take_of_lt (by omega),
          List.getElem?_eq_getElem hlt] at heq
        rw [List.getElem?_eq_getElem hlt]
        exact congrArg some heq
      exact ⟨fun heq => absurd heq hlast, fun heq => absurd heq (by decide)⟩

theorem Filled.insert (h : Filled env data st) {front : Bytes}
    (hsome : crPoint env st.iobuf = some front) (haccepted : Accepted env st.iobuf nwritten)
    (hfine : Fine env st.iobuf nwritten) : Filled env data (writeOutput env nwritten st) := by
  have hoffered : offered env st.iobuf = front ++ [13, 10] := by
    rw [offered, hsome]
  have hle : nwritten ≤ front.length + 2 := by
    have := haccepted.1
    rwa [hoffered, List.length_append] at this
  have hpoint := hsome
  unfold crPoint at hpoint
  dsimp only at hpoint
  split at hpoint
  case isFalse => exact absurd hpoint (Option.some_ne_none _).symm
  case isTrue hcond =>
  obtain ⟨hinserts, hnewline, hlast⟩ := hcond
  obtain rfl := Option.some.inj hpoint
  have hlt : (st.iobuf.base.takeWhile (· ≠ 10)).length < nwritten := by
    have := hfine hinserts
    rwa [hsome] at this
  obtain ⟨rest, hsplit⟩ := takeWhile_append_newline hnewline
  rw [h.base] at *
  have hnone := not_mem_takeWhile (data.drop st.iobuf.off)
  generalize (data.drop st.iobuf.off).takeWhile (· ≠ 10) = front at *
  have hlength : data.length - st.iobuf.off = front.length + 1 + rest.length := by
    have := congrArg List.length hsplit
    rw [List.length_drop, List.length_append, List.length_cons] at this
    omega
  have hvalue : expectedOutput env st.iobuf.lastc (data.drop st.iobuf.off) =
      front ++ 13 :: 10 :: withCr 10 rest := by
    rw [expectedOutput, if_pos hinserts, hsplit, withCr_append (complete_of_not_mem hnone), withCr,
      if_pos ⟨rfl, hlast⟩]
  have hconsume : Sudoreplay.consume env st.iobuf nwritten =
      { st.iobuf with
        lastc := if nwritten = front.length + 2 then 10 else 13
        off := st.iobuf.off + (nwritten - 1) } := by
    rw [Sudoreplay.consume, if_neg (by omega), hsome]
    dsimp only
    rw [if_pos (by omega)]
  rcases (by omega : nwritten = front.length + 1 ∨ nwritten = front.length + 2) with rfl | rfl
  · refine @Filled.consume env data st _ h 13 (st.iobuf.off + front.length) (front ++ [13]) ?_ ?_ ?_
      ?_
    · rw [hconsume, if_neg (by omega), Nat.add_sub_cancel]
    · omega
    · rw [hoffered, List.take_append]
      simp
    · rw [hvalue, ← List.drop_drop, hsplit, List.drop_left, expectedOutput, if_pos hinserts]
      simp [withCr]
  · refine @Filled.consume env data st _ h 10 (st.iobuf.off + (front.length + 1))
      (front ++ [13, 10]) ?_ ?_ ?_ ?_
    · rw [hconsume, if_pos rfl]
      rfl
    · omega
    · rw [hoffered, List.take_of_length_le (by simp)]
    · rw [hvalue, ← List.drop_drop, hsplit, ← List.drop_drop, List.drop_left, expectedOutput,
        if_pos hinserts]
      simp

theorem Filled.step (h : Filled env data st) (haccepted : Accepted env st.iobuf nwritten)
    (hfine : Fine env st.iobuf nwritten) : Filled env data (writeOutput env nwritten st) := by
  cases hpoint : crPoint env st.iobuf with
  | some front => exact h.insert hpoint haccepted hfine
  | none =>
    by_cases hzero : nwritten = 0
    · refine @Filled.consume env data st nwritten h st.iobuf.lastc st.iobuf.off [] ?_ ?_ ?_ rfl
      · rw [Sudoreplay.consume, if_pos hzero]
      · exact h.len ▸ h.off
      · rw [hzero, List.take_zero]
    · exact h.plain hpoint hzero haccepted hfine

theorem Reaches.filled {st' : ReplayState} (h : Reaches env (Fine env) st st')
    (hfilled : Filled env data st) : Filled env data st' := by
  induction h with
  | refl => exact hfilled
  | step hwriting hfill haccepted hallowed hrest ih =>
    obtain rfl := Option.some.inj (hfilled.fill.symm.trans hfill)
    exact ih (hfilled.step haccepted hallowed)

/-- In every run in which inserted carriage returns are written, no newline is written that lacks
one, and no write ends in front of a newline that has one, the output is a start of what it should
be, and all of it when the next timing record is read. -/
theorem reaches_output (env : ReplayEnv) (data more : Bytes) (buf : Block)
    (hdata : data.length ≤ bufSize) (st : ReplayState)
    (hreaches : Reaches env (Fine env) (recordStart data.length (data ++ more) buf) st) :
    st.out <+: expectedOutput env 0 data ∧ st.status ≠ .broken ∧
      (st.status = .nextRecord → st.out = expectedOutput env 0 data) := by
  obtain ⟨filled, hfill, hfilled⟩ := fillIobuf_recordStart env hdata more buf
  cases hreaches with
  | refl => exact ⟨List.nil_prefix, by simp [recordStart], by simp [recordStart]⟩
  | step hwriting hfill' haccepted hallowed hrest =>
    obtain rfl := Option.some.inj (hfill.symm.trans hfill')
    rw [writeOutput_of_fill hfill, ← writeOutput_of_fill hfilled.fill] at hrest
    have h := hrest.filled (hfilled.step haccepted hallowed)
    refine ⟨⟨_, h.out⟩, h.broken, fun hnext => ?_⟩
    have hout := h.out
    rw [h.next hnext, h.len, List.drop_length] at hout
    rw [← hout]
    unfold expectedOutput
    split <;> simp [withCr]

def terminalOutput : ReplayEnv := { interactive := true, event := .stdout }

def emptyBlock : Block := { allocated := bufSize, byte := fun _ => 0 }

/-- The newline of a line is written behind its carriage return, in a call of its own. -/
theorem reaches_output_split :
    let st := writeOutput terminalOutput 1
      (writeOutput terminalOutput 2 (recordStart 2 [97, 10] emptyBlock))
    st.out <+: expectedOutput terminalOutput 0 [97, 10] ∧ st.status ≠ .broken ∧
      (st.status = .nextRecord → st.out = expectedOutput terminalOutput 0 [97, 10]) := by
  refine reaches_output terminalOutput [97, 10] [] emptyBlock (by decide) _ ?_
  refine .step rfl rfl (show Accepted terminalOutput _ 2 from ⟨by decide, by decide⟩)
    (fun _ => show ([97] : Bytes).length < 2 by decide) ?_
  refine .step rfl rfl (show Accepted terminalOutput _ 1 from ⟨by decide, by decide⟩)
    (fun _ => ?_) (.refl _)
  exact show Complete 13 [10] ∧ ¬(([10] : Bytes)[1 - 1]? = some 13 ∧ ([10] : Bytes)[1]? = some 10)
    from ⟨⟨fun _ => rfl, trivial⟩, by decide⟩

/-- A short write repeats a byte, and a newline behind one with a carriage return lacks its own. -/
theorem reaches_not_output :
    (∃ st, Reaches terminalOutput (fun _ _ => True) (recordStart 3 [97, 98, 10] emptyBlock) st ∧
        st.status = .nextRecord ∧ st.out ≠ expectedOutput terminalOutput 0 [97, 98, 10]) ∧
      ∃ st, Reaches terminalOutput (fun _ _ => True) (recordStart 4 [13, 10, 97, 10] emptyBlock) st ∧
        st.status = .nextRecord ∧ st.out ≠ expectedOutput terminalOutput 0 [13, 10, 97, 10] := by
  refine ⟨⟨writeOutput terminalOutput 4
    (writeOutput terminalOutput 1 (recordStart 3 [97, 98, 10] emptyBlock)), ?_, by decide, by decide⟩,
    ⟨writeOutput terminalOutput 4 (recordStart 4 [13, 10, 97, 10] emptyBlock), ?_, by decide,
      by decide⟩⟩
  · refine .step rfl rfl (show Accepted terminalOutput _ 1 from ⟨by decide, by decide⟩) trivial ?_
    exact .step rfl rfl (show Accepted terminalOutput _ 4 from ⟨by decide, by decide⟩) trivial
      (.refl _)
  · exact .step rfl rfl (show Accepted terminalOutput _ 4 from ⟨by decide, by decide⟩) trivial
      (.refl _)

end NextBSD.Sudoreplay
