import NextBSD.Sudoers.Timestamp
import Mathlib.Data.List.Basic

/-!
# The time stamp file as a table

A file that starts missing or empty is only ever written in whole entries, the first of which is
the lock record.  Every call then does to the file what a call does to a list of entries.
-/

namespace NextBSD.Sudoers

open RecordFile

variable {Byte : Type} (L : EntryLayout Byte) (settings : TsSettings)

/-- The first record of the key from the record `k` on, or the end. -/
def slot (records : List TimestampEntry) (key : TimestampEntry) (k : Nat) : Nat :=
  k + (records.drop k).findIdx (tsMatchRecord key)

def ensureRecord (records : List TimestampEntry) (key : TimestampEntry) (k : Nat) :
    List TimestampEntry × Nat :=
  (if slot records key k < records.length then records else records ++ [key], slot records key k)

def ensureLock (records : List TimestampEntry) : List TimestampEntry :=
  match records with
  | [] => [lockRecord L]
  | e :: rest => e :: rest

/-- The records and the cookie after `timestamp_lock`. -/
def lockTable (records : List TimestampEntry) (cookie : TsCookie) (pw : Nat) :
    List TimestampEntry × TsCookie :=
  let key := tsInitKeyNonglobal L settings cookie.ctx (some pw) { disabled := true, anyuid := false }
  let nonglobal := ensureRecord (ensureLock L records) key 1
  if settings.timestampType = .global then
    let key := { key with type := .global }
    let found := ensureRecord nonglobal.1 key 0
    (found.1, { cookie with locked := false, pos := some found.2, key := key })
  else (nonglobal.1, { cookie with locked := true, pos := some nonglobal.2, key := key })

def statusTable (records : List TimestampEntry) (cookie : Option TsCookie) (now : Timespec) :
    List TimestampEntry × TsStatus :=
  if ¬ sudoTimespecisset settings.timestampTimeout then (records, .old)
  else
    match cookie with
    | none => (records, .old)
    | some cookie =>
      match cookie.pos with
      | none => (records, .old)
      | some pos =>
        match records[pos]? with
        | none => (records, .error)
        | some entry =>
          let result := entryStatus L settings now cookie.ctx entry
          match result.1 with
          | some entry => (records.set pos entry, result.2)
          | none => (records, result.2)

def updateTable (records : List TimestampEntry) (cookie : Option TsCookie) (now : Timespec) :
    List TimestampEntry × Option TsCookie × Bool :=
  if ¬ sudoTimespecisset settings.timestampTimeout then (records, cookie, false)
  else
    match cookie with
    | none => (records, none, false)
    | some cookie =>
      match cookie.pos with
      | none => (records, some cookie, false)
      | some pos =>
        (records.set pos (cookie.key.enable now),
          some { cookie with key := cookie.key.enable now }, true)

/-- The records from `k` on that match the key are disabled. -/
def disableFrom (records : List TimestampEntry) (key : TimestampEntry) (k : Nat) :
    List TimestampEntry :=
  records.mapIdx (fun i e => if k ≤ i ∧ tsMatchRecord key e then e.disable else e)

def removeKey (ctx : TsContext) : TimestampEntry :=
  tsInitKey L ctx none { disabled := false, anyuid := false } settings.timestampType

/-- Every record has the size of an entry, and the first one is the lock record. -/
structure Table (records : List TimestampEntry) : Prop where
  size : ∀ e ∈ records, e.size = L.sizeofEntry
  first : ∀ e, records.head? = some e → e.type = .lockexcl

theorem sizeofEntry_pos : 0 < L.sizeofEntry := Nat.zero_lt_of_lt L.sizeofEntryV1_lt

theorem slot_of_drop_nil {records : List TimestampEntry} {k : Nat} (key : TimestampEntry)
    (h : records.drop k = []) : slot records key k = k := by
  unfold slot
  rw [h]
  rfl

theorem slot_of_match {records rest : List TimestampEntry} {key e : TimestampEntry} {k : Nat}
    (h : records.drop k = e :: rest) (hmatch : tsMatchRecord key e = true) :
    slot records key k = k := by
  unfold slot
  rw [h, List.findIdx_cons, hmatch]
  rfl

theorem slot_of_not_match {records rest : List TimestampEntry} {key e : TimestampEntry} {k : Nat}
    (h : records.drop k = e :: rest) (hmatch : tsMatchRecord key e = false) :
    slot records key k = slot records key (k + 1) := by
  have hrest : records.drop (k + 1) = rest := by
    rw [← List.drop_drop, h]
    rfl
  unfold slot
  rw [h, hrest, List.findIdx_cons, hmatch]
  show k + (List.findIdx (tsMatchRecord key) rest + 1) = _
  omega

theorem slot_le {records : List TimestampEntry} {k : Nat} (hk : k ≤ records.length)
    (key : TimestampEntry) : slot records key k ≤ records.length := by
  have hle : (records.drop k).findIdx (tsMatchRecord key) ≤ (records.drop k).length :=
    List.findIdx_le_length
  rw [List.length_drop] at hle
  show k + (records.drop k).findIdx (tsMatchRecord key) ≤ records.length
  omega

theorem le_slot (records : List TimestampEntry) (key : TimestampEntry) (k : Nat) :
    k ≤ slot records key k := Nat.le_add_right _ _

theorem slot_matches {records : List TimestampEntry} {key : TimestampEntry} {k : Nat}
    (h : slot records key k < records.length) :
    tsMatchRecord key (records[slot records key k]) = true := by
  have hlt : (records.drop k).findIdx (tsMatchRecord key) < (records.drop k).length := by
    rw [List.length_drop]
    have hslot : slot records key k = k + (records.drop k).findIdx (tsMatchRecord key) := rfl
    omega
  have hmatch := List.findIdx_getElem (w := hlt)
  rw [List.getElem_drop] at hmatch
  exact hmatch

theorem not_match_before_slot {records : List TimestampEntry} {key : TimestampEntry} {k i : Nat}
    (hk : k ≤ i) (hi : i < slot records key k) (hlt : i < records.length) :
    tsMatchRecord key (records[i]) = false := by
  have hslot : slot records key k = k + (records.drop k).findIdx (tsMatchRecord key) := rfl
  have hbefore : i - k < (records.drop k).findIdx (tsMatchRecord key) := by omega
  have hnot := List.not_of_lt_findIdx hbefore
  rw [List.getElem_drop] at hnot
  have hindex : k + (i - k) = i := by omega
  simp only [hindex] at hnot
  exact hnot

theorem pread_bytes (records : List TimestampEntry) (k : Nat) :
    pread (layOut L.bytes records) (k * L.sizeofEntry) L.sizeofEntry =
      (records[k]?.map L.bytes).getD [] :=
  pread_layOut L.length_bytes records k

theorem tsFindRecord_layOut {records : List TimestampEntry}
    (hsize : ∀ e ∈ records, e.size = L.sizeofEntry) (key : TimestampEntry) {k : Nat}
    (hk : k ≤ records.length) :
    tsFindRecord L (layOut L.bytes records) key (k * L.sizeofEntry) =
      (records[slot records key k]?,
        if slot records key k < records.length then (slot records key k + 1) * L.sizeofEntry
        else records.length * L.sizeofEntry) := by
  have hpos := sizeofEntry_pos L
  generalize hrest : records.drop k = rest
  induction rest generalizing k with
  | nil =>
    have hlen : k = records.length := Nat.le_antisymm hk (List.drop_eq_nil_iff.mp hrest)
    have hread : pread (layOut L.bytes records) (k * L.sizeofEntry) L.sizeofEntry = [] := by
      rw [pread_bytes, List.getElem?_eq_none (Nat.le_of_eq hlen.symm)]
      rfl
    have hne : ¬ ([] : List Byte).length = L.sizeofEntry := Nat.ne_of_lt hpos
    rw [tsFindRecord, slot_of_drop_nil key hrest, hread, dif_neg hne,
      List.getElem?_eq_none (Nat.le_of_eq hlen.symm), if_neg (by omega), hlen]
    rfl
  | cons e rest ih =>
    have hlt : k < records.length := by
      refine Nat.lt_of_not_le (fun hle => ?_)
      rw [List.drop_of_length_le hle] at hrest
      cases hrest
    have hget : records[k]? = some e := by
      rw [← List.head?_drop, hrest]
      rfl
    have hread : pread (layOut L.bytes records) (k * L.sizeofEntry) L.sizeofEntry = L.bytes e := by
      rw [pread_bytes, hget]
      rfl
    have hentry := hsize e (List.mem_of_getElem? hget)
    rw [tsFindRecord]
    simp only [hread, L.length_bytes, L.ofBytes_bytes, hentry, dite_true, ne_eq, not_true_eq_false,
      if_false]
    cases hmatch : tsMatchRecord key e with
    | true =>
      rw [if_pos rfl, slot_of_match hrest hmatch, hget, if_pos hlt, Nat.succ_mul]
    | false =>
      have hnext : records.drop (k + 1) = rest := by
        rw [← List.drop_drop, hrest]
        rfl
      rw [if_neg Bool.false_ne_true, slot_of_not_match hrest hmatch, ← Nat.succ_mul]
      exact ih hlt hnext

theorem tsWrite_whole {entry : TimestampEntry} (hsize : entry.size = L.sizeofEntry)
    (file : List Byte) (offset : Nat) :
    tsWrite L file entry offset = pwrite L.zero file offset (L.bytes entry) := by
  unfold tsWrite
  rw [hsize, ← L.length_bytes entry, List.take_length]

theorem tsWrite_set {records : List TimestampEntry} {entry : TimestampEntry} {k : Nat}
    (hsize : entry.size = L.sizeofEntry) (hk : k < records.length) :
    tsWrite L (layOut L.bytes records) entry (k * L.sizeofEntry) =
      layOut L.bytes (records.set k entry) := by
  rw [tsWrite_whole L hsize]
  exact pwrite_set L.zero L.length_bytes hk entry

theorem tsWrite_append (records : List TimestampEntry) {entry : TimestampEntry}
    (hsize : entry.size = L.sizeofEntry) :
    tsWrite L (layOut L.bytes records) entry (records.length * L.sizeofEntry) =
      layOut L.bytes (records ++ [entry]) := by
  rw [tsWrite_whole L hsize]
  exact pwrite_append L.zero L.length_bytes records entry

/-! ## The calls of a cookie -/

theorem tsFindOrAppend_layOut {records : List TimestampEntry} {key : TimestampEntry} {k : Nat}
    (hsize : ∀ e ∈ records, e.size = L.sizeofEntry) (hkey : key.size = L.sizeofEntry)
    (hk : k ≤ records.length) :
    tsFindOrAppend L (layOut L.bytes records) key (k * L.sizeofEntry) =
      (layOut L.bytes (ensureRecord records key k).1,
        (ensureRecord records key k).2 * L.sizeofEntry) := by
  unfold tsFindOrAppend ensureRecord
  rw [tsFindRecord_layOut L hsize key hk]
  by_cases hlt : slot records key k < records.length
  · have hentry := hsize _ (List.getElem_mem hlt)
    simp only [List.getElem?_eq_getElem hlt, if_pos hlt, hentry]
    rw [Nat.succ_mul, Nat.add_sub_cancel]
  · have hend : slot records key k = records.length :=
      Nat.le_antisymm (slot_le hk key) (Nat.le_of_not_lt hlt)
    simp only [hend, List.getElem?_eq_none (Nat.le_refl _), Nat.lt_irrefl, if_false]
    rw [tsWrite_append L records hkey]

theorem lockFirstRecord_layOut {records : List TimestampEntry} (h : Table L records) :
    lockFirstRecord L (layOut L.bytes records) =
      (layOut L.bytes (ensureLock L records), 1 * L.sizeofEntry) := by
  have hread := pread_bytes L records 0
  rw [Nat.zero_mul] at hread
  unfold lockFirstRecord
  rw [hread]
  cases records with
  | nil =>
    have hwrite := @tsWrite_append Byte L [] (lockRecord L) rfl
    rw [List.length_nil, Nat.zero_mul] at hwrite
    show (if 0 < L.sizeofEntryV1 then (tsWrite L [] (lockRecord L) 0, 0 + L.sizeofEntry)
      else _) = _
    rw [if_pos L.sizeofEntryV1_pos, Nat.zero_add, Nat.one_mul]
    exact congrArg (·, L.sizeofEntry) hwrite
  | cons e rest =>
    have htype := h.first e rfl
    have hsize := h.size e List.mem_cons_self
    have hlong : ¬ L.sizeofEntry < L.sizeofEntryV1 := Nat.lt_asymm L.sizeofEntryV1_lt
    show (if (L.bytes e).length < L.sizeofEntryV1 then _
      else if (L.ofBytes (L.bytes e)).type ≠ .lockexcl then _
      else if (L.ofBytes (L.bytes e)).size ≠ L.sizeofEntry then _
      else (_, (L.bytes e).length)) = _
    rw [L.ofBytes_bytes, L.length_bytes, if_neg hlong, if_neg (not_not.mpr htype),
      if_neg (not_not.mpr hsize), Nat.one_mul]
    rfl

theorem Table.ensureLock {records : List TimestampEntry} (h : Table L records) :
    Table L (ensureLock L records) := by
  cases records with
  | nil =>
    constructor
    · intro e he
      rw [List.mem_singleton.mp he]
      rfl
    · intro e he
      rw [← Option.some.inj he]
      rfl
  | cons e rest => exact h

theorem length_ensureLock_pos (records : List TimestampEntry) :
    1 ≤ (ensureLock L records).length := by
  cases records with
  | nil => exact Nat.le_refl 1
  | cons e rest => exact Nat.succ_pos _

theorem Table.ensureRecord {records : List TimestampEntry} (h : Table L records)
    (hne : 1 ≤ records.length) {key : TimestampEntry} (hkey : key.size = L.sizeofEntry) (k : Nat) :
    Table L (ensureRecord records key k).1 := by
  unfold Sudoers.ensureRecord
  by_cases hlt : slot records key k < records.length
  · rw [if_pos hlt]
    exact h
  · rw [if_neg hlt]
    constructor
    · intro e he
      cases List.mem_append.mp he with
      | inl hold => exact h.size e hold
      | inr hnew =>
        rw [List.mem_singleton.mp hnew]
        exact hkey
    · intro e he
      cases records with
      | nil => exact absurd hne (by decide)
      | cons first rest => exact h.first e he

theorem tsInitKey_size (ctx : TsContext) (pw : Option Nat) (flags : TsFlags)
    (ticketType : TicketType) : (tsInitKey L ctx pw flags ticketType).size = L.sizeofEntry := by
  cases htty : ctx.ttydev <;> cases ticketType <;> cases pw <;>
    simp [tsInitKey, ttyKey, ppidKey, htty]

def TsCookie.place (cookie : TsCookie) : TsCookie :=
  { cookie with pos := cookie.pos.map (· * L.sizeofEntry) }

theorem length_le_ensureRecord (records : List TimestampEntry) (key : TimestampEntry) (k : Nat) :
    records.length ≤ (ensureRecord records key k).1.length := by
  have hlen : (records ++ [key]).length = records.length + 1 := List.length_append
  show records.length ≤ (if slot records key k < records.length then records
    else records ++ [key]).length
  split <;> omega

theorem timestampLock_layOut {records : List TimestampEntry} (h : Table L records)
    (cookie : TsCookie) (pw : Nat) :
    timestampLock L settings (layOut L.bytes records) (cookie.place L) pw =
        (layOut L.bytes (lockTable L settings records cookie pw).1,
          (lockTable L settings records cookie pw).2.place L) ∧
      Table L (lockTable L settings records cookie pw).1 := by
  have hlock := h.ensureLock
  have hpos := length_ensureLock_pos L records
  have hkey := tsInitKey_size L cookie.ctx (some pw) { disabled := true, anyuid := false }
    (if settings.timestampType = .ppid then .ppid else .tty)
  have hrecord := hlock.ensureRecord L hpos hkey 1
  unfold timestampLock lockTable
  rw [lockFirstRecord_layOut L h]
  by_cases hglobal : settings.timestampType = .global
  · have hglobalKey : { tsInitKeyNonglobal L settings cookie.ctx (some pw)
        { disabled := true, anyuid := false } with type := TsType.global }.size =
          L.sizeofEntry := hkey
    have hlong := Nat.le_trans hpos (length_le_ensureRecord (ensureLock L records)
      (tsInitKeyNonglobal L settings cookie.ctx (some pw) { disabled := true, anyuid := false }) 1)
    have hfind := tsFindOrAppend_layOut L hrecord.size hglobalKey (Nat.zero_le _)
    rw [Nat.zero_mul] at hfind
    simp only [if_pos hglobal, tsFindOrAppend_layOut L hlock.size hkey hpos, TsCookie.place,
      tsInitKeyNonglobal] at hfind ⊢
    rw [hfind]
    exact ⟨rfl, hrecord.ensureRecord L hlong hglobalKey 0⟩
  · simp only [if_neg hglobal, TsCookie.place, tsInitKeyNonglobal]
    rw [tsFindOrAppend_layOut L hlock.size hkey hpos]
    exact ⟨rfl, hrecord⟩

theorem Table.set {records : List TimestampEntry} (h : Table L records) {k : Nat}
    {entry : TimestampEntry} (hsize : entry.size = L.sizeofEntry)
    (htype : ∀ e, records[k]? = some e → entry.type = e.type) : Table L (records.set k entry) := by
  constructor
  · intro e he
    cases List.mem_or_eq_of_mem_set he with
    | inl hold => exact h.size e hold
    | inr hnew => rw [hnew, hsize]
  · intro e he
    cases records with
    | nil => cases he
    | cons first rest =>
      cases k with
      | zero =>
        rw [← Option.some.inj he, htype first rfl]
        exact h.first first rfl
      | succ k => exact h.first e he

theorem entryStatus_disables {now : Timespec} {ctx : TsContext} {entry entry' : TimestampEntry}
    (h : (entryStatus L settings now ctx entry).1 = some entry') : entry' = entry.disable := by
  unfold entryStatus at h
  split_ifs at h
  · simp only [] at h
    split_ifs at h
    exact (Option.some.inj h).symm

theorem timestampStatus_layOut {records : List TimestampEntry} (h : Table L records)
    (cookie : Option TsCookie) (now : Timespec) :
    timestampStatus L settings (layOut L.bytes records) (cookie.map (·.place L)) now =
        (layOut L.bytes (statusTable L settings records cookie now).1,
          (statusTable L settings records cookie now).2) ∧
      Table L (statusTable L settings records cookie now).1 := by
  unfold timestampStatus statusTable
  by_cases htimeout : sudoTimespecisset settings.timestampTimeout = true
  · simp only [htimeout, not_true_eq_false, if_false]
    cases cookie with
    | none => exact ⟨rfl, h⟩
    | some cookie =>
      cases hpos : cookie.pos with
      | none =>
        simp only [Option.map_some, TsCookie.place, hpos, Option.map_none]
        exact ⟨trivial, h⟩
      | some pos =>
        simp only [Option.map_some, TsCookie.place, hpos, pread_bytes]
        cases hget : records[pos]? with
        | none =>
          have hne : ([] : List Byte).length ≠ L.sizeofEntry := Nat.ne_of_lt (sizeofEntry_pos L)
          simp only [Option.map_none, Option.getD_none, if_pos hne]
          exact ⟨trivial, h⟩
        | some entry =>
          simp only [Option.map_some, Option.getD_some, L.length_bytes, ne_eq, not_true_eq_false,
            if_false, L.ofBytes_bytes]
          cases hwrite : (entryStatus L settings now cookie.ctx entry).1 with
          | none => exact ⟨rfl, h⟩
          | some entry' =>
            have hdisable := entryStatus_disables L settings hwrite
            have hsize : entry'.size = L.sizeofEntry := by
              rw [hdisable]
              exact h.size entry (List.mem_of_getElem? hget)
            have hlt : pos < records.length := (List.getElem?_eq_some_iff.mp hget).1
            refine ⟨?_, h.set L hsize ?_⟩
            · simp only [tsWrite_set L hsize hlt]
            · intro e he
              rw [hget] at he
              rw [hdisable, ← Option.some.inj he]
              rfl
  · simp only [htimeout]
    exact ⟨rfl, h⟩

/-- The key of a cookie that `timestamp_lock` has locked. -/
def lockKey (ctx : TsContext) (pw : Nat) : TimestampEntry :=
  let key := tsInitKeyNonglobal L settings ctx (some pw) { disabled := true, anyuid := false }
  if settings.timestampType = .global then { key with type := .global } else key

/-- The cookie's key is one of `timestamp_lock`, and the record at its position is of that key. -/
structure Held (records : List TimestampEntry) (cookie : TsCookie) (pos : Nat) : Prop where
  key : ∃ pw disabled ts, cookie.key =
    { lockKey L settings cookie.ctx pw with
      flags := { disabled := disabled, anyuid := false }, ts := ts }
  record : ∃ e, records[pos]? = some e ∧ tsMatchRecord cookie.key e = true

variable {L settings}

theorem lockKey_size (ctx : TsContext) (pw : Nat) :
    (lockKey L settings ctx pw).size = L.sizeofEntry := by
  have hsize := tsInitKey_size L ctx (some pw) { disabled := true, anyuid := false }
    (if settings.timestampType = .ppid then .ppid else .tty)
  unfold lockKey
  by_cases hglobal : settings.timestampType = .global
  · rw [if_pos hglobal]
    exact hsize
  · rw [if_neg hglobal]
    exact hsize

theorem Held.size {records : List TimestampEntry} {cookie : TsCookie} {pos : Nat}
    (h : Held L settings records cookie pos) : cookie.key.size = L.sizeofEntry := by
  obtain ⟨pw, disabled, ts, hkey⟩ := h.key
  rw [hkey]
  exact lockKey_size cookie.ctx pw

theorem type_of_match {key e : TimestampEntry} (h : tsMatchRecord key e = true) :
    key.type = e.type := by
  unfold tsMatchRecord at h
  split_ifs at h with hversion huid htype
  exact (not_not.mp htype).symm

theorem timestampUpdate_layOut {records : List TimestampEntry} (h : Table L records)
    (cookie : Option TsCookie) (now : Timespec)
    (hheld : ∀ k pos, cookie = some k → k.pos = some pos → Held L settings records k pos) :
    timestampUpdate L settings (layOut L.bytes records) (cookie.map (·.place L)) now =
        (layOut L.bytes (updateTable settings records cookie now).1,
          (updateTable settings records cookie now).2.1.map (·.place L),
          (updateTable settings records cookie now).2.2) ∧
      Table L (updateTable settings records cookie now).1 := by
  unfold timestampUpdate updateTable
  by_cases htimeout : sudoTimespecisset settings.timestampTimeout = true
  · simp only [htimeout, not_true_eq_false, if_false]
    cases cookie with
    | none => exact ⟨rfl, h⟩
    | some cookie =>
      cases hpos : cookie.pos with
      | none =>
        simp only [Option.map_some, TsCookie.place, hpos, Option.map_none]
        exact ⟨trivial, h⟩
      | some pos =>
        have hcookie := hheld cookie pos rfl hpos
        obtain ⟨e, hget, hmatch⟩ := hcookie.record
        have hlt : pos < records.length := (List.getElem?_eq_some_iff.mp hget).1
        have hsize : (cookie.key.enable now).size = L.sizeofEntry := hcookie.size
        simp only [Option.map_some, TsCookie.place, hpos, tsWrite_set L hsize hlt]
        refine ⟨trivial, h.set L hsize ?_⟩
        · intro e' he'
          rw [hget] at he'
          rw [← Option.some.inj he']
          exact type_of_match hmatch
  · simp only [htimeout]
    exact ⟨rfl, h⟩

theorem getElem?_disableFrom (records : List TimestampEntry) (key : TimestampEntry) (k i : Nat) :
    (disableFrom records key k)[i]? = records[i]?.map (fun e =>
      if k ≤ i ∧ tsMatchRecord key e then e.disable else e) :=
  List.getElem?_mapIdx

theorem TimestampEntry.disable_of_disabled {e : TimestampEntry} (h : e.flags.disabled = true) :
    e.disable = e := by
  obtain ⟨version, size, type, ⟨disabled, anyuid⟩, authUid, sid, startTime, ts, u⟩ := e
  have hdisabled : disabled = true := h
  rw [hdisabled]
  rfl

theorem disableFrom_of_not_match {records : List TimestampEntry} {key : TimestampEntry}
    {k stop : Nat} (hk : k ≤ stop)
    (hnot : ∀ i e, k ≤ i → i < stop → records[i]? = some e → tsMatchRecord key e = false) :
    disableFrom records key k = disableFrom records key stop := by
  apply List.ext_getElem?
  intro i
  rw [getElem?_disableFrom, getElem?_disableFrom]
  cases hget : records[i]? with
  | none => rfl
  | some e =>
    show some (if k ≤ i ∧ tsMatchRecord key e = true then _ else _) =
      some (if stop ≤ i ∧ tsMatchRecord key e = true then _ else _)
    by_cases hi : stop ≤ i
    · simp only [hi, Nat.le_trans hk hi, true_and]
    · by_cases hki : k ≤ i
      · have hfalse := hnot i e hki (Nat.lt_of_not_le hi) hget
        rw [hfalse]
        simp
      · rw [if_neg (fun h => hki h.1), if_neg (fun h => hi h.1)]

theorem disableFrom_of_match {records : List TimestampEntry} {key e : TimestampEntry} {k : Nat}
    (hget : records[k]? = some e) (hmatch : tsMatchRecord key e = true) :
    disableFrom records key k = disableFrom (records.set k e.disable) key (k + 1) := by
  have hlt : k < records.length := (List.getElem?_eq_some_iff.mp hget).1
  apply List.ext_getElem?
  intro i
  rw [getElem?_disableFrom, getElem?_disableFrom]
  by_cases hik : k = i
  · subst hik
    rw [List.getElem?_set_self hlt, hget]
    simp [hmatch, Nat.not_succ_le_self]
  · rw [List.getElem?_set_ne hik]
    cases records[i]? with
    | none => rfl
    | some e' =>
      have hiff : k ≤ i ↔ k + 1 ≤ i := by omega
      simp only [hiff]

theorem set_self {records : List TimestampEntry} {e : TimestampEntry} {k : Nat}
    (hget : records[k]? = some e) : records.set k e = records := by
  obtain ⟨hlt, hk⟩ := List.getElem?_eq_some_iff.mp hget
  rw [← hk]
  exact List.set_getElem_self hlt

theorem disableRecords_layOut (key : TimestampEntry) {records : List TimestampEntry}
    (hsize : ∀ e ∈ records, e.size = L.sizeofEntry) {k : Nat} (hk : k ≤ records.length) :
    disableRecords L (layOut L.bytes records) key (k * L.sizeofEntry) =
      layOut L.bytes (disableFrom records key k) := by
  generalize hleft : records.length - k = left
  induction left using Nat.strongRecOn generalizing records k with
  | ind left ih =>
    have hskip : disableFrom records key k = disableFrom records key (slot records key k) := by
      refine disableFrom_of_not_match (le_slot records key k) ?_
      intro i e hki hi hget
      obtain ⟨hlt, hi'⟩ := List.getElem?_eq_some_iff.mp hget
      rw [← hi']
      exact not_match_before_slot hki hi hlt
    rw [disableRecords, tsFindRecord_layOut L hsize key hk, hskip]
    by_cases hlt : slot records key k < records.length
    · have hget := List.getElem?_eq_getElem hlt
      have hmatch := slot_matches hlt
      have hentry := hsize _ (List.getElem_mem hlt)
      have hle := le_slot records key k
      generalize slot records key k = s at *
      generalize records[s] = e at *
      have hdisable : e.disable.size = L.sizeofEntry := hentry
      rw [hget, if_pos hlt, disableFrom_of_match hget hmatch]
      by_cases hdisabled : e.flags.disabled = true
      · rw [TimestampEntry.disable_of_disabled hdisabled, set_self hget]
        simp only [hdisabled, if_true]
        exact ih (records.length - (s + 1)) (by omega) hsize hlt rfl
      · have hback : (s + 1) * L.sizeofEntry - L.sizeofEntry = s * L.sizeofEntry := by
          rw [Nat.succ_mul, Nat.add_sub_cancel]
        simp only [hdisabled]
        rw [hback, hentry, tsWrite_set L hdisable hlt, ← Nat.succ_mul]
        have hlen : (records.set s e.disable).length = records.length := List.length_set
        refine ih (records.length - (s + 1)) (by omega) ?_ (by omega) (by rw [hlen])
        intro e' he'
        cases List.mem_or_eq_of_mem_set he' with
        | inl hold => exact hsize e' hold
        | inr hnew => rw [hnew, hdisable]
    · have hend : slot records key k = records.length :=
        Nat.le_antisymm (slot_le hk key) (Nat.le_of_not_lt hlt)
      have hnone : disableFrom records key records.length = records := by
        apply List.ext_getElem?
        intro i
        rw [getElem?_disableFrom]
        cases hget : records[i]? with
        | none => rfl
        | some e =>
          have hi : i < records.length := (List.getElem?_eq_some_iff.mp hget).1
          show some (if records.length ≤ i ∧ _ then _ else _) = some e
          rw [if_neg (fun h => absurd h.1 (Nat.not_le_of_lt hi))]
      rw [hend, List.getElem?_eq_none (Nat.le_refl _), hnone]

theorem Table.disableFrom {records : List TimestampEntry} (h : Table L records)
    (key : TimestampEntry) (k : Nat) : Table L (disableFrom records key k) := by
  constructor
  · intro e he
    obtain ⟨i, hi⟩ := List.mem_iff_getElem?.mp he
    rw [getElem?_disableFrom] at hi
    obtain ⟨e', he', rfl⟩ := Option.map_eq_some_iff.mp hi
    have hsize := h.size e' (List.mem_of_getElem? he')
    split
    · exact hsize
    · exact hsize
  · intro e he
    rw [List.head?_eq_getElem?, getElem?_disableFrom] at he
    obtain ⟨e', he', rfl⟩ := Option.map_eq_some_iff.mp he
    have htype := h.first e' (by rw [List.head?_eq_getElem?]; exact he')
    split
    · exact htype
    · exact htype

theorem tsMatchRecord_iff {key e : TimestampEntry} :
    tsMatchRecord key e = true ↔
      e.version = key.version ∧ (key.flags.anyuid = true ∨ e.authUid = key.authUid) ∧
        e.type = key.type ∧
        (e.type = .global ∨
          (e.type = .tty ∨ e.type = .ppid) ∧ e.u = key.u ∧ e.startTime = key.startTime) := by
  unfold tsMatchRecord
  by_cases hversion : e.version = key.version
  · by_cases huid : key.flags.anyuid = true ∨ e.authUid = key.authUid
    · by_cases htype : e.type = key.type
      · have huid' : ¬ (¬ key.flags.anyuid = true ∧ e.authUid ≠ key.authUid) := by
          rintro ⟨hany, hne⟩
          exact huid.elim hany hne
        rw [if_neg (not_not.mpr hversion), if_neg huid', if_neg (not_not.mpr htype)]
        cases hcase : e.type <;>
          simp [hversion, huid, ← htype, hcase]
      · simp [hversion, htype]
    · have huid' := not_or.mp huid
      simp [hversion, huid']
  · simp [hversion]

def Alike (e e' : TimestampEntry) : Prop := ∀ key, tsMatchRecord key e' = tsMatchRecord key e

theorem alike_disable (e : TimestampEntry) : Alike e e.disable := fun _ => rfl

theorem alike_enable {key e : TimestampEntry} (hany : key.flags.anyuid = false)
    (hmatch : tsMatchRecord key e = true) (now : Timespec) : Alike e (key.enable now) := by
  obtain ⟨hversion, huid, htype, hticket⟩ := tsMatchRecord_iff.mp hmatch
  have huid' : e.authUid = key.authUid := by simpa [hany] using huid
  intro other
  have hu : (key.enable now).u = key.u := rfl
  have hstart : (key.enable now).startTime = key.startTime := rfl
  rw [Bool.eq_iff_iff, tsMatchRecord_iff, tsMatchRecord_iff]
  show key.version = other.version ∧ (_ ∨ key.authUid = other.authUid) ∧ key.type = other.type ∧
    (key.type = .global ∨ (key.type = .tty ∨ key.type = .ppid) ∧ key.u = other.u ∧
      key.startTime = other.startTime) ↔ _
  rw [← hversion, ← huid', ← htype]
  cases hticket with
  | inl hglobal => simp [hglobal]
  | inr hother => rw [hother.2.1, hother.2.2]

def Extends (records records' : List TimestampEntry) : Prop :=
  ∀ (k : Nat) (e : TimestampEntry), records[k]? = some e → ∃ e', records'[k]? = some e' ∧ Alike e e'

theorem Extends.refl (records : List TimestampEntry) : Extends records records :=
  fun _ e he => ⟨e, he, fun _ => rfl⟩

theorem Extends.trans {a b c : List TimestampEntry} (hab : Extends a b) (hbc : Extends b c) :
    Extends a c := by
  intro k e he
  obtain ⟨e', he', halike⟩ := hab k e he
  obtain ⟨e'', he'', halike'⟩ := hbc k e' he'
  exact ⟨e'', he'', fun key => (halike' key).trans (halike key)⟩

theorem extends_append (records rest : List TimestampEntry) : Extends records (records ++ rest) := by
  intro k e he
  refine ⟨e, ?_, fun _ => rfl⟩
  rw [List.getElem?_append_left (List.getElem?_eq_some_iff.mp he).1]
  exact he

theorem extends_ensureLock (records : List TimestampEntry) :
    Extends records (ensureLock L records) := by
  cases records with
  | nil => intro k e he; simp at he
  | cons e rest => exact Extends.refl _

theorem extends_ensureRecord (records : List TimestampEntry) (key : TimestampEntry) (k : Nat) :
    Extends records (ensureRecord records key k).1 := by
  unfold ensureRecord
  by_cases hlt : slot records key k < records.length
  · rw [if_pos hlt]
    exact Extends.refl _
  · rw [if_neg hlt]
    exact extends_append records [key]

theorem extends_set {records : List TimestampEntry} {k : Nat} {e e' : TimestampEntry}
    (hget : records[k]? = some e) (halike : Alike e e') : Extends records (records.set k e') := by
  intro i old hold
  by_cases hik : k = i
  · subst hik
    have hsame : e = old := Option.some.inj (hget.symm.trans hold)
    refine ⟨e', ?_, hsame ▸ halike⟩
    exact List.getElem?_set_self (List.getElem?_eq_some_iff.mp hget).1
  · refine ⟨old, ?_, fun _ => rfl⟩
    rw [List.getElem?_set_ne hik]
    exact hold

theorem extends_disableFrom (records : List TimestampEntry) (key : TimestampEntry) (k : Nat) :
    Extends records (disableFrom records key k) := by
  intro i e he
  rw [getElem?_disableFrom, he]
  by_cases hmatch : k ≤ i ∧ tsMatchRecord key e = true
  · refine ⟨e.disable, ?_, alike_disable e⟩
    show some (if _ then _ else _) = _
    rw [if_pos hmatch]
  · refine ⟨e, ?_, fun _ => rfl⟩
    show some (if _ then _ else _) = _
    rw [if_neg hmatch]

theorem Held.extends {records records' : List TimestampEntry} {cookie : TsCookie} {pos : Nat}
    (h : Held L settings records cookie pos) (hext : Extends records records') :
    Held L settings records' cookie pos := by
  obtain ⟨e, hget, hmatch⟩ := h.record
  obtain ⟨e', hget', halike⟩ := hext pos e hget
  exact ⟨h.key, e', hget', (halike cookie.key).trans hmatch⟩

theorem ensureRecord_matches {records : List TimestampEntry} {key : TimestampEntry} {k : Nat}
    (hk : k ≤ records.length) (hself : tsMatchRecord key key = true) :
    ∃ e, (ensureRecord records key k).1[(ensureRecord records key k).2]? = some e ∧
      tsMatchRecord key e = true := by
  unfold ensureRecord
  by_cases hlt : slot records key k < records.length
  · rw [if_pos hlt]
    exact ⟨_, List.getElem?_eq_getElem hlt, slot_matches hlt⟩
  · have hend : slot records key k = records.length :=
      Nat.le_antisymm (slot_le hk key) (Nat.le_of_not_lt hlt)
    rw [if_neg hlt, hend]
    exact ⟨key, List.getElem?_concat_length, hself⟩

theorem tsInitKey_matches (ctx : TsContext) (pw : Nat) (flags : TsFlags)
    (ticketType : TicketType) :
    tsMatchRecord (tsInitKey L ctx (some pw) flags ticketType)
      (tsInitKey L ctx (some pw) flags ticketType) = true := by
  rw [tsMatchRecord_iff]
  cases htty : ctx.ttydev <;> cases ticketType <;> simp [tsInitKey, ttyKey, ppidKey, htty]

end NextBSD.Sudoers
