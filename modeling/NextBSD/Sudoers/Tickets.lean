import NextBSD.Sudoers.TicketTable
import NextBSD.Library.Run
import Mathlib.Logic.Function.Basic

/-!
# Tickets over whole runs

A run of calls on the time stamp file is a run on a table of records.  Every enabled record of
the table was written by an update since which no removal has matched it.
-/

namespace NextBSD.Sudoers

open RecordFile

variable {Byte : Type} (L : EntryLayout Byte) (settings : TsSettings)

/-- The records of the time stamp file, and cookies whose positions count records. -/
structure TicketSystem where
  records : Option (List TimestampEntry)
  cookies : Nat → Option TsCookie

def tableStep (s : TicketSystem) (now : Timespec) : TsCall → TicketSystem × TsAnswer
  | .open c ctx =>
    match timestampOpen settings ctx with
    | none => ({ s with cookies := Function.update s.cookies c none }, .ret false)
    | some cookie =>
      ({ records := some (s.records.getD [])
         cookies := Function.update s.cookies c (some cookie) }, .ret true)
  | .lock c pw =>
    match s.cookies c with
    | none => (s, .ret false)
    | some cookie =>
      let locked := lockTable L settings (s.records.getD []) cookie pw
      ({ records := some locked.1, cookies := Function.update s.cookies c (some locked.2) },
        .ret true)
  | .status c =>
    let result := statusTable L settings (s.records.getD []) (s.cookies c) now
    ({ s with records := s.records.map (fun _ => result.1) }, .status result.2)
  | .update c =>
    let result := updateTable settings (s.records.getD []) (s.cookies c) now
    ({ records := s.records.map (fun _ => result.1)
       cookies := Function.update s.cookies c result.2.1 }, .ret result.2.2)
  | .remove ctx =>
    ({ s with records := s.records.map (disableFrom · (removeKey L settings ctx) 0) }, .ret true)

def TicketSystem.lay (s : TicketSystem) : TsSystem Byte where
  file := s.records.map (layOut L.bytes)
  cookies := Option.map (·.place L) ∘ s.cookies

structure Kept (s : TicketSystem) : Prop where
  table : Table L (s.records.getD [])
  held : ∀ c cookie pos, s.cookies c = some cookie → cookie.pos = some pos →
    Held L settings (s.records.getD []) cookie pos

variable {L settings}

theorem table_nil : Table L [] where
  size := fun e he => absurd he List.not_mem_nil
  first := fun e he => by cases he

theorem lay_getD (s : TicketSystem) :
    (s.lay L).file.getD [] = layOut L.bytes (s.records.getD []) := by
  show (s.records.map (layOut L.bytes)).getD [] = _
  cases s.records with
  | none => rfl
  | some records => rfl

theorem timestampOpen_place {ctx : TsContext} {cookie : TsCookie}
    (h : timestampOpen settings ctx = some cookie) : cookie.place L = cookie := by
  unfold timestampOpen at h
  split_ifs at h
  rw [← Option.some.inj h]
  rfl

theorem timestampOpen_pos {ctx : TsContext} {cookie : TsCookie}
    (h : timestampOpen settings ctx = some cookie) : cookie.pos = none := by
  unfold timestampOpen at h
  split_ifs at h
  rw [← Option.some.inj h]

theorem step_lay {s : TicketSystem} (h : Kept L settings s) (now : Timespec) (call : TsCall) :
    step L settings (s.lay L) now call =
      ((tableStep L settings s now call).1.lay L, (tableStep L settings s now call).2) := by
  cases call with
  | «open» c ctx =>
    unfold step tableStep
    rw [lay_getD]
    cases hopen : timestampOpen settings ctx with
    | none => simp only [hopen, TicketSystem.lay, Function.comp_update, Option.map_none]
    | some cookie =>
      simp only [hopen, TicketSystem.lay, Function.comp_update, Option.map_some,
        timestampOpen_place hopen]
  | lock c pw =>
    unfold step tableStep
    rw [lay_getD]
    cases hcookie : s.cookies c with
    | none => simp only [TicketSystem.lay, Function.comp_apply, hcookie, Option.map_none]
    | some cookie =>
      simp only [TicketSystem.lay, Function.comp_apply, hcookie, Option.map_some,
        (timestampLock_layOut L settings h.table cookie pw).1, Function.comp_update]
  | status c =>
    have hstatus := (timestampStatus_layOut L settings h.table (s.cookies c) now).1
    unfold step tableStep
    rw [lay_getD]
    simp only [TicketSystem.lay, Function.comp_apply, hstatus, Option.map_map]
    rfl
  | update c =>
    have hupdate := (timestampUpdate_layOut h.table (s.cookies c) now (h.held c)).1
    unfold step tableStep
    rw [lay_getD]
    simp only [TicketSystem.lay, Function.comp_apply, hupdate, Option.map_map,
      Function.comp_update]
    rfl
  | remove ctx =>
    unfold step tableStep timestampRemove
    cases hrecords : s.records with
    | none => simp only [TicketSystem.lay, hrecords, Option.map_none]
    | some records =>
      have hdisable := disableRecords_layOut (removeKey L settings ctx)
        (show ∀ e ∈ records, e.size = L.sizeofEntry by
          have htable := h.table
          rw [hrecords] at htable
          exact htable.size) (Nat.zero_le records.length)
      rw [Nat.zero_mul] at hdisable
      simp only [TicketSystem.lay, hrecords, Option.map_some]
      rw [← hdisable]
      rfl

theorem tsInitKey_flags (ctx : TsContext) (pw : Nat) (flags : TsFlags)
    (ticketType : TicketType) : (tsInitKey L ctx (some pw) flags ticketType).flags = flags := by
  cases htty : ctx.ttydev <;> cases ticketType <;> simp [tsInitKey, ttyKey, ppidKey, htty]

theorem lockTable_eq (records : List TimestampEntry) (cookie : TsCookie) (pw : Nat) :
    ∃ key, key.size = L.sizeofEntry ∧ key.flags.disabled = true ∧
      lockTable L settings records cookie pw =
        if settings.timestampType = .global then
          ((ensureRecord (ensureRecord (ensureLock L records) key 1).1
              (lockKey L settings cookie.ctx pw) 0).1,
            { cookie with
              locked := false,
              pos := some (ensureRecord (ensureRecord (ensureLock L records) key 1).1
                (lockKey L settings cookie.ctx pw) 0).2,
              key := lockKey L settings cookie.ctx pw })
        else
          ((ensureRecord (ensureLock L records) (lockKey L settings cookie.ctx pw) 1).1,
            { cookie with
              locked := true,
              pos := some (ensureRecord (ensureLock L records)
                (lockKey L settings cookie.ctx pw) 1).2,
              key := lockKey L settings cookie.ctx pw }) := by
  refine ⟨tsInitKeyNonglobal L settings cookie.ctx (some pw) { disabled := true, anyuid := false },
    tsInitKey_size L _ _ _ _, ?_, ?_⟩
  · exact congrArg TsFlags.disabled (tsInitKey_flags _ _ _ _)
  · unfold lockTable lockKey
    by_cases hglobal : settings.timestampType = .global
    · simp only [if_pos hglobal]
    · simp only [if_neg hglobal]

theorem lockKey_flags (ctx : TsContext) (pw : Nat) :
    (lockKey L settings ctx pw).flags = { disabled := true, anyuid := false } := by
  have hflags := @tsInitKey_flags Byte L ctx pw { disabled := true, anyuid := false }
    (if settings.timestampType = .ppid then .ppid else .tty)
  unfold lockKey
  by_cases hglobal : settings.timestampType = .global
  · rw [if_pos hglobal]
    exact hflags
  · rw [if_neg hglobal]
    exact hflags

theorem lockKey_matches (ctx : TsContext) (pw : Nat) :
    tsMatchRecord (lockKey L settings ctx pw) (lockKey L settings ctx pw) = true := by
  unfold lockKey
  by_cases hglobal : settings.timestampType = .global
  · rw [if_pos hglobal, tsMatchRecord_iff]
    exact ⟨rfl, Or.inr rfl, rfl, Or.inl rfl⟩
  · rw [if_neg hglobal]
    exact tsInitKey_matches ctx pw _ _

theorem lockTable_extends (records : List TimestampEntry) (cookie : TsCookie) (pw : Nat) :
    Extends records (lockTable L settings records cookie pw).1 := by
  obtain ⟨key, _, _, heq⟩ := @lockTable_eq Byte L settings records cookie pw
  rw [heq]
  have hlock := @extends_ensureLock Byte L records
  by_cases hglobal : settings.timestampType = .global
  · rw [if_pos hglobal]
    exact (hlock.trans (extends_ensureRecord _ key 1)).trans (extends_ensureRecord _ _ 0)
  · rw [if_neg hglobal]
    exact hlock.trans (extends_ensureRecord _ _ 1)

theorem lockTable_held (records : List TimestampEntry) (cookie : TsCookie) (pw : Nat) {pos : Nat}
    (hpos : (lockTable L settings records cookie pw).2.pos = some pos) :
    Held L settings (lockTable L settings records cookie pw).1
      (lockTable L settings records cookie pw).2 pos := by
  obtain ⟨key, _, _, heq⟩ := @lockTable_eq Byte L settings records cookie pw
  have hself := @lockKey_matches Byte L settings cookie.ctx pw
  have hflags := @lockKey_flags Byte L settings cookie.ctx pw
  have hmade : ∃ pw' disabled ts, lockKey L settings cookie.ctx pw =
      { lockKey L settings cookie.ctx pw' with
        flags := { disabled := disabled, anyuid := false }, ts := ts } :=
    ⟨pw, true, (lockKey L settings cookie.ctx pw).ts, by rw [← hflags]⟩
  rw [heq] at hpos ⊢
  by_cases hglobal : settings.timestampType = .global
  · rw [if_pos hglobal] at hpos ⊢
    rw [← Option.some.inj hpos]
    exact ⟨hmade, ensureRecord_matches (Nat.zero_le _) hself⟩
  · rw [if_neg hglobal] at hpos ⊢
    rw [← Option.some.inj hpos]
    exact ⟨hmade, ensureRecord_matches (length_ensureLock_pos L records) hself⟩

theorem statusTable_cases (records : List TimestampEntry) (cookie : Option TsCookie)
    (now : Timespec) :
    (statusTable L settings records cookie now).1 = records ∨
      ∃ pos e, records[pos]? = some e ∧
        (statusTable L settings records cookie now).1 = records.set pos e.disable := by
  unfold statusTable
  by_cases htimeout : sudoTimespecisset settings.timestampTimeout = true
  · simp only [htimeout, not_true_eq_false, if_false]
    cases cookie with
    | none => exact Or.inl rfl
    | some cookie =>
      cases hpos : cookie.pos with
      | none => simp only [hpos, true_or]
      | some pos =>
        simp only [hpos]
        cases hget : records[pos]? with
        | none => exact Or.inl rfl
        | some entry =>
          simp only []
          cases hwrite : (entryStatus L settings now cookie.ctx entry).1 with
          | none => exact Or.inl rfl
          | some entry' =>
            rw [entryStatus_disables L settings hwrite]
            exact Or.inr ⟨pos, entry, hget, rfl⟩
  · simp only [htimeout]
    exact Or.inl rfl

theorem Held.anyuid {records : List TimestampEntry} {cookie : TsCookie} {pos : Nat}
    (h : Held L settings records cookie pos) : cookie.key.flags.anyuid = false := by
  obtain ⟨pw, disabled, ts, hkey⟩ := h.key
  rw [hkey]

theorem updateTable_cases (records : List TimestampEntry) (cookie : Option TsCookie)
    (now : Timespec) :
    updateTable settings records cookie now = (records, cookie, false) ∨
      ∃ k pos, cookie = some k ∧ k.pos = some pos ∧
        updateTable settings records cookie now =
          (records.set pos (k.key.enable now), some { k with key := k.key.enable now }, true) := by
  unfold updateTable
  by_cases htimeout : sudoTimespecisset settings.timestampTimeout = true
  · simp only [htimeout, not_true_eq_false, if_false]
    cases cookie with
    | none => exact Or.inl rfl
    | some cookie =>
      cases hpos : cookie.pos with
      | none => simp only [hpos, true_or]
      | some pos => exact Or.inr ⟨cookie, pos, rfl, hpos, by simp only [hpos]⟩
  · simp only [htimeout]
    exact Or.inl rfl

theorem Held.enable {records : List TimestampEntry} {cookie : TsCookie} {pos : Nat}
    (h : Held L settings records cookie pos) (now : Timespec) :
    Held L settings (records.set pos (cookie.key.enable now))
      { cookie with key := cookie.key.enable now } pos := by
  obtain ⟨e, hget, hmatch⟩ := h.record
  constructor
  · obtain ⟨pw, disabled, ts, hkey⟩ := h.key
    refine ⟨pw, false, now, ?_⟩
    show cookie.key.enable now = _
    rw [hkey]
    rfl
  · refine ⟨cookie.key.enable now, ?_, ?_⟩
    · exact List.getElem?_set_self (List.getElem?_eq_some_iff.mp hget).1
    · have halike := alike_enable h.anyuid hmatch now cookie.key
      exact halike.trans hmatch

/-! ## The effects of a step -/

inductive Effect (L : EntryLayout Byte) (settings : TsSettings) (records : List TimestampEntry)
    (cookies : Nat → Option TsCookie) (now : Timespec) :
    TsCall → TsAnswer → List TimestampEntry → (Nat → Option TsCookie) → Prop where
  | opened (c : Nat) (ctx : TsContext) (cookie : Option TsCookie) (answer : TsAnswer)
      (hpos : ∀ k, cookie = some k → k.pos = none) :
      Effect L settings records cookies now (.open c ctx) answer records
        (Function.update cookies c cookie)
  | unlocked (c pw : Nat) (answer : TsAnswer) :
      Effect L settings records cookies now (.lock c pw) answer records cookies
  | locked (c pw : Nat) (cookie : TsCookie) (answer : TsAnswer)
      (hcookie : cookies c = some cookie) :
      Effect L settings records cookies now (.lock c pw) answer
        (lockTable L settings records cookie pw).1
        (Function.update cookies c (some (lockTable L settings records cookie pw).2))
  | asked (c : Nat) (answer : TsAnswer) :
      Effect L settings records cookies now (.status c) answer records cookies
  | disabled (c pos : Nat) (e : TimestampEntry) (answer : TsAnswer)
      (hget : records[pos]? = some e) :
      Effect L settings records cookies now (.status c) answer (records.set pos e.disable) cookies
  | kept (c : Nat) (answer : TsAnswer) :
      Effect L settings records cookies now (.update c) answer records cookies
  | updated (c pos : Nat) (cookie : TsCookie) (hcookie : cookies c = some cookie)
      (hpos : cookie.pos = some pos) :
      Effect L settings records cookies now (.update c) (.ret true)
        (records.set pos (cookie.key.enable now))
        (Function.update cookies c (some { cookie with key := cookie.key.enable now }))
  | removed (ctx : TsContext) (answer : TsAnswer) :
      Effect L settings records cookies now (.remove ctx) answer
        (disableFrom records (removeKey L settings ctx) 0) cookies

theorem tableStep_effect (s : TicketSystem) (now : Timespec) (call : TsCall) :
    Effect L settings (s.records.getD []) s.cookies now call (tableStep L settings s now call).2
      ((tableStep L settings s now call).1.records.getD [])
      (tableStep L settings s now call).1.cookies := by
  cases call with
  | «open» c ctx =>
    cases hopen : timestampOpen settings ctx with
    | none =>
      simp only [tableStep, hopen]
      refine Effect.opened c ctx none _ ?_
      intro k hk
      cases hk
    | some cookie =>
      simp only [tableStep, hopen, Option.getD_some]
      refine Effect.opened c ctx (some cookie) _ ?_
      intro k hk
      rw [← Option.some.inj hk]
      exact timestampOpen_pos hopen
  | lock c pw =>
    cases hcookie : s.cookies c with
    | none =>
      simp only [tableStep, hcookie]
      exact Effect.unlocked c pw _
    | some cookie =>
      simp only [tableStep, hcookie, Option.getD_some]
      exact Effect.locked c pw cookie _ hcookie
  | status c =>
    cases hrecords : s.records with
    | none =>
      simp only [tableStep, hrecords, Option.map_none]
      exact Effect.asked c _
    | some records =>
      simp only [tableStep, hrecords, Option.map_some, Option.getD_some]
      cases statusTable_cases records (s.cookies c) now with
      | inl hsame =>
        rw [hsame]
        exact Effect.asked c _
      | inr hwritten =>
        obtain ⟨pos, e, hget, heq⟩ := hwritten
        rw [heq]
        exact Effect.disabled c pos e _ hget
  | update c =>
    have hcookies := Function.update_eq_self c s.cookies
    cases hrecords : s.records with
    | none =>
      cases @updateTable_cases settings [] (s.cookies c) now with
      | inl hsame =>
        simp only [tableStep, hrecords, Option.map_none, Option.getD_none, hsame, hcookies]
        exact Effect.kept c _
      | inr hwritten =>
        obtain ⟨cookie, pos, hcookie, hpos, heq⟩ := hwritten
        simp only [tableStep, hrecords, Option.map_none, Option.getD_none, heq]
        exact Effect.updated c pos cookie hcookie hpos
    | some records =>
      cases @updateTable_cases settings records (s.cookies c) now with
      | inl hsame =>
        simp only [tableStep, hrecords, Option.map_some, Option.getD_some, hsame, hcookies]
        exact Effect.kept c _
      | inr hwritten =>
        obtain ⟨cookie, pos, hcookie, hpos, heq⟩ := hwritten
        simp only [tableStep, hrecords, Option.map_some, Option.getD_some, heq]
        exact Effect.updated c pos cookie hcookie hpos
  | remove ctx =>
    cases hrecords : s.records with
    | none =>
      simp only [tableStep, hrecords, Option.map_none]
      exact Effect.removed ctx _
    | some records =>
      simp only [tableStep, hrecords, Option.map_some]
      exact Effect.removed ctx _

theorem Effect.extends {records records' : List TimestampEntry}
    {cookies cookies' : Nat → Option TsCookie} {now : Timespec} {call : TsCall} {answer : TsAnswer}
    (h : Effect L settings records cookies now call answer records' cookies')
    (hheld : ∀ c cookie pos, cookies c = some cookie → cookie.pos = some pos →
      Held L settings records cookie pos) : Extends records records' := by
  cases h with
  | opened c ctx cookie _ hpos => exact Extends.refl records
  | unlocked c pw => exact Extends.refl records
  | locked c pw cookie _ hcookie => exact lockTable_extends records cookie pw
  | asked c => exact Extends.refl records
  | disabled c pos e _ hget => exact extends_set hget (alike_disable e)
  | kept c => exact Extends.refl records
  | updated c pos cookie hcookie hpos =>
    have hk := hheld c cookie pos hcookie hpos
    obtain ⟨e, hget, hmatch⟩ := hk.record
    exact extends_set hget (alike_enable hk.anyuid hmatch now)
  | removed ctx => exact extends_disableFrom records _ 0

theorem Effect.table {records records' : List TimestampEntry}
    {cookies cookies' : Nat → Option TsCookie} {now : Timespec} {call : TsCall} {answer : TsAnswer}
    (h : Effect L settings records cookies now call answer records' cookies')
    (htable : Table L records)
    (hheld : ∀ c cookie pos, cookies c = some cookie → cookie.pos = some pos →
      Held L settings records cookie pos) : Table L records' := by
  cases h with
  | opened c ctx cookie _ hpos => exact htable
  | unlocked c pw => exact htable
  | locked c pw cookie _ hcookie => exact (timestampLock_layOut L settings htable cookie pw).2
  | asked c => exact htable
  | disabled c pos e _ hget =>
    refine htable.set L (htable.size e (List.mem_of_getElem? hget)) ?_
    intro e' he'
    rw [← Option.some.inj (hget.symm.trans he')]
    rfl
  | kept c => exact htable
  | updated c pos cookie hcookie hpos =>
    have hk := hheld c cookie pos hcookie hpos
    obtain ⟨e, hget, hmatch⟩ := hk.record
    refine htable.set L hk.size ?_
    intro e' he'
    rw [← Option.some.inj (hget.symm.trans he')]
    exact type_of_match hmatch
  | removed ctx => exact htable.disableFrom _ 0

theorem kept_step {s : TicketSystem} (h : Kept L settings s) (now : Timespec) (call : TsCall) :
    Kept L settings (tableStep L settings s now call).1 := by
  have heffect := @tableStep_effect Byte L settings s now call
  have hext := heffect.extends h.held
  refine ⟨heffect.table h.table h.held, ?_⟩
  intro c cookie pos hcookie hpos
  have hold (hsame : s.cookies c = some cookie) :
      Held L settings ((tableStep L settings s now call).1.records.getD []) cookie pos :=
    (h.held c cookie pos hsame hpos).extends hext
  generalize (tableStep L settings s now call).1.records.getD [] = records' at *
  generalize (tableStep L settings s now call).1.cookies = cookies' at *
  generalize (tableStep L settings s now call).2 = answer at *
  cases heffect with
  | opened c' ctx opened _ hnone =>
    by_cases hc : c = c'
    · subst hc
      rw [Function.update_self] at hcookie
      rw [hnone cookie hcookie] at hpos
      cases hpos
    · rw [Function.update_of_ne hc] at hcookie
      exact hold hcookie
  | unlocked c' pw => exact hold hcookie
  | locked c' pw locked _ hlocked =>
    by_cases hc : c = c'
    · subst hc
      rw [Function.update_self] at hcookie
      rw [← Option.some.inj hcookie] at hpos ⊢
      exact lockTable_held _ locked pw hpos
    · rw [Function.update_of_ne hc] at hcookie
      exact hold hcookie
  | asked c' => exact hold hcookie
  | disabled c' pos' e _ hget => exact hold hcookie
  | kept c' => exact hold hcookie
  | updated c' pos' holder hholder hpos' =>
    by_cases hc : c = c'
    · subst hc
      rw [Function.update_self] at hcookie
      rw [← Option.some.inj hcookie] at hpos ⊢
      have hsame : pos' = pos := Option.some.inj (hpos'.symm.trans hpos)
      subst hsame
      exact (h.held c holder pos' hholder hpos').enable now
    · rw [Function.update_of_ne hc] at hcookie
      exact hold hcookie
  | removed ctx => exact hold hcookie

theorem mem_ensureRecord {records : List TimestampEntry} {key e : TimestampEntry} {k : Nat}
    (h : e ∈ (ensureRecord records key k).1) : e ∈ records ∨ e = key := by
  unfold ensureRecord at h
  by_cases hlt : slot records key k < records.length
  · rw [if_pos hlt] at h
    exact Or.inl h
  · rw [if_neg hlt] at h
    exact (List.mem_append.mp h).imp id List.mem_singleton.mp

theorem mem_ensureLock {records : List TimestampEntry} {e : TimestampEntry}
    (h : e ∈ ensureLock L records) : e ∈ records ∨ e.type = .lockexcl := by
  cases records with
  | nil =>
    rw [List.mem_singleton.mp h]
    exact Or.inr rfl
  | cons first rest => exact Or.inl h

theorem mem_lockTable {records : List TimestampEntry} {cookie : TsCookie} {pw : Nat}
    {e : TimestampEntry} (h : e ∈ (lockTable L settings records cookie pw).1)
    (htype : e.type ≠ .lockexcl) (henabled : e.flags.disabled = false) : e ∈ records := by
  obtain ⟨key, _, hdisabled, heq⟩ := @lockTable_eq Byte L settings records cookie pw
  have hflags := @lockKey_flags Byte L settings cookie.ctx pw
  have hkey : e ≠ key := by
    rintro rfl
    rw [hdisabled] at henabled
    cases henabled
  have hlock : e ≠ lockKey L settings cookie.ctx pw := by
    rintro rfl
    rw [hflags] at henabled
    cases henabled
  rw [heq] at h
  by_cases hglobal : settings.timestampType = .global
  · rw [if_pos hglobal] at h
    have hfirst := (mem_ensureRecord h).resolve_right hlock
    exact (mem_ensureLock ((mem_ensureRecord hfirst).resolve_right hkey)).resolve_right htype
  · rw [if_neg hglobal] at h
    exact (mem_ensureLock ((mem_ensureRecord h).resolve_right hlock)).resolve_right htype

theorem mem_disableFrom {records : List TimestampEntry} {key e : TimestampEntry}
    (h : e ∈ disableFrom records key 0) (henabled : e.flags.disabled = false) :
    e ∈ records ∧ tsMatchRecord key e = false := by
  obtain ⟨i, hi⟩ := List.mem_iff_getElem?.mp h
  rw [getElem?_disableFrom] at hi
  obtain ⟨e', he', heq⟩ := Option.map_eq_some_iff.mp hi
  by_cases hmatch : tsMatchRecord key e' = true
  · rw [if_pos ⟨Nat.zero_le i, hmatch⟩] at heq
    rw [← heq] at henabled
    cases henabled
  · rw [if_neg (fun h => hmatch h.2)] at heq
    rw [← heq]
    exact ⟨List.mem_of_getElem? he', Bool.eq_false_iff.mpr hmatch⟩

/-- A record that is enabled after a call was so before, and no removal has matched it, or the
call is the update that has written it. -/
theorem Effect.enabled {records records' : List TimestampEntry}
    {cookies cookies' : Nat → Option TsCookie} {now : Timespec} {call : TsCall} {answer : TsAnswer}
    (h : Effect L settings records cookies now call answer records' cookies')
    {e : TimestampEntry} (he : e ∈ records') (htype : e.type ≠ .lockexcl)
    (henabled : e.flags.disabled = false) :
    (e ∈ records ∧ ∀ ctx, call = .remove ctx → tsMatchRecord (removeKey L settings ctx) e = false) ∨
      ∃ c cookie, call = .update c ∧ answer = .ret true ∧ cookies c = some cookie ∧
        e = cookie.key.enable now := by
  cases h with
  | opened c ctx cookie _ hpos => exact Or.inl ⟨he, fun _ hcall => by cases hcall⟩
  | unlocked c pw => exact Or.inl ⟨he, fun _ hcall => by cases hcall⟩
  | locked c pw cookie _ hcookie =>
    exact Or.inl ⟨mem_lockTable he htype henabled, fun _ hcall => by cases hcall⟩
  | asked c => exact Or.inl ⟨he, fun _ hcall => by cases hcall⟩
  | disabled c pos e' _ hget =>
    cases List.mem_or_eq_of_mem_set he with
    | inl hold => exact Or.inl ⟨hold, fun _ hcall => by cases hcall⟩
    | inr hnew =>
      rw [hnew] at henabled
      cases henabled
  | kept c => exact Or.inl ⟨he, fun _ hcall => by cases hcall⟩
  | updated c pos cookie hcookie hpos =>
    cases List.mem_or_eq_of_mem_set he with
    | inl hold => exact Or.inl ⟨hold, fun _ hcall => by cases hcall⟩
    | inr hnew => exact Or.inr ⟨c, cookie, rfl, rfl, hcookie, hnew⟩
  | removed ctx =>
    obtain ⟨hold, hmatch⟩ := mem_disableFrom he henabled
    refine Or.inl ⟨hold, ?_⟩
    intro ctx' hcall
    cases hcall
    exact hmatch

def noTickets (present : Bool) : TicketSystem where
  records := if present then some [] else none
  cookies := fun _ => none

def runTable (L : EntryLayout Byte) (settings : TsSettings) (present : Bool)
    (run : List (Timespec × TsCall)) : TicketSystem :=
  run.foldl (fun s call => (tableStep L settings s call.1 call.2).1) (noTickets present)

theorem kept_noTickets (present : Bool) : Kept L settings (noTickets present) where
  table := by
    cases present with
    | false => exact table_nil
    | true => exact table_nil
  held := fun c cookie pos hcookie => by cases hcookie

theorem kept_runTable (present : Bool) (run : List (Timespec × TsCall)) :
    Kept L settings (runTable L settings present run) := by
  refine Run.foldl_history (fun _ s => Kept L settings s) (kept_noTickets present) ?_
  intro history call h
  exact kept_step h call.1 call.2

theorem runCalls_lay (present : Bool) (run : List (Timespec × TsCall)) :
    runCalls L settings ((noTickets present).lay L) run = (runTable L settings present run).lay L := by
  unfold runCalls
  refine Run.foldl_history
    (fun history s => s = (runTable L settings present history).lay L) rfl ?_
  intro history call hsame
  rw [hsame, step_lay (kept_runTable present history)]
  unfold runTable
  rw [List.foldl_append]
  rfl

variable (L settings) in
/-- An update of the run has written the record, and no removal after it matches the record. -/
def Backed (present : Bool) (run : List (Timespec × TsCall)) (e : TimestampEntry) : Prop :=
  ∃ before t c after cookie,
    run = before ++ (t, TsCall.update c) :: after ∧
    (tableStep L settings (runTable L settings present before) t (.update c)).2 = .ret true ∧
    (runTable L settings present before).cookies c = some cookie ∧
    e = cookie.key.enable t ∧
    ∀ t' ctx, (t', TsCall.remove ctx) ∈ after → tsMatchRecord (removeKey L settings ctx) e = false

theorem Backed.append {present : Bool} {run : List (Timespec × TsCall)} {e : TimestampEntry}
    (h : Backed L settings present run e) {now : Timespec} {call : TsCall}
    (hcall : ∀ ctx, call = .remove ctx → tsMatchRecord (removeKey L settings ctx) e = false) :
    Backed L settings present (run ++ [(now, call)]) e := by
  obtain ⟨before, t, c, after, cookie, hrun, hanswer, hcookie, he, hafter⟩ := h
  refine ⟨before, t, c, after ++ [(now, call)], cookie, ?_, hanswer, hcookie, he, ?_⟩
  · rw [hrun, List.append_assoc]
    rfl
  · intro t' ctx hmem
    cases List.mem_append.mp hmem with
    | inl hold => exact hafter t' ctx hold
    | inr hnew => exact hcall ctx (Prod.mk.inj (List.mem_singleton.mp hnew)).2.symm

theorem backed_runTable (present : Bool) (run : List (Timespec × TsCall)) :
    ∀ e ∈ (runTable L settings present run).records.getD [], e.type ≠ .lockexcl →
      e.flags.disabled = false → Backed L settings present run e := by
  refine Run.foldl_history (fun history (s : TicketSystem) => ∀ e ∈ s.records.getD [],
    e.type ≠ .lockexcl → e.flags.disabled = false → Backed L settings present history e) ?_ ?_
  · intro e he
    cases present with
    | false => cases he
    | true => cases he
  · intro history call ih e he htype henabled
    have heffect := @tableStep_effect Byte L settings (runTable L settings present history)
      call.1 call.2
    cases heffect.enabled he htype henabled with
    | inl hold => exact (ih e hold.1 htype henabled).append hold.2
    | inr hnew =>
      obtain ⟨c, cookie, hcall, hanswer, hcookie, hkey⟩ := hnew
      refine ⟨history, call.1, c, [], cookie, ?_, ?_, hcookie, hkey, ?_⟩
      · rw [← hcall]
      · rw [← hcall]
        exact hanswer
      · intro t' ctx hmem
        cases hmem

end NextBSD.Sudoers
