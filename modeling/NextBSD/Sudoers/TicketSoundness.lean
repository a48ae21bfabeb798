import NextBSD.Sudoers.Tickets

/-!
# The soundness of tickets

A ticket that is current was updated for the same user and the same session, not too long ago,
and has not been removed since.
-/

namespace NextBSD.Sudoers

open RecordFile

variable {Byte : Type} (L : EntryLayout Byte) (settings : TsSettings)

/-- A terminal with the start time of the session leader, or a parent with its own. -/
inductive Ticket where
  | global
  | tty (ttydev : Int) (start : Timespec)
  | ppid (ppid : Int) (start : Timespec)
  deriving DecidableEq, Repr

/-- The ticket of a session.  Without kernel tickets, those of type `kernel` are bound to a
terminal. -/
def ticketOf (ctx : TsContext) : Ticket :=
  match settings.timestampType, ctx.ttydev with
  | .global, _ => .global
  | .ppid, _ => .ppid ctx.ppid ctx.ppidStart
  | .tty, some ttydev | .kernel, some ttydev =>
    .tty ttydev (if ctx.sid ≠ -1 then ctx.sidStart else sudoTimespecclear)
  | .tty, none | .kernel, none => .ppid ctx.ppid ctx.ppidStart

def started (present : Bool) : TsSystem Byte where
  file := if present then some [] else none
  cookies := fun _ => none

def afterRun (present : Bool) (run : List (Timespec × TsCall)) : TsSystem Byte :=
  runCalls L settings (started present) run

/-- An update of the run was made for the user, the ticket and the session of the cookie, it is
younger than the timeout, and no session of the ticket has called `timestamp_remove` since. -/
def Justified (present : Bool) (run : List (Timespec × TsCall)) (now : Timespec)
    (cookie : TsCookie) : Prop :=
  ∃ before t c after holder,
    run = before ++ (t, TsCall.update c) :: after ∧
    (step L settings (afterRun L settings present before) t (.update c)).2 = .ret true ∧
    (afterRun L settings present before).cookies c = some holder ∧
    holder.key.authUid = cookie.key.authUid ∧
    ticketOf settings holder.ctx = ticketOf settings cookie.ctx ∧
    (settings.timestampType = .global ∨ holder.ctx.sid = cookie.ctx.sid) ∧
    (sudoTimespecLt settings.timestampTimeout sudoTimespecclear = true ∨
      sudoTimespecLt (sudoTimespecsub now t) settings.timestampTimeout = true) ∧
    ∀ t' ctx, (t', TsCall.remove ctx) ∈ after → ticketOf settings ctx ≠ ticketOf settings cookie.ctx

def SoundAfter (present : Bool) (run : List (Timespec × TsCall)) : Prop :=
  ∀ now c cookie, (afterRun L settings present run).cookies c = some cookie →
    (step L settings (afterRun L settings present run) now (.status c)).2 = .status .current →
      Justified L settings present run now cookie

/-- Every removal of the run reaches the tickets of its session: the tickets are not of type
`kernel`, or the session has no terminal, or no update was made before on the same ticket. -/
def RemovalsReach (present : Bool) (run : List (Timespec × TsCall)) : Prop :=
  ∀ before t ctx after, run = before ++ (t, TsCall.remove ctx) :: after →
    settings.timestampType ≠ .kernel ∨ ctx.ttydev = none ∨
      ∀ earlier t' c later holder, before = earlier ++ (t', TsCall.update c) :: later →
        (afterRun L settings present earlier).cookies c = some holder →
          ticketOf settings holder.ctx ≠ ticketOf settings ctx

variable {L settings}

theorem afterRun_eq (present : Bool) (run : List (Timespec × TsCall)) :
    afterRun L settings present run = (runTable L settings present run).lay L := by
  rw [← runCalls_lay]
  unfold afterRun
  congr 1
  cases present with
  | false => rfl
  | true => rfl

theorem removeKey_matches {ctx ctx' : TsContext} (pw : Nat)
    (hticket : ticketOf settings ctx = ticketOf settings ctx')
    (hreach : settings.timestampType ≠ .kernel ∨ ctx.ttydev = none) :
    tsMatchRecord (removeKey L settings ctx) (lockKey L settings ctx' pw) = true := by
  rw [tsMatchRecord_iff]
  cases htype : settings.timestampType <;> cases htty : ctx.ttydev <;>
    cases htty' : ctx'.ttydev <;>
    simp_all [removeKey, lockKey, tsInitKeyNonglobal, tsInitKey, ttyKey, ppidKey, ticketOf,
      TimestampEntry.zero]

theorem lockKey_ticket {ctx ctx' : TsContext} {pw pw' : Nat}
    (h : tsMatchRecord (lockKey L settings ctx pw) (lockKey L settings ctx' pw') = true) :
    pw' = pw ∧ ticketOf settings ctx' = ticketOf settings ctx := by
  rw [tsMatchRecord_iff] at h
  cases htype : settings.timestampType <;> cases htty : ctx.ttydev <;>
    cases htty' : ctx'.ttydev <;>
    simp_all [lockKey, tsInitKeyNonglobal, tsInitKey, ttyKey, ppidKey, ticketOf,
      TimestampEntry.zero]

theorem lockKey_sid (ctx : TsContext) (pw : Nat) : (lockKey L settings ctx pw).sid = ctx.sid := by
  cases htype : settings.timestampType <;> cases htty : ctx.ttydev <;>
    simp [lockKey, tsInitKeyNonglobal, tsInitKey, ttyKey, ppidKey, htype, htty]

theorem lockKey_global (ctx : TsContext) (pw : Nat) :
    (lockKey L settings ctx pw).type = .global ↔ settings.timestampType = .global := by
  cases htype : settings.timestampType <;> cases htty : ctx.ttydev <;>
    simp [lockKey, tsInitKeyNonglobal, tsInitKey, ttyKey, ppidKey, htype, htty]

theorem lockKey_authUid (ctx : TsContext) (pw : Nat) :
    (lockKey L settings ctx pw).authUid = pw := by
  cases htype : settings.timestampType <;> cases htty : ctx.ttydev <;>
    simp [lockKey, tsInitKeyNonglobal, tsInitKey, ttyKey, ppidKey, htype, htty]

/-! ## A current ticket -/

theorem entryStatus_current {now : Timespec} {ctx : TsContext} {entry : TimestampEntry}
    (h : (entryStatus L settings now ctx entry).2 = .current) :
    entry.flags.disabled = false ∧ (entry.type = .global ∨ entry.sid = ctx.sid) ∧
      (sudoTimespecLt settings.timestampTimeout sudoTimespecclear = true ∨
        sudoTimespecLt (sudoTimespecsub now entry.ts) settings.timestampTimeout = true) := by
  unfold entryStatus at h
  split_ifs at h with hversion hvalid hdisabled hsid hforever
  · exact ⟨Bool.eq_false_iff.mpr hdisabled, or_iff_not_and_not.mpr hsid, Or.inl hforever⟩
  · simp only [] at h
    split_ifs at h with hyoung hfuture
    exact ⟨Bool.eq_false_iff.mpr hdisabled, or_iff_not_and_not.mpr hsid, Or.inr hyoung⟩

theorem statusTable_current {records : List TimestampEntry} {cookie : TsCookie} {now : Timespec}
    (h : (statusTable L settings records (some cookie) now).2 = .current) :
    ∃ pos entry, cookie.pos = some pos ∧ records[pos]? = some entry ∧
      (entryStatus L settings now cookie.ctx entry).2 = .current := by
  unfold statusTable at h
  split_ifs at h with htimeout
  cases hpos : cookie.pos with
  | none =>
    simp only [hpos] at h
    cases h
  | some pos =>
    simp only [hpos] at h
    cases hget : records[pos]? with
    | none =>
      simp only [hget] at h
      cases h
    | some entry =>
      refine ⟨pos, entry, rfl, hget, ?_⟩
      simp only [hget] at h
      cases hwrite : (entryStatus L settings now cookie.ctx entry).1 with
      | none =>
        simp only [hwrite] at h
        exact h
      | some entry' =>
        simp only [hwrite] at h
        exact h

structure LockedBy (cookie : TsCookie) (pw : Nat) : Prop where
  authUid : cookie.key.authUid = pw
  sid : cookie.key.sid = cookie.ctx.sid
  type : cookie.key.type = .global ↔ settings.timestampType = .global
  finds : ∀ e, tsMatchRecord cookie.key e = tsMatchRecord (lockKey L settings cookie.ctx pw) e
  found : ∀ key, tsMatchRecord key cookie.key = tsMatchRecord key (lockKey L settings cookie.ctx pw)

theorem Held.lockedBy {records : List TimestampEntry} {cookie : TsCookie} {pos : Nat}
    (h : Held L settings records cookie pos) :
    ∃ pw, @LockedBy Byte L settings cookie pw := by
  obtain ⟨pw, disabled, ts, hkey⟩ := h.key
  have hflags := @lockKey_flags Byte L settings cookie.ctx pw
  refine ⟨pw, ?_, ?_, ?_, ?_, ?_⟩
  · rw [hkey]
    exact lockKey_authUid cookie.ctx pw
  · rw [hkey]
    exact lockKey_sid cookie.ctx pw
  · rw [hkey]
    exact lockKey_global cookie.ctx pw
  · intro e
    rw [hkey, Bool.eq_iff_iff, tsMatchRecord_iff, tsMatchRecord_iff, hflags]
  · intro key
    rw [hkey]
    rfl

theorem update_pos {s : TicketSystem} {now : Timespec} {c : Nat} {cookie : TsCookie}
    (hcookie : s.cookies c = some cookie)
    (h : (tableStep L settings s now (.update c)).2 = .ret true) : ∃ pos, cookie.pos = some pos := by
  have hanswer := TsAnswer.ret.inj h
  cases @updateTable_cases settings (s.records.getD []) (s.cookies c) now with
  | inl hsame =>
    rw [hsame] at hanswer
    cases hanswer
  | inr hwritten =>
    obtain ⟨k, pos, hk, hpos, _⟩ := hwritten
    have hsame : cookie = k := Option.some.inj (hcookie.symm.trans hk)
    exact ⟨pos, hsame ▸ hpos⟩

/-- In every run whose removals reach the tickets of their sessions, tickets are sound. -/
theorem soundAfter_of_removalsReach (present : Bool) (run : List (Timespec × TsCall))
    (hreach : RemovalsReach L settings present run) : SoundAfter L settings present run := by
  intro now c cookie hcookie hstatus
  have hkept := @kept_runTable Byte L settings present run
  rw [afterRun_eq, step_lay hkept] at hstatus
  rw [afterRun_eq] at hcookie
  obtain ⟨asker, hasker, rfl⟩ := Option.map_eq_some_iff.mp hcookie
  have hcurrent : (statusTable L settings ((runTable L settings present run).records.getD [])
      (some asker) now).2 = .current := by
    have hanswer := TsAnswer.status.inj hstatus
    rw [hasker] at hanswer
    exact hanswer
  obtain ⟨pos, entry, hpos, hget, hentry⟩ := statusTable_current hcurrent
  obtain ⟨henabled, hsid, htime⟩ := entryStatus_current hentry
  have hheld := hkept.held c asker pos hasker hpos
  obtain ⟨entry', hget', hmatch⟩ := hheld.record
  obtain rfl : entry = entry' := Option.some.inj (hget.symm.trans hget')
  have hunlocked : entry.type ≠ .lockexcl := by
    intro hlock
    have hvalid := (tsMatchRecord_iff.mp hmatch).2.2.2
    simp [hlock] at hvalid
  obtain ⟨before, t, c', after, holder, hrun, hanswer, hholder, rfl, hafter⟩ :=
    @backed_runTable Byte L settings present run entry (List.mem_of_getElem? hget)
      hunlocked henabled
  obtain ⟨pos', hpos'⟩ := update_pos hholder hanswer
  have hheld' := (kept_runTable present before).held c' holder pos' hholder hpos'
  obtain ⟨pwAsker, hlockAsker⟩ := hheld.lockedBy
  obtain ⟨pwHolder, hlockHolder⟩ := hheld'.lockedBy
  have hfound (key : TimestampEntry) : tsMatchRecord key (holder.key.enable t) =
      tsMatchRecord key (lockKey L settings holder.ctx pwHolder) := hlockHolder.found key
  rw [hlockAsker.finds, hfound] at hmatch
  obtain ⟨hpw, hticket⟩ := lockKey_ticket hmatch
  have hbefore : (afterRun L settings present before).cookies c' = some (holder.place L) := by
    rw [afterRun_eq]
    show ((runTable L settings present before).cookies c').map _ = _
    rw [hholder]
    rfl
  refine ⟨before, t, c', after, holder.place L, hrun, ?_, hbefore, ?_, hticket, ?_, htime, ?_⟩
  · rw [afterRun_eq, step_lay (kept_runTable present before)]
    exact hanswer
  · show holder.key.authUid = asker.key.authUid
    rw [hlockHolder.authUid, hlockAsker.authUid, hpw]
  · cases hsid with
    | inl hglobal => exact Or.inl (hlockHolder.type.mp hglobal)
    | inr hsame => exact Or.inr (hlockHolder.sid.symm.trans hsame)
  · intro t' ctx hmem hsame
    have hmiss := hafter t' ctx hmem
    obtain ⟨between, rest, hbetween⟩ := List.append_of_mem hmem
    have hsplit : run = (before ++ (t, TsCall.update c') :: between) ++
        (t', TsCall.remove ctx) :: rest := by
      rw [hrun, hbetween, List.append_assoc]
      rfl
    have hsame' : ticketOf settings ctx = ticketOf settings holder.ctx := hsame.trans hticket.symm
    have hreaches : settings.timestampType ≠ .kernel ∨ ctx.ttydev = none := by
      obtain hkernel | htty | hnone := hreach _ t' ctx rest hsplit
      · exact Or.inl hkernel
      · exact Or.inr htty
      · exact absurd hsame'.symm (hnone before t c' between (holder.place L) rfl hbefore)
    rw [hfound, removeKey_matches pwHolder hsame' hreaches] at hmiss
    cases hmiss

def entryCells : EntryLayout TimestampEntry where
  zero := TimestampEntry.zero
  sizeofEntry := 56
  sizeofEntryV1 := 40
  bytes entry := List.replicate 56 entry
  ofBytes bytes := bytes.headD TimestampEntry.zero
  length_bytes _ := List.length_replicate
  ofBytes_bytes _ := rfl
  sizeofEntryV1_pos := by decide
  sizeofEntryV1_lt := by decide

def fiveMinutes (timestampType : TicketType) : TsSettings where
  timestampType := timestampType
  timestampTimeout := { tvSec := 300, tvNsec := 0 }

def onTerminal : TsContext where
  ttydev := some 5
  ppid := 70
  sid := 60
  sidStart := { tvSec := 10, tvNsec := 0 }
  ppidStart := { tvSec := 20, tvNsec := 0 }

def atSecond (tvSec : Int) : Timespec := { tvSec := tvSec, tvNsec := 0 }

def revokedRun : List (Timespec × TsCall) :=
  [(atSecond 100, .open 0 onTerminal), (atSecond 100, .lock 0 1000), (atSecond 101, .update 0),
    (atSecond 110, .remove onTerminal)]

theorem soundAfter_of_removalsReach_tty :
    SoundAfter entryCells (fiveMinutes .tty) false revokedRun := by
  refine soundAfter_of_removalsReach false revokedRun ?_
  intro before t ctx after _
  exact Or.inl (by decide)

/-- The ticket of type kernel outlives `sudo -k`. -/
theorem not_soundAfter_kernel : ¬ SoundAfter entryCells (fiveMinutes .kernel) false revokedRun := by
  intro hsound
  have hstate := @afterRun_eq _ entryCells (fiveMinutes .kernel) false revokedRun
  have hcookie : (runTable entryCells (fiveMinutes .kernel) false revokedRun).cookies 0 =
      some { ctx := onTerminal, locked := true, pos := some 1
             key := (lockKey entryCells (fiveMinutes .kernel) onTerminal 1000).enable (atSecond 101) } := by
    decide
  have hcurrent : (tableStep entryCells (fiveMinutes .kernel)
      (runTable entryCells (fiveMinutes .kernel) false revokedRun) (atSecond 120) (.status 0)).2 =
        .status .current := by
    decide
  obtain ⟨before, t, c, after, holder, hrun, _, _, _, _, _, _, hafter⟩ :=
    hsound (atSecond 120) 0 _ (by rw [hstate]; exact congrArg (Option.map _) hcookie)
      (by rw [hstate, step_lay (kept_runTable false revokedRun)]; exact hcurrent)
  have hlast : (before ++ (t, TsCall.update c) :: after).getLast? =
      some (atSecond 110, .remove onTerminal) := by
    rw [← hrun]
    rfl
  rw [List.getLast?_append_cons] at hlast
  cases List.mem_cons.mp (List.mem_of_getLast? hlast) with
  | inl hupdate => cases hupdate
  | inr hremove => exact hafter _ _ hremove rfl

end NextBSD.Sudoers
