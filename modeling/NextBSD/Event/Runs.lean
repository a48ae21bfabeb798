import NextBSD.Event.Slots
import Mathlib.Data.List.TakeWhile

/-!
# Runs of the event loop

Every operation keeps the queues and the slots, whatever callbacks do, and a callback runs only for
an event that the last scan has reported, that has not been deleted since and whose callback has not
run since.
-/

namespace NextBSD.Event

structure Good (rlim : Nat) (spec : EventId → EventSpec) (base : EventBase) : Prop where
  queues : Queues base.view
  table : Table rlim spec base

variable {rlim : Nat} {spec : EventId → EventSpec} {base : EventBase} {e : EventId}

theorem Good.mem_events_iff (h : Good rlim spec base) (e : EventId) :
    e ∈ base.events ↔ (base.ev e).inserted = true := h.queues.events.mem_iff e

theorem Good.inserted_of_active (h : Good rlim spec base) (he : e ∈ base.active) :
    (base.ev e).inserted = true :=
  h.queues.active_inserted e ((h.queues.active.mem_iff e).mp he)

theorem Good.setFlags (h : Good rlim spec base) (f : BaseFlags → BaseFlags) :
    Good rlim spec (base.setFlags f) :=
  ⟨h.queues, h.table.congr ⟨rfl, rfl, rfl, fun _ => Iff.rfl, fun _ => rfl⟩⟩

/-! ## Adding and deleting -/

theorem Good.dropTimeout (h : Good rlim spec base) (e : EventId) :
    Good rlim spec (dropTimeout base e) := by
  constructor
  · rw [view_dropTimeout]
    exact h.queues.eraseTimeout e
  · exact h.table.congr (sameSlots_update rfl (fun _ => rfl) rfl rfl rfl rfl)

theorem Good.setTimeout (h : Good rlim spec base) (he : (base.ev e).inserted = true) (timeout : Int) :
    Good rlim spec (setTimeout base e timeout) :=
  ⟨queues_setTimeout h.queues he timeout,
    h.table.congr (sameSlots_update rfl (fun _ => rfl) rfl rfl rfl rfl)⟩

theorem insertEvent_spec (h : Good rlim spec base) (hnone : (base.ev e).inserted = false)
    (hroom : (spec e).isIo = true → (spec e).fd ≠ -1 ∧ RoomFor rlim base.inUse) (tohead : Bool) :
    (insertEvent rlim (spec e) base e tohead = some (base, -1) ∧ base.inUse = rlim) ∨
    ∃ base', insertEvent rlim (spec e) base e tohead = some (base', 0) ∧ Good rlim spec base' ∧
      base'.active = base.active ∧ (base'.ev e).inserted = true := by
  have hself (base' : EventBase) : ((linkEvent base' e tohead).ev e).inserted = true := by
    show (Function.update base'.ev e { base'.ev e with inserted := true } e).inserted = true
    rw [Function.update_self]
  unfold insertEvent
  cases hio : (spec e).isIo with
  | false =>
    refine Or.inr ⟨linkEvent base e tohead, rfl, ⟨queues_linkEvent h.queues hnone tohead, ?_⟩, rfl,
      hself base⟩
    refine h.table.congr (sameSlots_update rfl (fun hio' => ?_) rfl rfl rfl rfl)
    exact absurd (hio.symm.trans hio') Bool.false_ne_true
  | true =>
    obtain ⟨hfd, hroom⟩ := hroom hio
    rcases sudoEvAddImpl_spec h.table hnone hio hfd hroom with ⟨hadd, hlimit⟩ | ⟨base', hadd, hview,
      htable⟩
    · rw [if_pos rfl, hadd]
      exact Or.inl ⟨rfl, hlimit⟩
    · rw [if_pos rfl, hadd]
      refine Or.inr ⟨linkEvent base' e tohead, rfl, ⟨?_, htable tohead⟩, ?_, hself base'⟩
      · have hnone' : (base'.ev e).inserted = false := by
          rw [← hnone]
          exact congrFun (congrArg QueueView.inserted hview) e
        exact queues_linkEvent (hview ▸ h.queues) hnone' tohead
      · exact congrArg QueueView.active hview

/-- What the caller of `sudo_ev_add` has to see to. -/
def Meets (rlim : Nat) (spec : EventId → EventSpec) (m : Machine) : Label → Prop
  | .add e _ _ => (m.base.ev e).inserted = false → (spec e).isIo = true →
      (spec e).fd ≠ -1 ∧ RoomFor rlim m.base.inUse
  | _ => True

theorem Good.addTimeout (h : Good rlim spec base) (he : (base.ev e).inserted = true) (now : Int)
    (timo : Option Int) : Good rlim spec (addTimeout now base e timo) := by
  cases timo with
  | none => exact h
  | some timo => exact h.setTimeout he (now + timo)

theorem active_addTimeout (now : Int) (base : EventBase) (e : EventId) (timo : Option Int) :
    (addTimeout now base e timo).active = base.active := by
  cases timo <;> rfl

theorem sudoEvAdd_spec (h : Good rlim spec base) (e : EventId)
    (hroom : (base.ev e).inserted = false → (spec e).isIo = true →
      (spec e).fd ≠ -1 ∧ RoomFor rlim base.inUse)
    (now : Int) (timo : Option Int) (tohead : Bool) :
    ∃ base' ret, sudoEvAdd rlim (spec e) now base e timo tohead = some (base', ret) ∧
      Good rlim spec base' ∧ base'.active = base.active ∧ (ret = -1 → base.inUse = rlim) := by
  unfold sudoEvAdd
  cases hin : (base.ev e).inserted with
  | true =>
    rw [if_pos rfl]
    dsimp only
    split
    · have hdropped : ((dropTimeout base e).ev e).inserted = true := by
        show (Function.update base.ev e { base.ev e with timeouts := false } e).inserted = true
        rw [Function.update_self]
        exact hin
      refine ⟨_, 0, rfl, (h.dropTimeout e).addTimeout hdropped now timo, ?_,
        fun h0 => absurd h0 (by decide)⟩
      exact active_addTimeout now (dropTimeout base e) e timo
    · exact ⟨_, 0, rfl, h.addTimeout hin now timo, active_addTimeout now base e timo,
        fun h0 => absurd h0 (by decide)⟩
  | false =>
    rw [if_neg Bool.false_ne_true]
    rcases insertEvent_spec h hin (hroom hin) tohead with ⟨hins, hlimit⟩ | ⟨base', hins, hgood,
      hactive, he⟩
    · rw [hins]
      exact ⟨base, -1, rfl, h, rfl, fun _ => hlimit⟩
    · rw [hins]
      refine ⟨_, 0, rfl, hgood.addTimeout he now timo, ?_, fun h0 => absurd h0 (by decide)⟩
      exact (active_addTimeout now base' e timo).trans hactive

theorem sudoEvDel_spec (h : Good rlim spec base) (e : EventId) :
    ∃ base', sudoEvDel (spec e) base e = some base' ∧ Good rlim spec base' ∧
      ∀ x ∈ base'.active, x ≠ e ∧ x ∈ base.active := by
  unfold sudoEvDel
  cases hin : (base.ev e).inserted with
  | false =>
    rw [if_neg Bool.false_ne_true]
    refine ⟨base, rfl, h, fun x hx => ⟨fun hxe => ?_, hx⟩⟩
    exact Bool.false_ne_true (hin.symm.trans (h.inserted_of_active (hxe ▸ hx)))
  | true =>
    rw [if_pos rfl]
    have hactive (base' : EventBase) (hview : base'.view = base.view) :
        ∀ x ∈ (unlinkEvent base' e).active, x ≠ e ∧ x ∈ base.active := by
      intro x hx
      have hq : Queues base'.view := hview ▸ h.queues
      have herase : (unlinkEvent base' e).active = base'.active.erase e :=
        erase_if_marked hq.active e
      rw [herase, show base'.active = base.active from congrArg QueueView.active hview] at hx
      exact h.queues.active.nodup.mem_erase_iff.mp hx
    cases hio : (spec e).isIo with
    | false =>
      rw [if_neg Bool.false_ne_true]
      refine ⟨_, rfl, ⟨queues_unlinkEvent h.queues e, ?_⟩, hactive base rfl⟩
      have hnot : ¬ base.Owner spec e := fun ho => Bool.false_ne_true (hio.symm.trans ho.2)
      refine h.table.congr (sameSlots_update (ev_unlinkEvent base e) ?_ ?_ rfl rfl rfl)
      · exact fun hio' => absurd (hio.symm.trans hio') Bool.false_ne_true
      · exact (h.table.unowned e hnot).symm
    | true =>
      obtain ⟨base', hdel, hview, htable⟩ := sudoEvDelImpl_spec h.table ⟨hin, hio⟩
      rw [if_pos rfl, hdel]
      exact ⟨_, rfl, ⟨queues_unlinkEvent (hview ▸ h.queues) e, htable⟩, hactive base' hview⟩

theorem Good.activate (h : Good rlim spec base) (he : (base.ev e).inserted = true)
    (hnone : e ∉ base.active) : Good rlim spec (sudoEvActivate base e) := by
  constructor
  · rw [view_activate]
    refine h.queues.insertActive he ?_
    exact Bool.not_eq_true _ ▸ fun hactive => hnone ((h.queues.active.mem_iff e).mpr hactive)
  · exact h.table.congr (sameSlots_update rfl (fun _ => rfl) rfl rfl rfl rfl)

theorem Good.deactivate (h : Good rlim spec base) (e : EventId) :
    Good rlim spec (sudoEvDeactivate base e) := by
  constructor
  · rw [view_deactivate]
    exact h.queues.eraseActive e
  · exact h.table.congr (sameSlots_update rfl (fun _ => rfl) rfl rfl rfl rfl)

theorem deactivateAll_spec (h : Good rlim spec base) :
    Good rlim spec (sudoEvDeactivateAll base) ∧ (sudoEvDeactivateAll base).active = [] := by
  unfold sudoEvDeactivateAll
  generalize hl : base.active = l
  induction l generalizing base with
  | nil => exact ⟨h, hl⟩
  | cons e l ih =>
    rw [List.foldl_cons]
    refine ih (h.deactivate e) ?_
    show base.active.erase e = l
    rw [hl, List.erase_cons_head]

theorem popActive_spec (h : Good rlim spec base) (e : EventId) :
    ∃ base', popActive (spec e) base e = some base' ∧ Good rlim spec base' ∧
      ∀ x ∈ base'.active, x ≠ e ∧ x ∈ base.active := by
  have hpop : ∀ x ∈ (sudoEvDeactivate base e).active, x ≠ e ∧ x ∈ base.active := fun x hx =>
    h.queues.active.nodup.mem_erase_iff.mp hx
  unfold popActive
  split
  · exact ⟨_, rfl, h.deactivate e, hpop⟩
  · obtain ⟨base', hdel, hgood, hactive⟩ := sudoEvDel_spec (h.deactivate e) e
    exact ⟨base', hdel, hgood, fun x hx => hpop x (hactive x hx).2⟩

/-! ## The scan -/

theorem Good.setRevents (h : Good rlim spec base) (e : EventId) (what : What) :
    Good rlim spec (setRevents base e what) := by
  constructor
  · rw [view_update base (Event.setRevents base e what) rfl]
    convert h.queues using 1
    exact QueueView.ext rfl rfl rfl (Function.update_eq_self e _) (Function.update_eq_self e _)
      (Function.update_eq_self e _) (Function.update_eq_self e _)
  · exact h.table.congr (sameSlots_update rfl (fun _ => rfl) rfl rfl rfl rfl)

theorem Good.expireEvent (h : Good rlim spec base) (he : e ∈ base.events) (hnone : e ∉ base.active) :
    Good rlim spec (expireEvent base e) := by
  have hdropped := (h.dropTimeout e).setRevents e ⟨true, false, false⟩
  exact hdropped.activate ((hdropped.mem_events_iff e).mp he) hnone

theorem foldl_expireEvent (h : Good rlim spec base) {l : List EventId} (hnodup : l.Nodup)
    (hl : ∀ e ∈ l, e ∈ base.events ∧ e ∉ base.active) :
    Good rlim spec (l.foldl expireEvent base) ∧
      (l.foldl expireEvent base).active = base.active ++ l := by
  induction l generalizing base with
  | nil => exact ⟨h, (List.append_nil base.active).symm⟩
  | cons e l ih =>
    obtain ⟨he, hnodup⟩ := List.nodup_cons.mp hnodup
    obtain ⟨hevent, hnone⟩ := hl e List.mem_cons_self
    rw [List.foldl_cons, List.append_cons]
    refine ih (h.expireEvent hevent hnone) hnodup (fun x hx => ?_)
    obtain ⟨hxevent, hxnone⟩ := hl x (List.mem_cons_of_mem e hx)
    refine ⟨hxevent, fun hactive => ?_⟩
    rcases List.mem_append.mp hactive with hactive | hactive
    · exact hxnone hactive
    · exact he (List.mem_singleton.mp hactive ▸ hx)

theorem expireTimeouts_spec (h : Good rlim spec base) (hnone : base.active = []) (now : Int) :
    Good rlim spec (expireTimeouts now base) ∧
      ∀ e ∈ (expireTimeouts now base).active, Expired base now e := by
  have hsub : (base.timeouts.takeWhile (fun e => (base.ev e).timeout ≤ now)).Sublist base.timeouts :=
    List.takeWhile_sublist _
  have hdue := foldl_expireEvent h (hsub.nodup h.queues.timeouts.nodup) (fun e he => by
    refine ⟨(h.mem_events_iff e).mpr ?_, hnone ▸ List.not_mem_nil⟩
    exact h.queues.timeouts_inserted e ((h.queues.timeouts.mem_iff e).mp (hsub.subset he)))
  refine ⟨hdue.1, fun e he => ?_⟩
  unfold expireTimeouts at he
  rw [hdue.2, hnone, List.nil_append] at he
  refine ⟨(h.queues.timeouts.mem_iff e).mp (hsub.subset he), ?_⟩
  simpa using List.mem_takeWhile_imp he

theorem pfdIdx_setRevents (base : EventBase) (e : EventId) (what : What) (x : EventId) :
    ((setRevents base e what).ev x).pfdIdx = (base.ev x).pfdIdx :=
  (congrFun (field_update EventState.pfdIdx base.ev e _) x).trans
    (congrFun (Function.update_eq_self e (fun x => (base.ev x).pfdIdx)) x)

theorem pfdIdx_activate (base : EventBase) (e x : EventId) :
    ((sudoEvActivate base e).ev x).pfdIdx = (base.ev x).pfdIdx :=
  (congrFun (field_update EventState.pfdIdx base.ev e _) x).trans
    (congrFun (Function.update_eq_self e (fun x => (base.ev x).pfdIdx)) x)

def Reported (base : EventBase) (e : EventId) : Prop :=
  ∃ pfd, slotAt base.pfds (base.ev e).pfdIdx = some pfd ∧ pfd.revents.any = true

theorem activateReady_spec (h : Good rlim spec base) (he : e ∈ base.events)
    (hnone : e ∉ base.active) :
    ∃ base', activateReady spec base e = some base' ∧ Good rlim spec base' ∧
      base'.events = base.events ∧ (∀ x, Reported base' x ↔ Reported base x) ∧
      (base'.active = base.active ∨ (base'.active = base.active ++ [e] ∧ Reported base e)) := by
  unfold activateReady
  split
  · exact ⟨base, rfl, h, rfl, fun _ => Iff.rfl, Or.inl rfl⟩
  · next hidx =>
    have howner : base.Owner spec e := by
      by_contra hnot
      exact hidx (h.table.unowned e hnot)
    obtain ⟨pfd, hpfd⟩ : ∃ pfd, slotAt base.pfds (base.ev e).pfdIdx = some pfd := by
      have hnonneg := h.table.nonneg e howner
      have hslot := h.table.owned.holds e howner
      rw [EventBase.fds, List.getElem?_map, Option.map_eq_some_iff] at hslot
      refine ⟨hslot.choose, ?_⟩
      unfold slotAt
      rw [if_neg (by omega)]
      exact hslot.choose_spec.1
    rw [hpfd]
    dsimp only
    split
    · next hany =>
      have hset := h.setRevents e
        { timeout := false
          read := pfd.revents.readable && (spec e).read
          write := pfd.revents.writable && (spec e).write }
      refine ⟨_, rfl, hset.activate ((hset.mem_events_iff e).mp he) hnone, rfl, fun x => ?_,
        Or.inr ⟨rfl, pfd, hpfd, hany⟩⟩
      unfold Reported
      rw [pfdIdx_activate, pfdIdx_setRevents]
      rfl
    · exact ⟨base, rfl, h, rfl, fun _ => Iff.rfl, Or.inl rfl⟩

theorem foldlM_activateReady (h : Good rlim spec base) {l : List EventId} (hnodup : l.Nodup)
    (hl : ∀ e ∈ l, e ∈ base.events ∧ e ∉ base.active) :
    ∃ base', l.foldlM (activateReady spec) base = some base' ∧ Good rlim spec base' ∧
      ∀ x ∈ base'.active, x ∈ base.active ∨ Reported base x := by
  induction l generalizing base with
  | nil => exact ⟨base, rfl, h, fun x hx => Or.inl hx⟩
  | cons e l ih =>
    obtain ⟨he, hnodup⟩ := List.nodup_cons.mp hnodup
    obtain ⟨hevent, hnone⟩ := hl e List.mem_cons_self
    obtain ⟨base1, hstep, hgood, hevents, hreported, hactive⟩ := activateReady_spec h hevent hnone
    have hmem (x : EventId) (hx : x ∈ base1.active) : x ∈ base.active ∨ (x = e ∧ Reported base x) := by
      rcases hactive with hsame | ⟨hsame, hrep⟩
      · exact Or.inl (hsame ▸ hx)
      · rw [hsame] at hx
        rcases List.mem_append.mp hx with hx | hx
        · exact Or.inl hx
        · rw [List.mem_singleton.mp hx]
          exact Or.inr ⟨rfl, hrep⟩
    obtain ⟨base2, hrest, hgood2, hactive2⟩ := ih hgood hnodup (fun x hx => by
      obtain ⟨hxevent, hxnone⟩ := hl x (List.mem_cons_of_mem e hx)
      refine ⟨hevents ▸ hxevent, fun hxactive => ?_⟩
      rcases hmem x hxactive with hxactive | ⟨rfl, -⟩
      · exact hxnone hxactive
      · exact he hx)
    refine ⟨base2, ?_, hgood2, fun x hx => ?_⟩
    · rw [List.foldlM_cons, hstep]
      exact hrest
    · rcases hactive2 x hx with hx | hx
      · rcases hmem x hx with hx | ⟨-, hrep⟩
        · exact Or.inl hx
        · exact Or.inr hrep
      · exact Or.inr ((hreported x).mp hx)

def polled (base : EventBase) (revents : Nat → Revents) : EventBase :=
  { base with pfds := pollPfds base.pfdHigh revents base.pfds }

theorem fds_polled (base : EventBase) (revents : Nat → Revents) :
    (polled base revents).fds = base.fds := by
  apply List.ext_getElem?
  intro i
  show ((base.pfds.mapIdx _).map Pollfd.fd)[i]? = (base.pfds.map Pollfd.fd)[i]?
  rw [List.getElem?_map, List.getElem?_map, List.getElem?_mapIdx, Option.map_map]
  congr 1
  funext pfd
  show (if (i : Int) ≤ base.pfdHigh then { pfd with revents := revents i } else pfd).fd = pfd.fd
  split <;> rfl

theorem Good.polled (h : Good rlim spec base) (revents : Nat → Revents) :
    Good rlim spec (polled base revents) :=
  ⟨h.queues, h.table.congr ⟨fds_polled base revents, rfl, rfl, fun _ => Iff.rfl, fun _ => rfl⟩⟩

theorem fired_of_reported (h : Good rlim spec base) {revents : Nat → Revents}
    (hrep : Reported (polled base revents) e) : Fired spec base revents e := by
  obtain ⟨pfd, hslot, hany⟩ := hrep
  unfold slotAt at hslot
  split at hslot
  · exact absurd hslot (Option.some_ne_none _).symm
  · next hidx =>
    have howner : base.Owner spec e := by
      by_contra hnot
      have hfree := h.table.unowned e hnot
      exact hidx (show (base.ev e).pfdIdx < 0 by omega)
    have hhigh : ((base.ev e).pfdIdx.toNat : Int) ≤ base.pfdHigh := by
      obtain ⟨n, hn, hbelow⟩ := h.table.high
      by_contra hlt
      have hfree := hbelow.above _ _ (by omega) (h.table.owned.holds e howner)
      rw [freeFd_of_ne (h.table.fd e howner)] at hfree
      exact Bool.false_ne_true hfree
    change (base.pfds.mapIdx _)[(base.ev e).pfdIdx.toNat]? = some pfd at hslot
    rw [List.getElem?_mapIdx, Option.map_eq_some_iff] at hslot
    obtain ⟨old, -, hpfd⟩ := hslot
    rw [if_pos hhigh] at hpfd
    rw [← hpfd] at hany
    exact ⟨howner.1, howner.2, hany⟩

theorem scanReady_spec (h : Good rlim spec base) (hnone : base.active = [])
    (revents : Nat → Revents) :
    ∃ base', scanReady spec revents base = some base' ∧ Good rlim spec base' ∧
      ∀ e ∈ base'.active, Fired spec base revents e := by
  obtain ⟨base', hscan, hgood, hactive⟩ := foldlM_activateReady (h.polled revents)
    h.queues.events.nodup (fun e he => ⟨he, by
      show e ∉ base.active
      rw [hnone]
      exact List.not_mem_nil⟩)
  refine ⟨base', hscan, hgood, fun e he => ?_⟩
  rcases hactive e he with hold | hrep
  · exact absurd (show e ∈ base.active from hold) (hnone ▸ List.not_mem_nil)
  · exact fired_of_reported h hrep

/-! ## Runs -/

/-- The event is one that the last scan has reported, and since then it has neither been deleted nor
has its callback run.  The labels are those before, the last one first. -/
def Owed : List Label → EventId → Prop
  | [], _ => False
  | .scan reported :: _, e => reported e
  | .del d :: tr, e => e ≠ d ∧ Owed tr e
  | .callback c :: tr, e => e ≠ c ∧ Owed tr e
  | .add _ _ _ :: tr, e => Owed tr e
  | .other :: tr, e => Owed tr e

structure StaysConsistent (rlim : Nat) (spec : EventId → EventSpec) (tr : List Label) (m : Machine) :
    Prop where
  running : m.pc ≠ .crashed
  queues : Queues m.base.view
  slots : Slots spec m.base
  callbacks : ∀ newer e older, tr = newer ++ .callback e :: older → Owed older e
  adds : ∀ e used, Label.add e (-1) used ∈ tr → used = rlim

structure Inv (rlim : Nat) (spec : EventId → EventSpec) (tr : List Label) (m : Machine) : Prop where
  running : m.pc ≠ .crashed
  good : Good rlim spec m.base
  owed : ∀ e ∈ m.base.active, Owed tr e
  empty : m.pc = .idle ∨ m.pc = .rescan → m.base.active = []
  callbacks : ∀ newer e older, tr = newer ++ .callback e :: older → Owed older e
  adds : ∀ e used, Label.add e (-1) used ∈ tr → used = rlim

variable {tr : List Label} {m m' : Machine} {l : Label}

theorem inv_start (rlim : Nat) (spec : EventId → EventSpec) : Inv rlim spec [] .start where
  running := Pc.noConfusion
  good := ⟨queues_alloc, table_alloc rlim spec⟩
  owed _ h := absurd h List.not_mem_nil
  empty _ := rfl
  callbacks newer _ _ h := absurd h.symm (List.append_ne_nil_of_right_ne_nil newer (List.cons_ne_nil _ _))
  adds _ _ h := absurd h List.not_mem_nil

theorem Inv.quiet (h : Inv rlim spec tr m) (hcallback : ∀ e, l ≠ .callback e)
    (hadd : ∀ e used, l = .add e (-1) used → used = rlim) (hrunning : m'.pc ≠ .crashed)
    (hgood : Good rlim spec m'.base) (howed : ∀ e ∈ m'.base.active, Owed (l :: tr) e)
    (hempty : m'.pc = .idle ∨ m'.pc = .rescan → m'.base.active = []) : Inv rlim spec (l :: tr) m' where
  running := hrunning
  good := hgood
  owed := howed
  empty := hempty
  callbacks newer e older heq := by
    cases newer with
    | nil => exact absurd (List.cons.inj heq).1 (hcallback e)
    | cons _ newer => exact h.callbacks newer e older (List.cons.inj heq).2
  adds e used hmem := by
    rcases List.mem_cons.mp hmem with heq | hmem
    · exact hadd e used heq.symm
    · exact h.adds e used hmem

theorem Inv.other (h : Inv rlim spec tr m) (hrunning : m'.pc ≠ .crashed)
    (hgood : Good rlim spec m'.base) (hactive : ∀ e ∈ m'.base.active, e ∈ m.base.active)
    (hempty : m'.pc = .idle ∨ m'.pc = .rescan → m'.base.active = []) :
    Inv rlim spec (.other :: tr) m' :=
  h.quiet (fun _ => Label.noConfusion) (fun _ _ => Label.noConfusion) hrunning hgood
    (fun e he => h.owed e (hactive e he)) hempty

theorem Inv.scan (h : Inv rlim spec tr m) {reported : EventId → Prop} (hrunning : m'.pc ≠ .crashed)
    (hgood : Good rlim spec m'.base) (hactive : ∀ e ∈ m'.base.active, reported e)
    (hempty : m'.pc = .idle ∨ m'.pc = .rescan → m'.base.active = []) :
    Inv rlim spec (.scan reported :: tr) m' :=
  h.quiet (fun _ => Label.noConfusion) (fun _ _ => Label.noConfusion) hrunning hgood hactive hempty

theorem Inv.done (h : Inv rlim spec tr m) {base : EventBase} (hgood : Good rlim spec base)
    (hnone : base.active = []) : Inv rlim spec (.other :: tr) (m.done base) :=
  h.other Pc.noConfusion (hgood.setFlags gotFlags) (fun e he => by
    have he' : e ∈ base.active := he
    rw [hnone] at he'
    exact absurd he' List.not_mem_nil) (fun _ => hnone)

theorem clearActive_eq (h : base.active = []) : base.clearActive = base := by
  unfold EventBase.clearActive
  rw [← h]

theorem inv_afterCallback (h : Inv rlim spec tr m) : Inv rlim spec (.other :: tr) (afterCallback m) := by
  unfold afterCallback
  split
  · obtain ⟨hgood, hnone⟩ := deactivateAll_spec
      (h.good.setFlags (fun f => { f with gotBreak := true }))
    exact h.done hgood hnone
  · split
    · obtain ⟨hgood, hnone⟩ := deactivateAll_spec
        (h.good.setFlags (fun f => { f with loopCont := false }))
      refine h.other Pc.noConfusion hgood (fun e he => ?_) (fun _ => hnone)
      have he' : e ∈ (sudoEvDeactivateAll (m.base.setFlags
        (fun f => { f with loopCont := false }))).active := he
      rw [hnone] at he'
      exact absurd he' List.not_mem_nil
    · refine h.other Pc.noConfusion h.good (fun e he => he) (fun hpc => ?_)
      rcases hpc with hpc | hpc <;> exact Pc.noConfusion hpc

theorem inv_afterDispatch (h : Inv rlim spec tr m) (hnone : m.base.active = []) :
    Inv rlim spec (.other :: tr) (afterDispatch m) := by
  unfold afterDispatch
  split
  · obtain ⟨hgood, hnone⟩ := deactivateAll_spec
      (h.good.setFlags (fun f => { f with gotExit := f.gotExit || f.loopExit }))
    exact h.done hgood hnone
  · exact h.other Pc.noConfusion h.good (fun e he => he) (fun _ => hnone)

theorem inv_pollTimeout (h : Inv rlim spec tr m) (hnone : m.base.active = []) :
    Inv rlim spec (.scan (Expired m.base m.now) :: tr)
      (let base := expireTimeouts m.now m.base.clearActive
       if m.nonblock && base.active.isEmpty then m.done base
       else { m with base := base, pc := .dispatch }) := by
  rw [clearActive_eq hnone]
  obtain ⟨hgood, hactive⟩ := expireTimeouts_spec h.good hnone m.now
  dsimp only
  split
  · next hempty =>
    rw [Bool.and_eq_true, List.isEmpty_iff] at hempty
    exact h.scan Pc.noConfusion (hgood.setFlags gotFlags) hactive (fun _ => hempty.2)
  · refine h.scan Pc.noConfusion hgood hactive (fun hpc => ?_)
    rcases hpc with hpc | hpc <;> exact Pc.noConfusion hpc

theorem inv_dispatch (h : Inv rlim spec tr m) (he : m.base.active.head? = some e) :
    Inv rlim spec (.callback e :: tr)
      (m.result (.callback e) (popActive (spec e) m.base e)) := by
  obtain ⟨base, hpop, hgood, hactive⟩ := popActive_spec h.good e
  rw [hpop]
  refine ⟨Pc.noConfusion, hgood, fun x hx => ?_, fun hpc => ?_, ?_, ?_⟩
  · obtain ⟨hne, hx⟩ := hactive x hx
    exact ⟨hne, h.owed x hx⟩
  · rcases hpc with hpc | hpc <;> exact Pc.noConfusion hpc
  · intro newer x older heq
    cases newer with
    | nil =>
      obtain ⟨hlabel, rfl⟩ := List.cons.inj heq
      rw [← Label.callback.inj hlabel]
      exact h.owed e (List.mem_of_mem_head? he)
    | cons _ newer => exact h.callbacks newer x older (List.cons.inj heq).2
  · intro x used hmem
    rcases List.mem_cons.mp hmem with heq | hmem
    · exact Label.noConfusion heq
    · exact h.adds x used hmem

theorem inv_step (h : Inv rlim spec tr m) (hmeets : Meets rlim spec m l)
    (hstep : Step rlim spec m l m') : Inv rlim spec (l :: tr) m' := by
  cases hstep with
  | tick now _ => exact h.other h.running h.good (fun e he => he) h.empty
  | add e timo tohead base ret hpc hadd =>
    obtain ⟨base', ret', hadd', hgood, hactive, hlimit⟩ :=
      sudoEvAdd_spec h.good e hmeets m.now timo tohead
    rw [hadd] at hadd'
    obtain ⟨rfl, rfl⟩ := Prod.mk.inj (Option.some.inj hadd')
    refine h.quiet (fun _ => Label.noConfusion) (fun x used heq => ?_) h.running hgood ?_ ?_
    · obtain ⟨rfl, rfl, rfl⟩ := Label.add.inj heq
      exact hlimit rfl
    · intro x hx
      exact h.owed x (hactive ▸ hx)
    · exact fun hpc => hactive.trans (h.empty hpc)
  | addCrash e timo tohead hpc hadd =>
    obtain ⟨base', ret', hadd', -⟩ := sudoEvAdd_spec h.good e hmeets m.now timo tohead
    rw [hadd] at hadd'
    exact absurd hadd' (Option.some_ne_none _).symm
  | del e hpc =>
    obtain ⟨base', hdel, hgood, hactive⟩ := sudoEvDel_spec h.good e
    rw [hdel]
    refine h.quiet (fun _ => Label.noConfusion) (fun _ _ => Label.noConfusion) h.running hgood
      (fun x hx => ⟨(hactive x hx).1, h.owed x (hactive x hx).2⟩) (fun hpc' => ?_)
    have hnone := h.empty hpc'
    refine List.eq_nil_iff_forall_not_mem.mpr (fun x hx => ?_)
    have hx' := (hactive x hx).2
    rw [hnone] at hx'
    exact List.not_mem_nil hx'
  | loopexit _ => exact h.other h.running (h.good.setFlags _) (fun e he => he) h.empty
  | loopbreak _ => exact h.other h.running (h.good.setFlags _) (fun e he => he) h.empty
  | loopcontinue _ => exact h.other h.running (h.good.setFlags _) (fun e he => he) h.empty
  | loop once nonblock hpc =>
    exact h.other Pc.noConfusion (h.good.setFlags _) (fun e he => he)
      (fun _ => h.empty (Or.inl hpc))
  | noEvents hpc _ => exact h.done h.good (h.empty (Or.inr hpc))
  | pollRetry hpc _ =>
    have hnone := h.empty (Or.inr hpc)
    rw [clearActive_eq hnone]
    refine h.scan h.running h.good (fun e he => ?_) h.empty
    exact absurd (show e ∈ m.base.active from he) (hnone ▸ List.not_mem_nil)
  | pollError hpc _ =>
    have hnone := h.empty (Or.inr hpc)
    rw [clearActive_eq hnone]
    refine h.scan Pc.noConfusion (h.good.setFlags gotFlags) (fun e he => ?_) (fun _ => hnone)
    exact absurd (show e ∈ m.base.active from he) (hnone ▸ List.not_mem_nil)
  | pollTimeout hpc _ => exact inv_pollTimeout h (h.empty (Or.inr hpc))
  | pollReady revents hpc _ =>
    have hnone := h.empty (Or.inr hpc)
    obtain ⟨base, hscan, hgood, hactive⟩ := scanReady_spec h.good hnone revents
    rw [clearActive_eq hnone, hscan]
    refine h.scan Pc.noConfusion hgood hactive (fun hpc => ?_)
    rcases hpc with hpc | hpc <;> exact Pc.noConfusion hpc
  | dispatch e hpc he => exact inv_dispatch h he
  | drained hpc hnone => exact inv_afterDispatch h hnone
  | ret e hpc => exact inv_afterCallback h

/-- In every run whose additions find room, the base stays consistent. -/
theorem eventBase_staysConsistent (rlim : Nat) (spec : EventId → EventSpec) (tr : List Label)
    (m : Machine) (h : Run rlim spec (Meets rlim spec) tr m) : StaysConsistent rlim spec tr m := by
  have hinv : Inv rlim spec tr m := by
    induction h with
    | start => exact inv_start rlim spec
    | step _ hmeets hstep ih => exact inv_step ih hmeets hstep
  exact ⟨hinv.running, hinv.good.queues, hinv.good.table.toSlots, hinv.callbacks, hinv.adds⟩

theorem eventBase_staysConsistent_once :
    ∃ tr m, tr ≠ [] ∧ StaysConsistent 64 (fun _ => ⟨5, true, false, true⟩) tr m := by
  have hroom : RoomFor 64 EventBase.alloc.inUse := by
    unfold RoomFor
    exact Or.inl (by decide)
  have hgood : Good 64 (fun _ => ⟨5, true, false, true⟩) EventBase.alloc :=
    ⟨queues_alloc, table_alloc 64 _⟩
  obtain ⟨base, ret, hadd, -⟩ :=
    sudoEvAdd_spec hgood 0 (fun _ _ => ⟨by decide, hroom⟩) 0 (some 7) false
  have hstep : Step 64 (fun _ => ⟨5, true, false, true⟩) .start
      (.add 0 ret EventBase.alloc.inUse) { Machine.start with base := base } :=
    Step.add .start 0 (some 7) false base ret rfl hadd
  have hmeets : Meets 64 (fun _ => ⟨5, true, false, true⟩) .start
      (.add 0 ret EventBase.alloc.inUse) :=
    fun _ _ => ⟨by decide, hroom⟩
  exact ⟨_, _, List.cons_ne_nil _ _,
    eventBase_staysConsistent _ _ _ _ (Run.step Run.start hmeets hstep)⟩

def addEach (rlim : Nat) (spec : EventId → EventSpec) (now : Int) (base : EventBase)
    (l : List EventId) : Option EventBase :=
  l.foldlM (fun base e => (sudoEvAdd rlim (spec e) now base e none false).map Prod.fst) base

theorem run_addEach {rlim : Nat} {spec : EventId → EventSpec} {tr : List Label} {m : Machine}
    (hrun : Run rlim spec (fun _ _ => True) tr m) (hpc : m.pc.usable = true) {l : List EventId}
    {base : EventBase} (h : addEach rlim spec m.now m.base l = some base) :
    ∃ tr', Run rlim spec (fun _ _ => True) tr' { m with base := base } := by
  unfold addEach at h
  induction l generalizing tr m with
  | nil =>
    have hbase : m.base = base := Option.some.inj h
    exact ⟨tr, hbase ▸ hrun⟩
  | cons e l ih =>
    rw [List.foldlM_cons, Option.bind_eq_bind, Option.bind_eq_some_iff] at h
    obtain ⟨next, hnext, hrest⟩ := h
    obtain ⟨⟨base1, ret⟩, hadd, rfl⟩ := Option.map_eq_some_iff.mp hnext
    have hstep := Step.add m e none false base1 ret hpc hadd
    exact ih (m := { m with base := base1 }) (hrun.step trivial hstep) hpc hrest

/-- With fewer descriptors allowed than the array has at first, growing it shrinks it, and the event
is written after its end. -/
theorem not_eventBase_staysConsistent :
    ¬ ∀ (rlim : Nat) (spec : EventId → EventSpec) (tr : List Label) (m : Machine),
      Run rlim spec (fun _ _ => True) tr m → StaysConsistent rlim spec tr m := by
  intro hall
  have hadds : ∃ base, addEach 16 (fun e => ⟨e, true, false, true⟩) 0 .alloc (List.range 32) = some base ∧
      sudoEvAdd 16 ⟨32, true, false, true⟩ 0 base 32 none false = none := by
    have hcheck : ((addEach 16 (fun e => ⟨e, true, false, true⟩) 0 .alloc (List.range 32)).any
        fun base => (sudoEvAdd 16 ⟨32, true, false, true⟩ 0 base 32 none false).isNone) = true := by
      decide +kernel
    obtain ⟨base, hbase, hnone⟩ := (Option.any_eq_true _ _).mp hcheck
    exact ⟨base, hbase, Option.isNone_iff_eq_none.mp hnone⟩
  obtain ⟨base, hbase, hcrash⟩ := hadds
  obtain ⟨tr, hrun⟩ := run_addEach Run.start rfl hbase
  have hlast := hrun.step trivial (Step.addCrash _ 32 none false rfl hcrash)
  exact (hall _ _ _ _ hlast).running rfl

end NextBSD.Event
