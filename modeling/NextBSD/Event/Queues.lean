import NextBSD.Library.MarkedQueue
import NextBSD.Event.Loop

/-!
# The queues of the base

The event list, the active queue and the timeouts queue hold the events whose flags say so, and the
timeouts queue is in order of expiry.
-/

namespace NextBSD.Event

open MarkedQueue

@[ext]
structure QueueView where
  events : List EventId
  active : List EventId
  timeouts : List EventId
  inserted : EventId → Bool
  isActive : EventId → Bool
  hasTimeout : EventId → Bool
  timeout : EventId → Int

def EventBase.view (base : EventBase) : QueueView :=
  { events := base.events
    active := base.active
    timeouts := base.timeouts
    inserted := fun e => (base.ev e).inserted
    isActive := fun e => (base.ev e).active
    hasTimeout := fun e => (base.ev e).timeouts
    timeout := fun e => (base.ev e).timeout }

theorem field_update {β : Type} (f : EventState → β) (ev : EventId → EventState) (e : EventId)
    (st : EventState) :
    (fun x => f (Function.update ev e st x)) = Function.update (fun x => f (ev x)) e (f st) := by
  funext x
  rw [Function.update_apply, Function.update_apply]
  split <;> rfl

theorem view_update (base base' : EventBase) {e : EventId} {st : EventState}
    (h : base'.ev = Function.update base.ev e st) :
    base'.view =
      { events := base'.events
        active := base'.active
        timeouts := base'.timeouts
        inserted := Function.update base.view.inserted e st.inserted
        isActive := Function.update base.view.isActive e st.active
        hasTimeout := Function.update base.view.hasTimeout e st.timeouts
        timeout := Function.update base.view.timeout e st.timeout } := by
  unfold EventBase.view
  rw [h]
  exact QueueView.ext rfl rfl rfl (field_update EventState.inserted base.ev e st)
    (field_update EventState.active base.ev e st) (field_update EventState.timeouts base.ev e st)
    (field_update EventState.timeout base.ev e st)

/-! ## The invariant -/

def InOrder (timeout : EventId → Int) (timeouts : List EventId) : Prop :=
  timeouts.Pairwise (fun e e' => timeout e ≤ timeout e')

structure Queues (v : QueueView) : Prop where
  events : Marked v.events v.inserted
  active : Marked v.active v.isActive
  timeouts : Marked v.timeouts v.hasTimeout
  active_inserted : ∀ e, v.isActive e = true → v.inserted e = true
  timeouts_inserted : ∀ e, v.hasTimeout e = true → v.inserted e = true
  inOrder : InOrder v.timeout v.timeouts

theorem queues_alloc : Queues EventBase.alloc.view :=
  ⟨marked_nil, marked_nil, marked_nil, fun _ h => h, fun _ h => h, List.Pairwise.nil⟩

variable {v : QueueView} {e : EventId}

theorem update_false_eq {mark : EventId → Bool} {x : EventId}
    (h : Function.update mark e false x = true) : x ≠ e ∧ mark x = true := by
  rw [Function.update_apply] at h
  split at h
  · exact absurd h Bool.false_ne_true
  · next hne => exact ⟨hne, h⟩

theorem update_true_eq {mark : EventId → Bool} {x : EventId} :
    Function.update mark e true x = true ↔ x = e ∨ mark x = true := by
  rw [Function.update_apply]
  split
  · next heq => exact ⟨fun _ => Or.inl heq, fun _ => rfl⟩
  · next hne => exact ⟨Or.inr, fun h => h.resolve_left hne⟩

theorem Queues.eraseTimeout (h : Queues v) (e : EventId) :
    Queues { v with
      timeouts := v.timeouts.erase e
      hasTimeout := Function.update v.hasTimeout e false } where
  events := h.events
  active := h.active
  timeouts := h.timeouts.erase e
  active_inserted := h.active_inserted
  timeouts_inserted x hx := h.timeouts_inserted x (update_false_eq hx).2
  inOrder := h.inOrder.sublist List.erase_sublist

theorem Queues.insertTimeout (h : Queues v) (he : v.inserted e = true)
    (hnone : v.hasTimeout e = false) {timeout : EventId → Int} {timeouts : List EventId}
    (hperm : timeouts.Perm (e :: v.timeouts)) (hinOrder : InOrder timeout timeouts) :
    Queues { v with
      timeouts := timeouts
      hasTimeout := Function.update v.hasTimeout e true
      timeout := timeout } where
  events := h.events
  active := h.active
  timeouts := h.timeouts.insert hnone hperm
  active_inserted := h.active_inserted
  timeouts_inserted x hx := by
    rcases update_true_eq.mp hx with rfl | hx
    · exact he
    · exact h.timeouts_inserted x hx
  inOrder := hinOrder

theorem Queues.insertEvent (h : Queues v) (hnone : v.inserted e = false) {events : List EventId}
    (hperm : events.Perm (e :: v.events)) :
    Queues { v with events := events, inserted := Function.update v.inserted e true } where
  events := h.events.insert hnone hperm
  active := h.active
  timeouts := h.timeouts
  active_inserted x hx := update_true_eq.mpr (Or.inr (h.active_inserted x hx))
  timeouts_inserted x hx := update_true_eq.mpr (Or.inr (h.timeouts_inserted x hx))
  inOrder := h.inOrder

theorem Queues.insertActive (h : Queues v) (he : v.inserted e = true) (hnone : v.isActive e = false) :
    Queues { v with
      active := v.active ++ [e]
      isActive := Function.update v.isActive e true } where
  events := h.events
  active := h.active.insert hnone (List.perm_append_singleton e v.active)
  timeouts := h.timeouts
  active_inserted x hx := by
    rcases update_true_eq.mp hx with rfl | hx
    · exact he
    · exact h.active_inserted x hx
  timeouts_inserted := h.timeouts_inserted
  inOrder := h.inOrder

theorem Queues.eraseActive (h : Queues v) (e : EventId) :
    Queues { v with
      active := v.active.erase e
      isActive := Function.update v.isActive e false } where
  events := h.events
  active := h.active.erase e
  timeouts := h.timeouts
  active_inserted x hx := h.active_inserted x (update_false_eq hx).2
  timeouts_inserted := h.timeouts_inserted
  inOrder := h.inOrder

theorem Queues.eraseEvent (h : Queues v) (hactive : v.isActive e = false)
    (htimeout : v.hasTimeout e = false) :
    Queues { v with
      events := v.events.erase e
      inserted := Function.update v.inserted e false } where
  events := h.events.erase e
  active := h.active
  timeouts := h.timeouts
  active_inserted x hx := by
    have hxe : x ≠ e := fun hxe => Bool.false_ne_true (hactive.symm.trans (hxe ▸ hx))
    show Function.update v.inserted e false x = true
    rw [Function.update_of_ne hxe]
    exact h.active_inserted x hx
  timeouts_inserted x hx := by
    have hxe : x ≠ e := fun hxe => Bool.false_ne_true (htimeout.symm.trans (hxe ▸ hx))
    show Function.update v.inserted e false x = true
    rw [Function.update_of_ne hxe]
    exact h.timeouts_inserted x hx
  inOrder := h.inOrder

theorem insertTimeout_perm (ev : EventId → EventState) (e : EventId) (timeouts : List EventId) :
    (insertTimeout ev e timeouts).Perm (e :: timeouts) := by
  induction timeouts with
  | nil => exact List.Perm.refl _
  | cons evtmp timeouts ih =>
    unfold insertTimeout
    split
    · exact List.Perm.refl _
    · exact (ih.cons evtmp).trans (List.Perm.swap e evtmp timeouts)

theorem insertTimeout_inOrder {ev : EventId → EventState} {timeouts : List EventId}
    (h : InOrder (fun e => (ev e).timeout) timeouts) (e : EventId) :
    InOrder (fun e => (ev e).timeout) (insertTimeout ev e timeouts) := by
  induction timeouts with
  | nil => exact List.pairwise_singleton _ e
  | cons evtmp timeouts ih =>
    obtain ⟨hfirst, hrest⟩ := List.pairwise_cons.mp h
    unfold insertTimeout
    split
    · next hlt =>
      refine List.pairwise_cons.mpr ⟨fun x hx => ?_, h⟩
      rcases List.mem_cons.mp hx with rfl | hx
      · exact Int.le_of_lt hlt
      · exact Int.le_trans (Int.le_of_lt hlt) (hfirst x hx)
    · next hge =>
      refine List.pairwise_cons.mpr ⟨fun x hx => ?_, ih hrest⟩
      rcases List.mem_cons.mp ((insertTimeout_perm ev e timeouts).mem_iff.mp hx) with rfl | hx
      · exact Int.not_lt.mp hge
      · exact hfirst x hx

variable {base : EventBase}

theorem view_dropTimeout (base : EventBase) (e : EventId) : (dropTimeout base e).view =
    { base.view with
      timeouts := base.view.timeouts.erase e
      hasTimeout := Function.update base.view.hasTimeout e false } := by
  rw [view_update base (dropTimeout base e) rfl]
  exact QueueView.ext rfl rfl rfl (Function.update_eq_self e _) (Function.update_eq_self e _) rfl
    (Function.update_eq_self e _)

theorem erase_if_marked {queue : List EventId} {mark : EventId → Bool} (h : Marked queue mark)
    (e : EventId) : (if mark e then queue.erase e else queue) = queue.erase e := by
  split
  · rfl
  · next hnone => exact (h.erase_of_not (Bool.not_eq_true _ ▸ hnone)).symm

theorem queues_setTimeout (h : Queues base.view) (he : (base.ev e).inserted = true) (timeout : Int) :
    Queues (setTimeout base e timeout).view := by
  have hgone := h.eraseTimeout e
  have hnone : Function.update base.view.hasTimeout e false e = false := by
    rw [Function.update_self]
  have hinOrder : InOrder (fun x => (Function.update base.ev e
      { base.ev e with timeouts := true, timeout := timeout } x).timeout)
      (base.timeouts.erase e) := by
    refine hgone.inOrder.imp_of_mem (fun {x y} hx hy hle => ?_)
    have hxe := (h.timeouts.nodup.mem_erase_iff.mp hx).1
    have hye := (h.timeouts.nodup.mem_erase_iff.mp hy).1
    show (Function.update base.ev e _ x).timeout ≤ (Function.update base.ev e _ y).timeout
    rw [Function.update_of_ne hxe, Function.update_of_ne hye]
    exact hle
  have hinsert := hgone.insertTimeout (e := e) he hnone (insertTimeout_perm _ e _)
    (insertTimeout_inOrder hinOrder e)
  have hview : (setTimeout base e timeout).view = _ := view_update base (setTimeout base e timeout) rfl
  have htimeouts : (setTimeout base e timeout).timeouts = insertTimeout (Function.update base.ev e
      { base.ev e with timeouts := true, timeout := timeout }) e (base.timeouts.erase e) := by
    show insertTimeout _ e (if (base.ev e).timeouts then _ else _) = _
    rw [show (if (base.ev e).timeouts then base.timeouts.erase e else base.timeouts) =
      base.timeouts.erase e from erase_if_marked h.timeouts e]
  rw [hview, htimeouts]
  convert hinsert using 1
  refine QueueView.ext rfl rfl rfl (Function.update_eq_self e _) (Function.update_eq_self e _) ?_ ?_
  · show Function.update base.view.hasTimeout e true =
      Function.update (Function.update base.view.hasTimeout e false) e true
    rw [Function.update_idem]
  · exact (field_update EventState.timeout base.ev e _).symm

theorem queues_linkEvent (h : Queues base.view) (he : (base.ev e).inserted = false) (tohead : Bool) :
    Queues (linkEvent base e tohead).view := by
  have hperm : (if tohead then e :: base.events else base.events ++ [e]).Perm
      (e :: base.events) := by
    split
    · exact List.Perm.refl _
    · exact List.perm_append_singleton e base.events
  have hinsert := h.insertEvent he hperm
  rw [view_update base (linkEvent base e tohead) rfl]
  convert hinsert using 1
  exact QueueView.ext rfl rfl rfl rfl (Function.update_eq_self e _) (Function.update_eq_self e _)
    (Function.update_eq_self e _)

theorem queues_unlinkEvent (h : Queues base.view) (e : EventId) :
    Queues (unlinkEvent base e).view := by
  have hgone := ((h.eraseTimeout e).eraseActive e).eraseEvent (e := e)
    (Function.update_self e false base.view.isActive)
    (Function.update_self e false base.view.hasTimeout)
  rw [view_update base (unlinkEvent base e) rfl]
  convert hgone using 1
  exact QueueView.ext rfl (erase_if_marked h.active e) (erase_if_marked h.timeouts e) rfl rfl rfl
    (Function.update_eq_self e _)

theorem view_activate (base : EventBase) (e : EventId) : (sudoEvActivate base e).view =
    { base.view with
      active := base.view.active ++ [e]
      isActive := Function.update base.view.isActive e true } := by
  rw [view_update base (sudoEvActivate base e) rfl]
  exact QueueView.ext rfl rfl rfl (Function.update_eq_self e _) rfl (Function.update_eq_self e _)
    (Function.update_eq_self e _)

theorem view_deactivate (base : EventBase) (e : EventId) : (sudoEvDeactivate base e).view =
    { base.view with
      active := base.view.active.erase e
      isActive := Function.update base.view.isActive e false } := by
  rw [view_update base (sudoEvDeactivate base e) rfl]
  exact QueueView.ext rfl rfl rfl (Function.update_eq_self e _) rfl (Function.update_eq_self e _)
    (Function.update_eq_self e _)

end NextBSD.Event
