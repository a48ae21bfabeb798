import NextBSD.Event.Queues

/-!
# The slots of the base

Each inserted I/O event owns an entry of `pfds` that holds its descriptor, the other entries are
unused, and the marks `pfd_free` and `pfd_high` say where.  This needs a limit between 32 and 32768
once 32 slots are in use: a smaller limit makes the array smaller, and an index from 32768 on does
not fit a `short`.
-/

namespace NextBSD.Event

open SlotTable

def freeFd (fd : Int) : Bool := fd == -1

def EventBase.fds (base : EventBase) : List Int := base.pfds.map Pollfd.fd

def EventBase.Owner (spec : EventId → EventSpec) (base : EventBase) (e : EventId) : Prop :=
  (base.ev e).inserted = true ∧ (spec e).isIo = true

structure Slots (spec : EventId → EventSpec) (base : EventBase) : Prop where
  nonneg : ∀ e, base.Owner spec e → 0 ≤ (base.ev e).pfdIdx
  owned : Owned freeFd base.fds (fun e => (spec e).fd) (base.Owner spec)
    (fun e => (base.ev e).pfdIdx.toNat)
  free : LowestFree freeFd base.fds base.pfdFree
  high : ∃ n : Nat, base.pfdHigh = n - 1 ∧ UsedBelow freeFd base.fds n

structure Table (rlim : Nat) (spec : EventId → EventSpec) (base : EventBase) : Prop
    extends Slots spec base where
  unowned : ∀ e, ¬ base.Owner spec e → (base.ev e).pfdIdx = -1
  fd : ∀ e, base.Owner spec e → (spec e).fd ≠ -1
  size : 32 ≤ base.fds.length
  max : base.fds.length = 32 ∨ (base.fds.length : Int) ≤ nofileMax rlim

theorem inUse_eq (base : EventBase) : base.inUse = used freeFd base.fds :=
  (used_map Pollfd.fd freeFd base.pfds).symm

variable {rlim : Nat} {spec : EventId → EventSpec} {base base' : EventBase} {e : EventId}

structure SameSlots (spec : EventId → EventSpec) (base base' : EventBase) : Prop where
  fds : base'.fds = base.fds
  pfdHigh : base'.pfdHigh = base.pfdHigh
  pfdFree : base'.pfdFree = base.pfdFree
  owner : ∀ e, base'.Owner spec e ↔ base.Owner spec e
  pfdIdx : ∀ e, (base'.ev e).pfdIdx = (base.ev e).pfdIdx

theorem sameSlots_update {st : EventState} (hev : base'.ev = Function.update base.ev e st)
    (hinserted : (spec e).isIo = true → st.inserted = (base.ev e).inserted)
    (hidx : st.pfdIdx = (base.ev e).pfdIdx) (hpfds : base'.fds = base.fds)
    (hhigh : base'.pfdHigh = base.pfdHigh) (hfree : base'.pfdFree = base.pfdFree) :
    SameSlots spec base base' := by
  refine ⟨hpfds, hhigh, hfree, fun x => ?_, fun x => ?_⟩
  · unfold EventBase.Owner
    rw [hev, Function.update_apply]
    split
    · next heq =>
      subst heq
      exact ⟨fun h => ⟨(hinserted h.2).symm.trans h.1, h.2⟩,
        fun h => ⟨(hinserted h.2).trans h.1, h.2⟩⟩
    · exact Iff.rfl
  · rw [hev, Function.update_apply]
    split
    · next heq => rw [hidx, heq]
    · rfl

theorem Table.congr (h : Table rlim spec base) (hsame : SameSlots spec base base') :
    Table rlim spec base' where
  nonneg x hx := by
    rw [hsame.pfdIdx]
    exact h.nonneg x ((hsame.owner x).mp hx)
  owned := by
    rw [hsame.fds]
    exact h.owned.congr hsame.owner (fun x _ => congrArg Int.toNat (hsame.pfdIdx x))
  free := by
    rw [hsame.fds, hsame.pfdFree]
    exact h.free
  high := by
    rw [hsame.fds, hsame.pfdHigh]
    exact h.high
  unowned x hx := by
    rw [hsame.pfdIdx]
    exact h.unowned x (fun hx' => hx ((hsame.owner x).mpr hx'))
  fd x hx := h.fd x ((hsame.owner x).mp hx)
  size := by
    rw [hsame.fds]
    exact h.size
  max := by
    rw [hsame.fds]
    exact h.max

theorem table_alloc (rlim : Nat) (spec : EventId → EventSpec) : Table rlim spec .alloc := by
  have hfds : EventBase.alloc.fds = List.replicate 32 (-1) := List.map_replicate ..
  have hfree (i : Nat) (a : Int) (ha : (List.replicate 32 (-1 : Int))[i]? = some a) :
      freeFd a = true := by
    rw [List.eq_of_mem_replicate (List.mem_of_getElem? ha)]
    rfl
  have hlength : EventBase.alloc.fds.length = 32 := by rw [hfds, List.length_replicate]
  have hnone (x : EventId) : ¬ EventBase.alloc.Owner spec x := fun hx => Bool.false_ne_true hx.1
  constructor
  · constructor
    · exact fun x hx => absurd hx (hnone x)
    · rw [hfds]
      exact ⟨fun x hx => absurd hx (hnone x), fun x _ hx => absurd hx (hnone x),
        fun i a ha _ => hfree i a ha⟩
    · rw [hfds]
      exact ⟨Nat.zero_le _, fun i _ hi => absurd hi (Nat.not_lt_zero i), fun a ha => hfree _ a ha⟩
    · rw [hfds]
      exact ⟨0, rfl, fun i a _ ha => hfree i a ha, fun i hi => absurd hi (Nat.succ_ne_zero i).symm⟩
  · exact fun _ _ => rfl
  · exact fun x hx => absurd hx (hnone x)
  · exact Nat.le_of_eq hlength.symm
  · exact Or.inl hlength

/-- A further I/O event meets no defect: fewer than 32 slots are in use, or the limit read as an
`int` is at least 32, is not reached, and the slot has an index that fits a `short`, or all slots of
the limit are in use. -/
def RoomFor (rlim used : Nat) : Prop :=
  used < 32 ∨ (32 ≤ nofileMax rlim ∧ used < nofileMax rlim ∧ used < 32768) ∨
    (32 ≤ used ∧ used = rlim)

theorem nofileMax_le (rlim : Nat) (h : 0 ≤ nofileMax rlim) : nofileMax rlim ≤ rlim := by
  unfold nofileMax at h ⊢
  rw [Int.bmod_eq_emod] at h ⊢
  split at h <;> omega

theorem nofileMax_eq {rlim : Nat} (h : rlim < 2 ^ 31) : nofileMax rlim = rlim := by
  apply Int.bmod_eq_of_le <;> omega

theorem slotIndex_eq {n : Nat} (h : n < 2 ^ 15) : slotIndex n = n := by
  apply Int.bmod_eq_of_le <;> omega

theorem growPfds_spec (h : Table rlim spec base) (hroom : RoomFor rlim base.inUse) :
    (growPfds rlim base.pfdFree base.pfds = none ∧ base.inUse = rlim) ∨
    ∃ more, growPfds rlim base.pfdFree base.pfds = some (base.pfds ++ more) ∧
      (∀ pfd ∈ more, pfd = Pollfd.unused) ∧ (base.pfdFree = base.pfds.length ∨ more = []) ∧
      base.pfdFree < (base.pfds ++ more).length ∧
      base.pfdFree < 2 ^ 15 ∧
      ((base.pfds ++ more).length = 32 ∨ ((base.pfds ++ more).length : Int) ≤ nofileMax rlim) := by
  have hlength : base.fds.length = base.pfds.length := List.length_map ..
  have hsize := h.size
  have hmax := h.max
  have hle := h.free.le
  have hused := h.free.le_used
  rw [hlength] at hsize hmax hle
  rw [inUse_eq] at hroom ⊢
  by_cases hfull : base.pfdFree = base.pfds.length
  · have hall : used freeFd base.fds = base.pfds.length := by
      rw [← hlength] at hfull ⊢
      exact (hfull ▸ h.free).full
    rw [hall] at hroom ⊢
    unfold growPfds
    rw [if_pos hfull]
    dsimp only
    rcases hroom with hroom | ⟨-, hlim, hshort⟩ | ⟨-, heq⟩
    · omega
    · generalize hnew : min (2 * (base.pfds.length : Int)) (nofileMax rlim) = newMax
      have hgrown : base.pfds.length < newMax.toNat := by omega
      have htake : base.pfds.take newMax.toNat = base.pfds :=
        List.take_of_length_le (Nat.le_of_lt hgrown)
      have hsum : (base.pfds ++ List.replicate (newMax.toNat - base.pfds.length)
          Pollfd.unused).length = newMax.toNat := by
        rw [List.length_append, List.length_replicate]
        omega
      rw [if_neg (by omega), if_neg (by omega), htake]
      refine Or.inr ⟨_, rfl, fun pfd hpfd => List.eq_of_mem_replicate hpfd,
        Or.inl hfull, ?_, ?_, ?_⟩
      · omega
      · omega
      · omega
    · have hnofile : nofileMax rlim = rlim := by
        rcases hmax with hmax | hmax
        · exact nofileMax_eq (by omega)
        · have hle' := nofileMax_le rlim
          omega
      rw [if_pos (by omega)]
      exact Or.inl ⟨rfl, heq⟩
  · have hlt := h.free.used_lt (by omega)
    refine Or.inr ⟨[], ?_, fun _ hm => absurd hm List.not_mem_nil, Or.inr rfl, ?_, ?_, ?_⟩
    · unfold growPfds
      rw [if_neg hfull, List.append_nil]
    · rw [List.append_nil]
      omega
    · rcases hroom with hroom | ⟨-, -, hroom⟩ | ⟨hroom, heq⟩
      · omega
      · omega
      · have hnofile := nofileMax_le rlim
        omega
    · rw [List.append_nil]
      exact hmax

/-! ## A slot is taken -/

theorem freeFd_of_ne {fd : Int} (h : fd ≠ -1) : freeFd fd = false := by
  simpa [freeFd] using h

theorem fds_append_unused {more : List Pollfd} (h : ∀ pfd ∈ more, pfd = Pollfd.unused) :
    ∀ fd ∈ more.map Pollfd.fd, freeFd fd = true := by
  intro fd hfd
  obtain ⟨pfd, hpfd, rfl⟩ := List.mem_map.mp hfd
  rw [h pfd hpfd]
  rfl

theorem Owned.grow_table (h : Table rlim spec base) {more : List Pollfd}
    (hmore : ∀ pfd ∈ more, pfd = Pollfd.unused) :
    Owned freeFd ((base.pfds ++ more).map Pollfd.fd) (fun e => (spec e).fd) (base.Owner spec)
      (fun e => (base.ev e).pfdIdx.toNat) := by
  rw [List.map_append]
  exact h.owned.grow (fds_append_unused hmore)

theorem free_grow_table (h : Table rlim spec base) {more : List Pollfd}
    (hmore : ∀ pfd ∈ more, pfd = Pollfd.unused) (hne : base.pfdFree = base.pfds.length ∨ more = []) :
    LowestFree freeFd ((base.pfds ++ more).map Pollfd.fd) base.pfdFree := by
  have hlength : base.fds.length = base.pfds.length := List.length_map ..
  rcases hne with hfull | rfl
  · rw [List.map_append, hfull, ← hlength]
    rw [← hlength] at hfull
    exact (hfull ▸ h.free).grow (fds_append_unused hmore)
  · rw [List.append_nil]
    exact h.free

/-- What `sudo_ev_add_impl` and the insertion behind it leave. -/
structure Taken (spec : EventId → EventSpec) (base base' : EventBase) (e : EventId) (fds : List Int) :
    Prop where
  self : (base'.ev e).inserted = true ∧ (base'.ev e).pfdIdx = base.pfdFree
  others : ∀ x, x ≠ e → (base'.ev x).inserted = (base.ev x).inserted ∧
    (base'.ev x).pfdIdx = (base.ev x).pfdIdx
  fds_eq : base'.fds = fds.set base.pfdFree (spec e).fd
  pfdHigh : base'.pfdHigh = max base.pfdHigh base.pfdFree
  pfdFree : base'.pfdFree = base.pfdFree + 1 + (fds.drop (base.pfdFree + 1)).findIdx freeFd

theorem Taken.table (h : Table rlim spec base) {fds : List Int} (ht : Taken spec base base' e fds)
    (hnone : (base.ev e).inserted = false) (hio : (spec e).isIo = true) (hfd : (spec e).fd ≠ -1)
    (howned : Owned freeFd fds (fun e => (spec e).fd) (base.Owner spec)
      (fun e => (base.ev e).pfdIdx.toNat))
    (hfree : LowestFree freeFd fds base.pfdFree)
    (hhigh : ∃ n : Nat, base.pfdHigh = n - 1 ∧ UsedBelow freeFd fds n)
    (hroom : base.pfdFree < fds.length) (hsize : 32 ≤ fds.length)
    (hmax : fds.length = 32 ∨ (fds.length : Int) ≤ nofileMax rlim) : Table rlim spec base' := by
  have hself := ht.self
  have howner (x : EventId) : base'.Owner spec x ↔ (x = e ∨ base.Owner spec x) := by
    unfold EventBase.Owner
    by_cases hx : x = e
    · subst hx
      exact ⟨fun _ => Or.inl rfl, fun _ => ⟨hself.1, hio⟩⟩
    · rw [(ht.others x hx).1]
      exact ⟨Or.inr, fun h => h.resolve_left hx⟩
  have hnot : ¬ base.Owner spec e := fun he => Bool.false_ne_true (hnone.symm.trans he.1)
  have hused := freeFd_of_ne hfd
  constructor
  · constructor
    · intro x hx
      by_cases hxe : x = e
      · rw [hxe, hself.2]
        omega
      · rw [(ht.others x hxe).2]
        exact h.nonneg x (((howner x).mp hx).resolve_left hxe)
    · rw [ht.fds_eq]
      refine (howned.take (fun x hx => freeFd_of_ne (h.fd x hx)) hroom hfree.here hnot).congr
        howner (fun x _ => ?_)
      rw [Function.update_apply]
      split
      · next hxe =>
        rw [hxe, hself.2]
        rfl
      · next hxe => rw [(ht.others x hxe).2]
    · rw [ht.fds_eq, ht.pfdFree]
      exact hfree.take hroom hused
    · obtain ⟨n, hn, hbelow⟩ := hhigh
      refine ⟨max n (base.pfdFree + 1), ?_, ?_⟩
      · rw [ht.pfdHigh]
        omega
      · rw [ht.fds_eq]
        exact hbelow.take hroom hused
  · intro x hx
    have hxe : x ≠ e := fun hxe => hx ((howner x).mpr (Or.inl hxe))
    rw [(ht.others x hxe).2]
    exact h.unowned x (fun hx' => hx ((howner x).mpr (Or.inr hx')))
  · intro x hx
    rcases (howner x).mp hx with rfl | hx
    · exact hfd
    · exact h.fd x hx
  · rw [ht.fds_eq, List.length_set]
    exact hsize
  · rw [ht.fds_eq, List.length_set]
    exact hmax

theorem ev_linkEvent_fillSlot (evSpec : EventSpec) (base : EventBase) (e : EventId) (pfds : List Pollfd) (idx : Int)
    (pfd : Pollfd) (tohead : Bool) :
    (linkEvent (fillSlot evSpec base e pfds idx pfd) e tohead).ev =
      Function.update base.ev e { base.ev e with inserted := true, pfdIdx := idx } := by
  show Function.update (Function.update base.ev e _) e
    { Function.update base.ev e _ e with inserted := true } = _
  rw [Function.update_self, Function.update_idem]

theorem taken_fillSlot (base : EventBase) (e : EventId) (pfds : List Pollfd) (pfd : Pollfd)
    (tohead : Bool) :
    Taken spec base (linkEvent (fillSlot (spec e) base e pfds base.pfdFree pfd) e tohead) e
      (pfds.map Pollfd.fd) := by
  have hev := ev_linkEvent_fillSlot (spec e) base e pfds base.pfdFree pfd tohead
  constructor
  · rw [hev, Function.update_self]
    exact ⟨rfl, rfl⟩
  · intro x hx
    rw [hev, Function.update_of_ne hx]
    exact ⟨rfl, rfl⟩
  · show (pfds.set _ _).map Pollfd.fd = _
    rw [List.map_set]
    rfl
  · rfl
  · show base.pfdFree + 1 + List.findIdx _ ((pfds.set base.pfdFree _).drop (base.pfdFree + 1)) = _
    rw [List.drop_set_of_lt (Nat.lt_succ_self _), ← List.map_drop, List.findIdx_map]
    rfl

theorem view_fillSlot (evSpec : EventSpec) (base : EventBase) (e : EventId) (pfds : List Pollfd) (idx : Int)
    (pfd : Pollfd) : (fillSlot evSpec base e pfds idx pfd).view = base.view := by
  rw [view_update base (fillSlot evSpec base e pfds idx pfd) rfl]
  exact QueueView.ext rfl rfl rfl (Function.update_eq_self e _) (Function.update_eq_self e _)
    (Function.update_eq_self e _) (Function.update_eq_self e _)

theorem sudoEvAddImpl_eq {evSpec : EventSpec} {pfds : List Pollfd} {idx : Int} {pfd : Pollfd}
    (hgrow : growPfds rlim base.pfdFree base.pfds = some pfds) (hidx : slotIndex base.pfdFree = idx)
    (hslot : slotAt pfds idx = some pfd) :
    sudoEvAddImpl rlim evSpec base e = some (fillSlot evSpec base e pfds idx pfd, 0) := by
  unfold sudoEvAddImpl
  simp only [hgrow, hidx]
  unfold placeEvent
  rw [hslot]
  rfl

theorem sudoEvAddImpl_spec (h : Table rlim spec base) (hnone : (base.ev e).inserted = false)
    (hio : (spec e).isIo = true) (hfd : (spec e).fd ≠ -1) (hroom : RoomFor rlim base.inUse) :
    (sudoEvAddImpl rlim (spec e) base e = some (base, -1) ∧ base.inUse = rlim) ∨
    ∃ base', sudoEvAddImpl rlim (spec e) base e = some (base', 0) ∧ base'.view = base.view ∧
      ∀ tohead, Table rlim spec (linkEvent base' e tohead) := by
  rcases growPfds_spec h hroom with ⟨hgrow, hlimit⟩ | ⟨more, hgrow, hmore, hfull, hlt, hshort, hmax⟩
  · refine Or.inl ⟨?_, hlimit⟩
    unfold sudoEvAddImpl
    rw [hgrow]
  · right
    obtain ⟨pfd, hslot⟩ : ∃ pfd, slotAt (base.pfds ++ more) base.pfdFree = some pfd := by
      refine ⟨(base.pfds ++ more)[base.pfdFree], ?_⟩
      unfold slotAt
      rw [if_neg (by omega)]
      exact List.getElem?_eq_getElem hlt
    refine ⟨fillSlot (spec e) base e (base.pfds ++ more) base.pfdFree pfd, ?_,
      view_fillSlot _ base e (base.pfds ++ more) _ pfd, fun tohead => ?_⟩
    · exact sudoEvAddImpl_eq hgrow (slotIndex_eq hshort) hslot
    · have hlength : ((base.pfds ++ more).map Pollfd.fd).length = (base.pfds ++ more).length :=
        List.length_map ..
      have hsize : 32 ≤ (base.pfds ++ more).length := by
        have hsize := h.size
        rw [show base.fds.length = base.pfds.length from List.length_map ..] at hsize
        rw [List.length_append]
        omega
      have hhigh : ∃ n : Nat, base.pfdHigh = n - 1 ∧
          UsedBelow freeFd ((base.pfds ++ more).map Pollfd.fd) n := by
        obtain ⟨n, hn, hbelow⟩ := h.high
        rw [List.map_append]
        exact ⟨n, hn, hbelow.grow (fds_append_unused hmore)⟩
      exact (taken_fillSlot base e (base.pfds ++ more) _ tohead).table h hnone hio hfd
        (Owned.grow_table h hmore) (free_grow_table h hmore hfull) hhigh (hlength ▸ hlt)
        (hlength ▸ hsize) (hlength ▸ hmax)

theorem ev_unlinkEvent (base : EventBase) (e : EventId) : (unlinkEvent base e).ev =
    Function.update base.ev e
      { base.ev e with inserted := false, active := false, timeouts := false, pfdIdx := -1 } := rfl

theorem owner_unlinkEvent (base : EventBase) (e x : EventId) :
    (unlinkEvent base e).Owner spec x ↔ x ≠ e ∧ base.Owner spec x := by
  unfold EventBase.Owner
  rw [ev_unlinkEvent, Function.update_apply]
  split
  · next heq => exact ⟨fun h => absurd h.1 Bool.false_ne_true, fun h => absurd heq h.1⟩
  · next hne => exact ⟨fun h => ⟨hne, h⟩, fun h => h.2⟩

theorem sudoEvDelImpl_spec (h : Table rlim spec base) (he : base.Owner spec e) :
    ∃ base', sudoEvDelImpl base e = some base' ∧ base'.view = base.view ∧
      Table rlim spec (unlinkEvent base' e) := by
  have hnonneg := h.nonneg e he
  have hslot := h.owned.holds e he
  obtain ⟨pfd, hpfd⟩ : ∃ pfd, base.pfds[(base.ev e).pfdIdx.toNat]? = some pfd := by
    rw [EventBase.fds, List.getElem?_map, Option.map_eq_some_iff] at hslot
    exact ⟨hslot.choose, hslot.choose_spec.1⟩
  have hslotAt : slotAt base.pfds (base.ev e).pfdIdx = some pfd := by
    unfold slotAt
    rw [if_neg (by omega), hpfd]
  refine ⟨clearSlot base (base.ev e).pfdIdx pfd, ?_, rfl, ?_⟩
  · unfold sudoEvDelImpl
    rw [hslotAt]
    rfl
  · have hfds : (unlinkEvent (clearSlot base (base.ev e).pfdIdx pfd) e).fds =
        base.fds.set (base.ev e).pfdIdx.toNat (-1) := by
      show (base.pfds.set _ _).map Pollfd.fd = _
      rw [List.map_set]
      rfl
    have hother (x : EventId) (hx : x ≠ e) :
        ((unlinkEvent (clearSlot base (base.ev e).pfdIdx pfd) e).ev x).pfdIdx = (base.ev x).pfdIdx := by
      rw [ev_unlinkEvent, Function.update_of_ne hx]
      rfl
    have howner (x : EventId) : (unlinkEvent (clearSlot base (base.ev e).pfdIdx pfd) e).Owner spec x ↔
        x ≠ e ∧ base.Owner spec x := owner_unlinkEvent (clearSlot base _ pfd) e x
    constructor
    · constructor
      · intro x hx
        rw [hother x ((howner x).mp hx).1]
        exact h.nonneg x ((howner x).mp hx).2
      · rw [hfds]
        exact (h.owned.release he rfl).congr howner
          (fun x hx => congrArg Int.toNat (hother x hx.1))
      · rw [hfds]
        have hfree := h.free.release (a := -1) rfl (base.ev e).pfdIdx.toNat
        have hmark : (unlinkEvent (clearSlot base (base.ev e).pfdIdx pfd) e).pfdFree =
            if (base.ev e).pfdIdx.toNat < base.pfdFree then (base.ev e).pfdIdx.toNat
            else base.pfdFree := by
          show (if (base.ev e).pfdIdx < base.pfdFree then _ else _) = _
          split <;> split <;> omega
        rw [hmark]
        exact hfree
      · obtain ⟨n, hn, hbelow⟩ := h.high
        refine ⟨_, ?_, hfds ▸ hbelow.release rfl (base.ev e).pfdIdx.toNat⟩
        show (lower Pollfd.isFree (base.pfds.set _ _) (base.pfdHigh + 1).toNat : Int) - 1 = _
        have htop : (base.pfdHigh + 1).toNat = n := by omega
        rw [htop]
        exact congrArg (fun k : Nat => (k : Int) - 1) (lower_map Pollfd.fd freeFd _ n).symm
    · intro x hx
      by_cases hxe : x = e
      · rw [hxe, ev_unlinkEvent, Function.update_self]
      · rw [hother x hxe]
        exact h.unowned x (fun hx' => hx ((howner x).mpr ⟨hxe, hx'⟩))
    · exact fun x hx => h.fd x ((howner x).mp hx).2
    · rw [hfds, List.length_set]
      exact h.size
    · rw [hfds, List.length_set]
      exact h.max

end NextBSD.Event
