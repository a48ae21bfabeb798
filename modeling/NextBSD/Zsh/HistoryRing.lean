import NextBSD.Zsh.History

/-!
# The ring of a session

At most one entry of a ring is temporary, and it is on top.
-/

namespace NextBSD.Zsh.History

/-- What a ring shows of an entry: `kept` when the entry is not for the file. -/
structure Shown where
  nam : Bytes
  stim : Int
  kept : Bool
  deriving DecidableEq, Repr

def Histent.shown (he : Histent) : Shown :=
  { nam := he.nam, stim := he.stim, kept := he.tmpstore || he.nowrite }

/-- The entries can be told apart by their addresses, and the table knows what it points to. -/
structure Known (ring : List Histent) (histtab : Histtab) (nextAddr : Nat) : Prop where
  nodup : (ring.map (·.addr)).Nodup
  fresh : ∀ he ∈ ring, he.addr < nextAddr
  tab : ∀ p ∈ histtab, p.2 < nextAddr ∧ ∀ he ∈ ring, he.addr = p.2 → he.nam = p.1

/-- `base` is the ring without its temporary entry, and `last` the number of its last entry. -/
structure Ring (s : Session) (base tmps : List Histent) (last : Nat) : Prop where
  ring_eq : s.ring = base ++ tmps
  length_le : tmps.length ≤ 1
  temporary : ∀ he ∈ tmps, he.tmpstore = true ∧ he.old = false
  permanent : ∀ he ∈ base, he.tmpstore = false ∧ he.histnum ≤ last
  curhist_eq : s.curhist = last + tmps.length
  next_le : s.lasthist.next_write_ev ≤ last + 1
  known : Known s.ring s.histtab s.nextAddr

def Saved (base : List Histent) : Prop := ∀ he ∈ base, (he.old || he.nowrite) = true

theorem Ring.empty : Ring Session.empty [] [] 0 where
  ring_eq := rfl
  length_le := Nat.zero_le 1
  temporary := fun _ h => absurd h List.not_mem_nil
  permanent := fun _ h => absurd h List.not_mem_nil
  curhist_eq := rfl
  next_le := Nat.zero_le 1
  known :=
    { nodup := List.nodup_nil
      fresh := fun _ h => absurd h List.not_mem_nil
      tab := fun _ h => absurd h List.not_mem_nil }

section

variable {s : Session} {base tmps : List Histent} {last : Nat}

theorem Known.sublist {ring ring' : List Histent} {histtab : Histtab} {nextAddr : Nat}
    (h : Known ring histtab nextAddr) (hsub : ring'.Sublist ring) :
    Known ring' histtab nextAddr where
  nodup := h.nodup.sublist (hsub.map _)
  fresh := fun e he => h.fresh e (hsub.subset he)
  tab := fun p hp => ⟨(h.tab p hp).1, fun e he => (h.tab p hp).2 e (hsub.subset he)⟩

theorem Known.push {ring : List Histent} {histtab : Histtab} {nextAddr : Nat}
    (h : Known ring histtab nextAddr) {he : Histent} (haddr : he.addr = nextAddr) :
    Known (ring ++ [he]) histtab (nextAddr + 1) where
  nodup := by
    rw [List.map_append, List.nodup_append]
    refine ⟨h.nodup, List.nodup_singleton _, fun a ha b hb heq => ?_⟩
    obtain ⟨e, hmem, rfl⟩ := List.mem_map.mp ha
    have hb : b = he.addr := List.mem_singleton.mp hb
    have hlt : e.addr < nextAddr := h.fresh e hmem
    have heq : e.addr = b := heq
    omega
  fresh := fun e hmem => by
    rcases List.mem_append.mp hmem with hmem | hmem
    · exact Nat.lt_succ_of_lt (h.fresh e hmem)
    · rw [List.mem_singleton.mp hmem]
      omega
  tab := fun p hp => by
    have hlt := (h.tab p hp).1
    refine ⟨Nat.lt_succ_of_lt hlt, fun e hmem heq => ?_⟩
    rcases List.mem_append.mp hmem with hmem | hmem
    · exact (h.tab p hp).2 e hmem heq
    · rw [List.mem_singleton.mp hmem] at heq
      omega

theorem Known.filter_top {he : Histent} {histtab : Histtab} {nextAddr : Nat}
    (h : Known (base ++ [he]) histtab nextAddr) :
    (base ++ [he]).filter (fun e => e.addr ≠ he.addr) = base := by
  have hnodup := h.nodup
  rw [List.map_append, List.nodup_append] at hnodup
  have hne : ∀ e ∈ base, decide (e.addr ≠ he.addr) = true := fun e hmem =>
    decide_eq_true (hnodup.2.2 e.addr (List.mem_map_of_mem hmem) he.addr List.mem_cons_self)
  rw [List.filter_append, List.filter_eq_self.mpr hne,
    List.filter_cons_of_neg (by rw [decide_eq_true_iff]; exact fun h => h rfl)]
  exact List.append_nil base

theorem Ring.remember (h : Ring s base tmps last) (lasthist : Lasthist)
    (hnext : lasthist.next_write_ev ≤ last + 1) :
    Ring { s with lasthist := lasthist } base tmps last :=
  { ring_eq := h.ring_eq, length_le := h.length_le, temporary := h.temporary,
    permanent := h.permanent, curhist_eq := h.curhist_eq, next_le := hnext, known := h.known }

theorem Ring.ofBase (hring : s.ring = base)
    (hbase : ∀ he ∈ base, he.tmpstore = false ∧ he.histnum ≤ last) (hcur : s.curhist = last)
    (hnext : s.lasthist.next_write_ev ≤ last + 1) (hknown : Known s.ring s.histtab s.nextAddr) :
    Ring s base [] last where
  ring_eq := hring.trans (List.append_nil base).symm
  length_le := Nat.zero_le 1
  temporary := fun _ h => absurd h List.not_mem_nil
  permanent := hbase
  curhist_eq := hcur
  next_le := hnext
  known := hknown

theorem Ring.tmps_eq (h : Ring s base tmps last) {t : Histent} (ht : t ∈ tmps) : tmps = [t] := by
  have hlength := h.length_le
  cases tmps with
  | nil => exact absurd ht List.not_mem_nil
  | cons e rest =>
    rw [List.length_cons] at hlength
    obtain rfl : rest = [] := List.eq_nil_of_length_eq_zero (by omega)
    rw [List.mem_singleton.mp ht]

theorem Ring.free {t : Histent} (h : Ring s base [t] last) :
    Ring { freehistnode s t with curhist := s.curhist - 1 } base [] last := by
  have htmp := (h.temporary t List.mem_cons_self).1
  have hknown := h.known
  rw [h.ring_eq] at hknown
  have hring : s.ring.filter (fun e => e.addr ≠ t.addr) = base := by
    rw [h.ring_eq]
    exact hknown.filter_top
  have htab : (if t.dup || t.tmpstore then s.histtab else removehashnode s.histtab t.nam) =
      s.histtab := by
    rw [htmp, Bool.or_true, if_pos rfl]
  have hcur := h.curhist_eq
  rw [List.length_singleton] at hcur
  unfold freehistnode
  rw [hring, htab]
  exact Ring.ofBase rfl h.permanent (by show s.curhist - 1 = last; omega) h.next_le
    (hknown.sublist (List.sublist_append_left base [t]))

theorem Ring.dropTop (h : Ring s base tmps last) :
    Ring (dropTop s) base [] last ∧ (dropTop s).lasthist = s.lasthist ∧
      (dropTop s).nextAddr = s.nextAddr := by
  cases htmps : tmps with
  | nil =>
    subst htmps
    have hsame : History.dropTop s = s := by
      unfold History.dropTop
      cases htop : s.ring.getLast? with
      | none => rfl
      | some he =>
        have hmem := List.mem_of_getLast? htop
        rw [h.ring_eq, List.append_nil] at hmem
        dsimp only
        rw [(h.permanent he hmem).1, if_neg Bool.false_ne_true]
    rw [hsame]
    exact ⟨h, rfl, rfl⟩
  | cons t rest =>
    have hone := h.tmps_eq (htmps ▸ List.mem_cons_self)
    rw [htmps] at hone
    obtain rfl : rest = [] := (List.cons.inj hone).2
    subst htmps
    have hfree : History.dropTop s = { freehistnode s t with curhist := s.curhist - 1 } := by
      unfold History.dropTop
      rw [h.ring_eq, List.getLast?_concat]
      dsimp only
      rw [if_pos (h.temporary t List.mem_cons_self).1]
    rw [hfree]
    exact ⟨h.free, rfl, rfl⟩

def newEntry (s : Session) (data : HistData) (last : Nat) : Histent :=
  { toHistData := data, addr := s.nextAddr, histnum := last + 1, dup := false }

def pushed (s : Session) (base : List Histent) (he : Histent) (last : Nat) : Session :=
  { dropTop s with ring := base ++ [he], curhist := last + 1, nextAddr := s.nextAddr + 1 }

theorem prepnexthistent_eq (h : Ring s base tmps last) (data : HistData) :
    prepnexthistent s data =
      (pushed s base (newEntry s data last) last, newEntry s data last) := by
  obtain ⟨hring, -, haddr⟩ := h.dropTop
  have hcur : (dropTop s).curhist = last := hring.curhist_eq
  have hbase : (dropTop s).ring = base := hring.ring_eq.trans (List.append_nil base)
  unfold prepnexthistent newEntry pushed
  dsimp only
  rw [haddr, hcur, hbase]

theorem Ring.known_pushed (h : Ring s base tmps last) {he : Histent}
    (haddr : he.addr = s.nextAddr) :
    Known (base ++ [he]) (pushed s base he last).histtab (s.nextAddr + 1) := by
  obtain ⟨hring, -, hnext⟩ := h.dropTop
  have hknown := hring.known
  rw [hring.ring_eq, List.append_nil, hnext] at hknown
  exact hknown.push haddr

theorem Ring.push (h : Ring s base tmps last) {he : Histent} (haddr : he.addr = s.nextAddr)
    (hnum : he.histnum = last + 1) (htmp : he.tmpstore = false) :
    Ring (pushed s base he last) (base ++ [he]) [] (last + 1) := by
  refine Ring.ofBase rfl (fun e hmem => ?_) rfl ?_ (h.known_pushed haddr)
  · rcases List.mem_append.mp hmem with hmem | hmem
    · exact ⟨(h.permanent e hmem).1, Nat.le_succ_of_le (h.permanent e hmem).2⟩
    · rw [List.mem_singleton.mp hmem]
      exact ⟨htmp, hnum.le⟩
  · show (History.dropTop s).lasthist.next_write_ev ≤ last + 1 + 1
    rw [h.dropTop.2.1]
    exact Nat.le_succ_of_le h.next_le

theorem Ring.pushTmp (h : Ring s base tmps last) {he : Histent} (haddr : he.addr = s.nextAddr)
    (hold : he.old = false) (htmp : he.tmpstore = true) :
    Ring (pushed s base he last) base [he] last where
  ring_eq := rfl
  length_le := Nat.le_refl 1
  temporary := fun e hmem => by
    rw [List.mem_singleton.mp hmem]
    exact ⟨htmp, hold⟩
  permanent := h.permanent
  curhist_eq := rfl
  next_le := by
    show (History.dropTop s).lasthist.next_write_ev ≤ last + 1
    rw [h.dropTop.2.1]
    exact h.next_le
  known := h.known_pushed haddr

end

/-! ## The table -/

theorem addhashnode2_mem (tab : Histtab) (nam : Bytes) (addr : Nat) {q : Bytes × Nat}
    (h : q ∈ (addhashnode2 tab nam addr).2) : q ∈ tab ∨ q = (nam, addr) := by
  induction tab with
  | nil => exact Or.inr (List.mem_singleton.mp h)
  | cons hp tab ih =>
    unfold addhashnode2 at h
    by_cases hcmp : histstrcmp hp.1 nam = true
    · rw [if_pos hcmp] at h
      rcases List.mem_cons.mp h with h | h
      · exact Or.inr h
      · exact Or.inl (List.mem_cons_of_mem hp h)
    · rw [if_neg hcmp] at h
      rcases List.mem_cons.mp h with h | h
      · exact Or.inl (h ▸ List.mem_cons_self)
      · exact (ih h).imp_left (List.mem_cons_of_mem hp)

theorem addhashnode2_found (tab : Histtab) (nam : Bytes) (addr : Nat) {p : Bytes × Nat}
    (h : (addhashnode2 tab nam addr).1 = some p) : p ∈ tab ∧ histstrcmp p.1 nam = true := by
  induction tab with
  | nil => exact absurd h (Option.some_ne_none p).symm
  | cons hp tab ih =>
    unfold addhashnode2 at h
    by_cases hcmp : histstrcmp hp.1 nam = true
    · rw [if_pos hcmp] at h
      rw [← Option.some.inj h]
      exact ⟨List.mem_cons_self, hcmp⟩
    · rw [if_neg hcmp] at h
      exact ⟨List.mem_cons_of_mem hp (ih h).1, (ih h).2⟩

section

variable {s : Session} {base tmps : List Histent} {last : Nat}

theorem Known.addhashnode2 {ring : List Histent} {histtab : Histtab} {nextAddr : Nat}
    (h : Known ring histtab nextAddr) {nam : Bytes} {addr : Nat} (haddr : addr < nextAddr)
    (hnam : ∀ he ∈ ring, he.addr = addr → he.nam = nam) :
    Known ring (History.addhashnode2 histtab nam addr).2 nextAddr where
  nodup := h.nodup
  fresh := h.fresh
  tab := fun p hp => by
    rcases addhashnode2_mem histtab nam addr hp with hp | rfl
    · exact h.tab p hp
    · exact ⟨haddr, hnam⟩

/-- A change of the entries that leaves the names, the addresses and the numbers alone. -/
structure Keeps (f : Histent → Histent) : Prop where
  addr : ∀ he, (f he).addr = he.addr
  histnum : ∀ he, (f he).histnum = he.histnum
  shown : ∀ he, (f he).shown = he.shown
  tmpstore : ∀ he, (f he).tmpstore = he.tmpstore

theorem Keeps.nam {f : Histent → Histent} (hf : Keeps f) (he : Histent) :
    (f he).nam = he.nam := congrArg Shown.nam (hf.shown he)

theorem Keeps.map_shown {f : Histent → Histent} (hf : Keeps f) (l : List Histent) :
    (l.map f).map (·.shown) = l.map (·.shown) := by
  rw [List.map_map]
  exact List.map_congr_left fun e _ => hf.shown e

theorem Known.map {f : Histent → Histent} (hf : Keeps f) {ring : List Histent}
    {histtab : Histtab} {nextAddr : Nat} (h : Known ring histtab nextAddr) :
    Known (ring.map f) histtab nextAddr where
  nodup := by
    have haddrs : (ring.map f).map (·.addr) = ring.map (·.addr) := by
      rw [List.map_map]
      exact List.map_congr_left fun e _ => hf.addr e
    rw [haddrs]
    exact h.nodup
  fresh := fun e he => by
    obtain ⟨d, hd, rfl⟩ := List.mem_map.mp he
    rw [hf.addr]
    exact h.fresh d hd
  tab := fun p hp => by
    refine ⟨(h.tab p hp).1, fun e he heq => ?_⟩
    obtain ⟨d, hd, rfl⟩ := List.mem_map.mp he
    rw [hf.addr] at heq
    rw [hf.nam]
    exact (h.tab p hp).2 d hd heq

theorem keeps_markDup (addr : Nat) : Keeps (markDup addr) where
  addr := fun he => by unfold markDup; split <;> rfl
  histnum := fun he => by unfold markDup; split <;> rfl
  shown := fun he => by unfold markDup; split <;> rfl
  tmpstore := fun he => by unfold markDup; split <;> rfl

theorem keeps_markOld (addr : Nat) : Keeps (markOld addr) where
  addr := fun he => by unfold markOld; split <;> rfl
  histnum := fun he => by unfold markOld; split <;> rfl
  shown := fun he => by unfold markOld; split <;> rfl
  tmpstore := fun he => by unfold markOld; split <;> rfl

theorem saved_markDup (addr : Nat) (h : Saved base) : Saved (base.map (markDup addr)) := by
  intro e he
  obtain ⟨d, hd, rfl⟩ := List.mem_map.mp he
  unfold markDup
  by_cases heq : d.addr = addr
  · rw [if_pos heq]
    exact h d hd
  · rw [if_neg heq]
    exact h d hd

theorem Ring.retab (h : Ring s base tmps last) {tab : Histtab}
    (hknown : Known s.ring tab s.nextAddr) : Ring { s with histtab := tab } base tmps last :=
  { ring_eq := h.ring_eq, length_le := h.length_le, temporary := h.temporary,
    permanent := h.permanent, curhist_eq := h.curhist_eq, next_le := h.next_le, known := hknown }

theorem permanent_map {f : Histent → Histent} (hf : Keeps f)
    (h : ∀ he ∈ base, he.tmpstore = false ∧ he.histnum ≤ last) :
    ∀ he ∈ base.map f, he.tmpstore = false ∧ he.histnum ≤ last := by
  intro e he
  obtain ⟨d, hd, rfl⟩ := List.mem_map.mp he
  rw [hf.tmpstore, hf.histnum]
  exact h d hd

theorem Ring.map {f : Histent → Histent} (hf : Keeps f) (h : Ring s base [] last) :
    Ring { s with ring := s.ring.map f } (base.map f) [] last := by
  have hring : s.ring = base := h.ring_eq.trans (List.append_nil base)
  exact Ring.ofBase (by rw [hring]) (permanent_map hf h.permanent) h.curhist_eq h.next_le
    (h.known.map hf)

def Taken (s' s : Session) (base : List Histent) (he : Histent) (last : Nat) : Prop :=
  s'.lasthist = s.lasthist ∧ ∃ base', base'.map (·.shown) = base.map (·.shown) ∧
    (Saved base → Saved base') ∧ Ring s' (base' ++ [he]) [] (last + 1)

/-- The entry before the new one is the same command, and the new one is marked. -/
def Doubled (s' s : Session) (base : List Histent) (he : Histent) (last : Nat) : Prop :=
  s'.lasthist = s.lasthist ∧ he.foreign = true ∧
    (∃ u, (base.map (·.shown)).getLast? = some u ∧ histstrcmp u.nam he.nam = true) ∧
    s'.ring.getLast? = some { he with dup := true } ∧
    ∃ base', base'.map (·.shown) = base.map (·.shown) ∧ (Saved base → Saved base') ∧
      Ring { freehistnode s' { he with dup := true } with curhist := s'.curhist - 1 } base' [] last

theorem addhistnode_pushed (h : Ring s base tmps last) {he : Histent}
    (haddr : he.addr = s.nextAddr) (hnum : he.histnum = last + 1) (htmp : he.tmpstore = false) :
    Taken (addhistnode (pushed s base he last) he) s base he last ∨
      Doubled (addhistnode (pushed s base he last) he) s base he last := by
  have hpush := h.push haddr hnum htmp
  have hknown := h.known_pushed haddr
  obtain ⟨hdrop, hlasthist, hnext⟩ := h.dropTop
  have hbase : (History.dropTop s).ring = base := hdrop.ring_eq.trans (List.append_nil base)
  have hne : ∀ e ∈ base, e.addr ≠ he.addr := by
    intro e hmem heq
    have hlt := hdrop.known.fresh e (hbase.symm ▸ hmem)
    omega
  have hnam : ∀ e ∈ base ++ [he], e.addr = he.addr → e.nam = he.nam := by
    intro e hmem heq
    rcases List.mem_append.mp hmem with hmem | hmem
    · exact absurd heq (hne e hmem)
    · rw [List.mem_singleton.mp hmem]
  have hlt : he.addr < s.nextAddr + 1 := by omega
  have htab := hknown.addhashnode2 hlt hnam
  have hfound (p : Bytes × Nat) := addhashnode2_found (pushed s base he last).histtab he.nam
    he.addr (p := p)
  unfold addhistnode
  rcases hpair : addhashnode2 (pushed s base he last).histtab he.nam he.addr with ⟨oldnode, tab⟩
  rw [hpair] at htab hfound
  cases oldnode with
  | none => exact Or.inl ⟨hlasthist, base, rfl, id, hpush.retab htab⟩
  | some p =>
    dsimp only
    by_cases hself : p.2 = he.addr
    · rw [if_pos hself]
      exact Or.inl ⟨hlasthist, base, rfl, id, hpush.retab htab⟩
    · rw [if_neg hself]
      by_cases hup : he.foreign = true ∧
          (pushed s base he last).ring.dropLast.getLast?.map (·.addr) = some p.2
      · -- the entry of the table is the one before the new one
        rw [if_pos hup]
        have hdropLast : (pushed s base he last).ring.dropLast = base := List.dropLast_concat
        rw [hdropLast] at hup
        obtain ⟨u, hu, huaddr⟩ := Option.map_eq_some_iff.mp hup.2
        have humem : u ∈ base := List.mem_of_getLast? hu
        obtain ⟨hpmem, hcmp⟩ := hfound p rfl
        have hunam : u.nam = p.1 := (hknown.tab p hpmem).2 u (List.mem_append_left _ humem) huaddr
        have hmap : (base ++ [he]).map (markDup he.addr) =
            base.map (markDup he.addr) ++ [{ he with dup := true }] := by
          rw [List.map_append, List.map_singleton, markDup, if_pos rfl]
        have hrestored := (htab.addhashnode2 (hknown.tab p hpmem).1
          (hknown.tab p hpmem).2).map (keeps_markDup he.addr)
        refine Or.inr ⟨hlasthist, hup.1, ⟨u.shown, ?_, ?_⟩, ?_, base.map (markDup he.addr),
          (keeps_markDup he.addr).map_shown base, saved_markDup he.addr, ?_⟩
        · rw [List.getLast?_map, hu]
          rfl
        · show histstrcmp u.nam he.nam = true
          rw [hunam]
          exact hcmp
        · show ((base ++ [he]).map (markDup he.addr)).getLast? = _
          rw [hmap, List.getLast?_concat]
        · rw [hmap] at hrestored
          refine Ring.ofBase ?_ (permanent_map (keeps_markDup he.addr) h.permanent) rfl ?_ ?_
          · show ((base ++ [he]).map (markDup he.addr)).filter _ = _
            rw [hmap]
            exact hrestored.filter_top
          · show (History.dropTop s).lasthist.next_write_ev ≤ last + 1
            rw [hlasthist]
            exact h.next_le
          · show Known (((base ++ [he]).map (markDup he.addr)).filter _) _ _
            rw [hmap]
            exact hrestored.sublist List.filter_sublist
      · rw [if_neg hup]
        have hhe : markDup p.2 he = he := if_neg fun heq => hself heq.symm
        have hmark := (hpush.retab htab).map (keeps_markDup p.2)
        rw [List.map_append, List.map_singleton, hhe] at hmark
        exact Or.inl ⟨hlasthist, base.map (markDup p.2), (keeps_markDup p.2).map_shown base,
          saved_markDup p.2, hmark⟩

/-- What a ring shows after an entry of the file: the entry is new on top, or it is the entry of
another session that repeats the one on top. -/
def Shows (fast : Bool) (shown shown' : List Shown) (e : Shown) : Prop :=
  shown' = shown ++ [e] ∨
    (fast = true ∧ shown' = shown ∧ ∃ u, shown.getLast? = some u ∧ histstrcmp u.nam e.nam = true)

theorem readAdd_spec (h : Ring s base tmps last) (hsaved : Saved base) (fast : Bool) (tim : Int)
    (fpos : Nat) (stim ftim : Int) (pt : Bytes) :
    (readAdd fast tim s fpos stim ftim pt).lasthist =
        { s.lasthist with fpos := fpos, stim := stim } ∧
      ∃ base' last', Ring (readAdd fast tim s fpos stim ftim pt) base' [] last' ∧ Saved base' ∧
        Shows fast (base.map (·.shown)) (base'.map (·.shown))
          { nam := pt, stim := if stim = 0 then tim else stim, kept := false } := by
  have hremember := h.remember { s.lasthist with fpos := fpos, stim := stim } h.next_le
  unfold readAdd
  dsimp only
  rw [prepnexthistent_eq hremember]
  dsimp only
  generalize hhe : newEntry _ _ last = he
  have haddr : he.addr = s.nextAddr := hhe ▸ rfl
  have hnum : he.histnum = last + 1 := hhe ▸ rfl
  have htmp : he.tmpstore = false := hhe ▸ rfl
  have hdup : he.dup = false := hhe ▸ rfl
  have hshown : he.shown =
      { nam := pt, stim := if stim = 0 then tim else stim, kept := false } := hhe ▸ rfl
  rcases addhistnode_pushed hremember haddr hnum htmp with
    ⟨hlasthist, base', hshow, hsave, hring⟩ |
      ⟨hlasthist, hforeign, ⟨u, hu, hcmp⟩, htop, base', hshow, hsave, hring⟩
  · have htop := hring.ring_eq
    rw [List.append_nil] at htop
    rw [htop, List.getLast?_concat]
    dsimp only
    rw [hdup, if_neg Bool.false_ne_true]
    refine ⟨hlasthist, base' ++ [he], last + 1, hring, fun e hmem => ?_, Or.inl ?_⟩
    · rcases List.mem_append.mp hmem with hmem | hmem
      · exact hsave hsaved e hmem
      · rw [List.mem_singleton.mp hmem, ← hhe]
        rfl
    · rw [List.map_append, hshow, List.map_singleton, hshown]
  · rw [htop]
    dsimp only
    rw [if_pos rfl]
    refine ⟨hlasthist, base', last, hring, hsave hsaved, Or.inr ⟨?_, hshow, u, hu, ?_⟩⟩
    · rw [← hhe] at hforeign
      exact hforeign
    · rw [← hshown]
      exact hcmp

end

end NextBSD.Zsh.History
