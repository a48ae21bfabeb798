import NextBSD.Zsh.HistInv

/-!
# Expiry

The oldest entry, or the oldest one that is a duplicate, comes on top of the ring, to be filled
again or to be freed.
-/

namespace NextBSD.Zsh.HistMemory

open CircularList
open History (Histtab histstrcmp)

theorem searchDup_spec {s : Hist} {top : Ptr} {ys : List Ptr}
    (hdown : ∀ y ∈ ys, s.links.down y ∈ ys) (n : Nat) {he next : Ptr} (hnext : next ∈ ys) :
    (searchDup s top n he next).1 = s.links.down top ∧ (searchDup s top n he next).2.1 = top ∨
      (searchDup s top n he next).1 ∈ ys ∧
        (s.flags (searchDup s top n he next).1).dup = true ∧
        (searchDup s top n he next).2.1 = s.links.down (searchDup s top n he next).1 := by
  induction n generalizing he next with
  | zero => exact .inl ⟨rfl, rfl⟩
  | succ n ih =>
    unfold searchDup
    split_ifs with htop hdup
    · exact .inl ⟨rfl, rfl⟩
    · exact .inr ⟨hnext, hdup, rfl⟩
    · exact ih (hdown next hnext)

/-- An entry can be spared: the oldest one, or a duplicate.  It is on top of `as ++ bs` now, and the
next one to look at is among them. -/
structure Spared (o : Options) (s s' : Hist) (as : List Ptr) (x : Ptr) (bs : List Ptr) : Prop where
  old : as = [] ∨ (s.flags x).dup = true
  last : bs = [] → as = []
  ring : IsRing s'.links (as ++ bs ++ [x])
  eq : ∃ n m, s' =
    { s with links := s'.links, hist_ring := some x, next := some n, max_unique_ct := m } ∧
      (bs ≠ [] → n ∈ as ++ bs ∧ (o.expiredupsfirst = false → (as ++ bs).head? = some n))

def Resumes (o : Options) (s : Hist) (ys : List Ptr) : Prop :=
  ∃ n, s.next = some n ∧ n ∈ ys ∧ (o.expiredupsfirst = false → ys.head? = some n)

theorem putoldhistentryontop_spec {o : Options} {keep_going : Bool} {s : Hist} {y : Ptr}
    {ys : List Ptr} (hring : IsRing s.links (y :: ys)) (htop : s.hist_ring = (y :: ys).getLast?)
    (hlast : ∀ t ∈ (y :: ys).getLast?, (s.flags t).dup = false)
    (hresumes : keep_going = true → Resumes o s (y :: ys)) :
    ∃ as x bs, y :: ys = as ++ x :: bs ∧
      Spared o s (putoldhistentryontop o keep_going s) as x bs := by
  obtain ⟨top, hlasttop⟩ : ∃ top, (y :: ys).getLast? = some top := ⟨_, List.getLast?_cons⟩
  have hdowntop : s.links.down top = y := hring.down_last hlasttop
  have hdupne {x : Ptr} (hdup : (s.flags x).dup = true) : x ≠ top := by
    rintro rfl
    rw [hlast x hlasttop] at hdup
    cases hdup
  -- where the search starts
  obtain ⟨start, hstart, hstartmem, hstarthead⟩ : ∃ start,
      (if keep_going then s.next else some (s.links.down top)) = some start ∧
        start ∈ y :: ys ∧ (o.expiredupsfirst = false → start = y) := by
    cases keep_going with
    | true =>
      obtain ⟨n, hn, hmem, hhead⟩ := hresumes rfl
      exact ⟨n, hn, hmem, fun h => (Option.some.inj (hhead h)).symm⟩
    | false => exact ⟨y, congrArg some hdowntop, List.mem_cons_self, fun _ => rfl⟩
  obtain ⟨⟨x, n, m⟩, hchosen⟩ : ∃ c, (if o.expiredupsfirst && !(s.flags start).dup then
      searchDup s top (if keep_going then s.max_unique_ct else s.savehistsiz) start
        (s.links.down start)
    else (start, s.links.down start, s.max_unique_ct)) = c := ⟨_, rfl⟩
  -- what the search comes up with
  have hfound : x = y ∧ (n = s.links.down y ∨ o.expiredupsfirst = true ∧ n = top) ∨
      o.expiredupsfirst = true ∧ x ∈ y :: ys ∧ (s.flags x).dup = true ∧
        n = s.links.down x := by
    by_cases hexpire : o.expiredupsfirst = true
    · by_cases hdup : (s.flags start).dup = true
      · rw [hexpire, hdup, if_neg (by decide)] at hchosen
        obtain ⟨rfl, rfl, -⟩ := hchosen
        exact .inr ⟨hexpire, hstartmem, hdup, rfl⟩
      · rw [hexpire, Bool.eq_false_iff.mpr hdup, if_pos (by decide)] at hchosen
        have hspec := @searchDup_spec s top (y :: ys) (fun z => hring.down_mem)
          (if keep_going then s.max_unique_ct else s.savehistsiz) start _
          (hring.down_mem hstartmem)
        rw [hchosen, hdowntop] at hspec
        exact hspec.imp (fun h => ⟨h.1, .inr ⟨hexpire, h.2⟩⟩) fun h => ⟨hexpire, h⟩
    · have hfalse := Bool.eq_false_iff.mpr hexpire
      rw [hfalse, Bool.false_and, if_neg Bool.false_ne_true] at hchosen
      obtain ⟨rfl, rfl, -⟩ := hchosen
      rw [hstarthead hfalse]
      exact .inl ⟨rfl, .inl rfl⟩
  unfold putoldhistentryontop
  rw [htop, hlasttop]
  dsimp only
  rw [hstart, hdowntop]
  dsimp only
  rw [hchosen]
  dsimp only
  -- the entry is where it is needed, or is moved there
  have hstay : IsRing s.links (ys ++ [y]) := @IsRing.rotate _ s.links [y] ys hring
  rcases hfound with ⟨rfl, hn⟩ | ⟨hexpire, hmem, hdup, rfl⟩
  · refine ⟨[], x, ys, rfl, .inl rfl, fun _ => rfl, ?_, n, m, rfl, fun hne => ?_⟩
    · rw [if_neg (not_not.mpr rfl)]
      exact hstay
    · obtain ⟨b, bs, rfl⟩ := List.exists_cons_of_ne_nil hne
      rcases hn with rfl | ⟨hexpire, rfl⟩
      · have hb : s.links.down x = b := (@IsRing.next _ s.links [] bs x b hring).1
        rw [hb]
        exact ⟨List.mem_cons_self, fun _ => rfl⟩
      · rw [List.getLast?_cons_cons] at hlasttop
        refine ⟨List.mem_of_getLast? hlasttop, fun h => ?_⟩
        rw [hexpire] at h
        cases h
  · obtain ⟨as, bs, hsplit⟩ := List.append_of_mem hmem
    rw [hsplit] at hring hlasttop ⊢
    have hbs : bs ≠ [] := by
      rintro rfl
      rw [List.getLast?_concat] at hlasttop
      exact hdupne hdup (Option.some.inj hlasttop)
    obtain ⟨b, bs, rfl⟩ := List.exists_cons_of_ne_nil hbs
    refine ⟨as, x, b :: bs, rfl, .inr hdup, fun h => absurd h hbs, ?_, s.links.down x, m, rfl,
      fun _ => ⟨?_, fun h => ?_⟩⟩
    · by_cases hxy : x = y
      · rw [if_neg (not_not.mpr hxy)]
        cases as with
        | nil =>
          obtain ⟨-, rfl⟩ := List.cons.inj hsplit
          rw [hxy]
          exact hstay
        | cons a as =>
          have hax : x = a := hxy.trans (List.cons.inj hsplit).1
          have hnodup := (List.nodup_cons.mp hring.nodup).1
          exact absurd (hax ▸ List.mem_append_right as List.mem_cons_self) hnodup
      · rw [if_pos hxy]
        have hlasttop' : (as ++ b :: bs).getLast? = some top := by
          rw [← hlasttop, List.getLast?_append_of_ne_nil _ hbs,
            List.getLast?_append_of_ne_nil _ (List.cons_ne_nil x _), List.getLast?_cons_cons]
        exact (hring.unlink (by simp)).insert hlasttop'
          (List.nodup_cons.mp (List.nodup_middle.mp hring.nodup)).1
    · rw [hring.next.1]
      exact List.mem_append_right as List.mem_cons_self
    · rw [hexpire] at h
      cases h

/-! ## The entry for a new line -/

section

variable {o : Options} {s : Hist} {size : Nat} {xs curl : List Ptr} {he : Ptr}

theorem Inv.withCurhist (h : Inv s size xs curl none) {c : Int}
    (hc : ∀ x ∈ xs, (s.node x).histnum + curl.length ≤ c) :
    Inv { s with curhist := c } size xs curl none :=
  { ring := h.ring, top := h.top, curl_eq := h.curl_eq, outside := h.outside, used := h.used
    count := h.count, size_eq := h.size_eq, order := h.order, current := hc, tab := h.tab
    tmps := h.tmps, curdup := h.curdup }

theorem freehistnode_curhist (x : Ptr) (s : Hist) (c : Int) :
    freehistnode x { s with curhist := c } = { freehistnode x s with curhist := c } := by
  unfold freehistnode freehistdata Hist.flags
  split_ifs <;> first | rfl | (dsimp only; split_ifs <;> rfl)

theorem freehistnode_current (x : Ptr) (s : Hist) : (freehistnode x s).curhist = s.curhist := by
  unfold freehistnode freehistdata
  split_ifs <;> first | rfl | (dsimp only; split_ifs <;> rfl)

theorem freehistnode_next (x : Ptr) (s : Hist) : (freehistnode x s).next = s.next := by
  unfold freehistnode freehistdata
  split_ifs <;> first | rfl | (dsimp only; split_ifs <;> rfl)

theorem Inv.freeTop {pending : Option Ptr} (h : Inv s size (xs ++ [he]) curl pending)
    (hpending : pending = none ∨ pending = some he)
    (hmarked : (s.flags he).dup = true ∨ (s.flags he).tmpstore = true)
    (hrest : xs ≠ [] ∨ curl = []) :
    Inv { freehistnode he s with curhist := s.curhist - 1 } size xs curl none := by
  have hnodup := List.nodup_append.mp h.nodup
  have hmem : he ∉ xs := fun hmem => hnodup.2.2 he hmem he List.mem_cons_self rfl
  have hfree := h.free (fun _ => hmarked) (by rwa [List.append_nil])
  rw [List.append_nil] at hfree
  have hdone : Inv (freehistnode he s) size xs curl none := by
    rcases hpending with rfl | rfl
    · exact hfree
    · exact { hfree with tab := hfree.tab.done hmem }
  refine hdone.withCurhist fun x hx => ?_
  have hlt := (List.pairwise_append.mp h.order).2.2 x hx he List.mem_cons_self
  have hle := h.current he (List.mem_append_right xs List.mem_cons_self)
  rw [freehistnode_node]
  omega

theorem dropTop_eq {t : Ptr} (h : s.hist_ring = some t) :
    dropTop s = if (s.flags t).tmpstore then
      { freehistnode t s with curhist := s.curhist - 1 } else s := by
  unfold dropTop
  split
  · next top htop =>
    cases h.symm.trans htop
    rw [freehistnode_curhist]
  · next htop => cases h.symm.trans htop

theorem dropTop_none (h : s.hist_ring = none) : dropTop s = s := by
  unfold dropTop
  split
  · next top htop => cases h.symm.trans htop
  · rfl

theorem dropTop_spec (h : Inv s size xs [] none) (hkept : TopKept s xs) :
    ∃ ys, Inv (dropTop s) size ys [] none ∧ TopKept (dropTop s) ys ∧
      ys.length ≤ xs.length ∧
      ∀ y ∈ ys, ((dropTop s).flags y).tmpstore = false := by
  have htop := h.top
  rw [List.append_nil] at htop
  rcases List.eq_nil_or_concat xs with rfl | ⟨ys, t, rfl⟩
  · rw [dropTop_none htop]
    exact ⟨[], h, hkept, Nat.le_refl _, fun y hy => absurd hy List.not_mem_nil⟩
  · rw [List.concat_eq_append] at h hkept htop ⊢
    have htmps := h.tmps
    rw [List.dropLast_concat] at htmps
    rw [List.getLast?_concat] at htop
    rw [dropTop_eq htop]
    by_cases htmp : (s.flags t).tmpstore = true
    · rw [if_pos htmp]
      have hflags : (freehistnode t s).flags = s.flags := by
        unfold Hist.flags
        rw [freehistnode_node]
      refine ⟨ys, h.freeTop (.inl rfl) (.inr htmp) (.inr rfl),
        (hkept.pop htmp htmps).congr fun y _ => congrFun hflags y, ?_, fun y hy => ?_⟩
      · rw [List.length_append]
        exact Nat.le_add_right _ _
      · show ((freehistnode t s).flags y).tmpstore = false
        rw [hflags]
        exact htmps y hy
    · rw [if_neg htmp]
      refine ⟨ys ++ [t], h, hkept, Nat.le_refl _, fun y hy => ?_⟩
      rcases List.mem_append.mp hy with hy | hy
      · exact htmps y hy
      · rw [List.mem_singleton.mp hy]
        exact Bool.eq_false_iff.mpr htmp

/-- `he` is on top of `ys`, and still to be numbered. -/
structure Taken (s s' : Hist) (size : Nat) (ys : List Ptr) (he : Ptr) : Prop where
  ring : IsRing s'.links (ys ++ [he])
  top : s'.hist_ring = some he
  new : he ≠ curline
  used : 0 < s'.fresh ∧ ∀ x ∈ ys ++ [he], x < s'.fresh
  count : s'.histlinect = ys.length + 1
  size_eq : s'.histsiz = size
  curhist_eq : s'.curhist = s.curhist
  node : ∀ y, y ≠ he → s'.node y = s.node y
  tab : Tabled s.node ys none s'.histtab
  room : ys.length < size

theorem takeEntry_none (h : s.hist_ring = none) :
    takeEntry o s = (s.fresh, { s with
      links := s.links.alone s.fresh, node := Function.update s.node s.fresh Node.zero
      fresh := s.fresh + 1, hist_ring := some s.fresh, histlinect := s.histlinect + 1 }) := by
  unfold takeEntry
  split
  · rfl
  · next top htop => cases h.symm.trans htop

theorem takeEntry_new {t : Ptr} (h : s.hist_ring = some t) (hroom : s.histlinect < s.histsiz) :
    takeEntry o s = (s.fresh, { s with
      links := s.links.insert t s.fresh, node := Function.update s.node s.fresh Node.zero
      fresh := s.fresh + 1, hist_ring := some s.fresh, histlinect := s.histlinect + 1 }) := by
  unfold takeEntry
  split
  · next htop => cases h.symm.trans htop
  · next top htop =>
    cases h.symm.trans htop
    rw [if_pos hroom]

theorem takeEntry_old {t x : Ptr} (h : s.hist_ring = some t) (hroom : ¬s.histlinect < s.histsiz)
    (hx : (putoldhistentryontop o false s).hist_ring = some x) :
    takeEntry o s = (x, freehistdata false x (putoldhistentryontop o false s)) := by
  unfold takeEntry
  split
  · next htop => cases h.symm.trans htop
  · rw [if_neg hroom]
    dsimp only
    rw [hx]
    rfl

theorem takeEntry_spec (o : Options) (h : Inv s size xs [] none) (hkept : TopKept s xs)
    (hroom : xs.length ≤ size) (hsize : 0 < size) :
    ∃ ys he s', takeEntry o s = (he, s') ∧ Taken s s' size ys he ∧ ys.Sublist xs ∧
      TopKept s ys := by
  have hring := h.ring
  have htop := h.top
  rw [List.append_nil] at hring htop
  have hfresh : s.fresh ∉ xs := fun hmem => Nat.lt_irrefl _ (h.used.2 _ hmem)
  have hfreshcurl : s.fresh ≠ curline := Nat.pos_iff_ne_zero.mp h.used.1
  have hused : 0 < s.fresh + 1 ∧ ∀ x ∈ xs ++ [s.fresh], x < s.fresh + 1 := by
    refine ⟨Nat.succ_pos _, fun x hx => ?_⟩
    rcases List.mem_append.mp hx with hx | hx
    · exact Nat.lt_succ_of_lt (h.used.2 x hx)
    · rw [List.mem_singleton.mp hx]
      exact Nat.lt_succ_self _
  cases xs with
  | nil =>
    refine ⟨[], s.fresh, _, takeEntry_none htop, ?_, List.Sublist.refl _, hkept⟩
    exact
      { ring := isRing_alone s.links s.fresh, top := rfl, new := hfreshcurl, used := hused
        count := congrArg (· + 1) h.count, size_eq := h.size_eq, curhist_eq := rfl
        node := fun y hy => Function.update_of_ne hy .., tab := h.tab, room := hsize }
  | cons y ys =>
    obtain ⟨top, hlast⟩ : ∃ top, (y :: ys).getLast? = some top := ⟨_, List.getLast?_cons⟩
    by_cases hfull : s.histlinect < s.histsiz
    · refine ⟨y :: ys, s.fresh, _, takeEntry_new (htop.trans hlast) hfull, ?_,
        List.Sublist.refl _, hkept⟩
      exact
        { ring := hring.insert hlast hfresh, top := rfl, new := hfreshcurl, used := hused
          count := congrArg (· + 1) h.count, size_eq := h.size_eq, curhist_eq := rfl
          node := fun y hy => Function.update_of_ne hy .., tab := h.tab
          room := by rwa [h.count, h.size_eq] at hfull }
    · obtain ⟨as, x, bs, hsplit, hspared⟩ :=
        @putoldhistentryontop_spec o false s y ys hring htop (fun t ht => hkept.top t ht) nofun
      rw [hsplit] at h hkept hroom
      obtain ⟨n, m, heq, -⟩ := hspared.eq
      have hx : x ≠ curline := fun hx =>
        h.outside (hx ▸ List.mem_append_right as List.mem_cons_self)
      have hsub : (as ++ bs).Sublist (as ++ x :: bs) := (List.sublist_cons_self x bs).append_left as
      have hcount := h.count
      rw [List.length_append, List.length_cons] at hroom hcount
      refine ⟨as ++ bs, x, _, takeEntry_old (htop.trans hlast) hfull (by rw [heq]), ?_,
        hsplit ▸ hsub, hkept.remove hspared.old⟩
      rw [freehistdata_eq hx]
      have hring' := hspared.ring
      generalize (putoldhistentryontop o false s).links = links at heq hring'
      rw [heq]
      exact
        { ring := hring', top := rfl, new := hx
          used := ⟨h.used.1, fun z hz => h.used.2 z (by
            rcases List.mem_append.mp hz with hz | hz
            · exact hsub.subset hz
            · rw [List.mem_singleton.mp hz]
              exact List.mem_append_right as List.mem_cons_self)⟩
          count := by
            show s.histlinect = _
            rw [hcount, List.length_append]
            omega
          size_eq := h.size_eq, curhist_eq := rfl, node := fun _ _ => rfl
          tab := h.tab.free h.nodup nofun
          room := by
            rw [List.length_append]
            omega }

theorem Taken.inv {s' : Hist} {ys : List Ptr} (ht : Taken s s' size ys he)
    (h : Inv s size xs [] none) (hsub : ys.Sublist xs)
    (htmps : ∀ y ∈ xs, (s.flags y).tmpstore = false) :
    Inv (s'.number he) size (ys ++ [he]) [] (some he) := by
  have hhe : he ∉ ys := fun hmem =>
    (List.nodup_append.mp ht.ring.nodup).2.2 he hmem he List.mem_cons_self rfl
  have hother {y : Ptr} (hy : y ≠ he) (n : Node) : Function.update s'.node he n y = s.node y := by
    rw [Function.update_of_ne hy, ht.node y hy]
  have hothers {y : Ptr} (hy : y ∈ ys) (n : Node) :
      Function.update s'.node he n y = s.node y := hother (fun heq => hhe (heq ▸ hy)) n
  refine
    { ring := by rw [List.append_nil]; exact ht.ring
      top := by rw [List.append_nil, List.getLast?_concat]; exact ht.top
      curl_eq := .inl rfl
      outside := fun hmem => ?_
      used := ht.used
      count := ?_
      size_eq := ht.size_eq
      order := ?_
      current := fun y hy => ?_
      tab := ht.tab.push hhe fun y hy => hothers hy _
      tmps := fun y hy => ?_
      curdup := ?_ }
  · rcases List.mem_append.mp hmem with hmem | hmem
    · exact h.outside (hsub.subset hmem)
    · exact ht.new (List.mem_singleton.mp hmem).symm
  · rw [List.length_append]
    exact ht.count
  · refine List.pairwise_append.mpr ⟨?_, List.pairwise_singleton _ _, fun a ha b hb => ?_⟩
    · refine (h.order.sublist hsub).imp_of_mem fun {a b} ha hb hab => ?_
      show (Function.update s'.node he _ a).histnum < (Function.update s'.node he _ b).histnum
      rwa [hothers ha, hothers hb]
    · have hle := h.current a (hsub.subset ha)
      rw [List.mem_singleton.mp hb]
      show (Function.update s'.node he _ a).histnum < (Function.update s'.node he _ he).histnum
      rw [hothers ha, Function.update_self, ht.curhist_eq]
      rw [List.length_nil] at hle
      show (s.node a).histnum < s.curhist + 1
      omega
  · show (Function.update s'.node he _ y).histnum + _ ≤ s'.curhist + 1
    rcases List.mem_append.mp hy with hy | hy
    · have hle := h.current y (hsub.subset hy)
      rw [hothers hy, ht.curhist_eq]
      omega
    · rw [List.mem_singleton.mp hy, Function.update_self, List.length_nil]
      exact (Int.add_zero _).le
  · rw [List.dropLast_concat] at hy
    show (Function.update s'.node he _ y).flags.tmpstore = false
    rw [hothers hy]
    exact htmps y (hsub.subset hy)
  · show (Function.update s'.node he _ curline).flags.dup = false
    rw [hother ht.new.symm]
    exact h.curdup

theorem prepnexthistent_unlinked (h : s.hist_ring ≠ some curline) :
    prepnexthistent o s = ((takeEntry o (dropTop s)).1,
      (takeEntry o (dropTop s)).2.number (takeEntry o (dropTop s)).1) := by
  unfold prepnexthistent
  dsimp only
  rw [if_neg h, if_neg h]

theorem prepnexthistent_linked (h : s.hist_ring = some curline)
    (hne : (unlinkcurline s).hist_ring ≠ some curline) :
    prepnexthistent o s = ((prepnexthistent o (unlinkcurline s)).1,
      linkcurline (prepnexthistent o (unlinkcurline s)).2) := by
  rw [prepnexthistent_unlinked hne]
  unfold prepnexthistent
  dsimp only
  rw [if_pos h, if_pos h]

/-- `he` is to be filled, on top of `ys`. -/
structure Prepared (s : Hist) (size : Nat) (ys curl : List Ptr) (he : Ptr) : Prop where
  inv : Inv s size (ys ++ [he]) curl (some he)
  kept : TopKept s ys
  room : ys.length < size

theorem unlinkcurline_flags (s : Hist) : (unlinkcurline s).flags = s.flags := by
  unfold unlinkcurline Hist.flags
  dsimp only
  split_ifs <;> rfl

theorem Inv.hist_ring_ne (h : Inv s size xs [] none) : s.hist_ring ≠ some curline := by
  rw [h.top, List.append_nil]
  exact fun heq => h.outside (List.mem_of_getLast? heq)

theorem prepnexthistent_spec (o : Options) (h : Inv s size xs curl none) (hkept : TopKept s xs)
    (hroom : xs.length ≤ size) (hsize : 0 < size) :
    ∃ ys, Prepared (prepnexthistent o s).2 size ys curl (prepnexthistent o s).1 := by
  have hunlinked {s : Hist} (h : Inv s size xs [] none) (hkept : TopKept s xs) :
      ∃ ys, Prepared (prepnexthistent o s).2 size ys [] (prepnexthistent o s).1 := by
    obtain ⟨ys, hinv, hkept', hlength, htmps⟩ := dropTop_spec h hkept
    obtain ⟨zs, he, s', htake, htaken, hsub, hkept''⟩ :=
      takeEntry_spec o hinv hkept' (hlength.trans hroom) hsize
    have hinv' := htaken.inv hinv hsub htmps
    rw [prepnexthistent_unlinked h.hist_ring_ne, htake]
    refine ⟨zs, hinv', hkept''.congr fun y hy => ?_, htaken.room⟩
    have hne : y ≠ he := fun heq => hinv'.notMem (heq ▸ hy)
    show (Function.update s'.node he _ y).flags = _
    rw [Function.update_of_ne hne, htaken.node y hne]
    rfl
  rcases h.curl_eq with rfl | rfl
  · exact hunlinked h hkept
  · have htop : s.hist_ring = some curline := by
      rw [h.top, List.getLast?_concat]
    obtain ⟨ys, hprepared⟩ := hunlinked h.unlinkcurline
      (hkept.congr fun y _ => congrFun (unlinkcurline_flags s) y)
    rw [prepnexthistent_linked htop h.unlinkcurline.hist_ring_ne]
    exact ⟨ys, hprepared.inv.linkcurline,
      hprepared.kept.congr fun y _ => congrFun (linkcurline_flags _) y, hprepared.room⟩

theorem split_below {as bs : List Ptr} {x : Ptr} (hcurl : curl = [] ∨ curl = [curline])
    (h : xs ++ curl = as ++ x :: bs) (hbs : bs ≠ []) :
    ∃ cs, bs = cs ++ curl ∧ xs = as ++ x :: cs := by
  rcases hcurl with rfl | rfl
  · exact ⟨bs, (List.append_nil bs).symm, by rwa [List.append_nil] at h⟩
  · obtain ⟨cs, c, rfl⟩ := (List.eq_nil_or_concat bs).resolve_left hbs
    rw [List.concat_eq_append] at h ⊢
    rw [← List.cons_append, ← List.append_assoc] at h
    obtain ⟨hxs, hc⟩ := List.append_inj' h rfl
    exact ⟨cs, by rw [hc], hxs⟩

theorem freeSpared (keep_going : Bool) (h : Inv s size xs curl none) (hkept : TopKept s xs)
    (hlength : 2 ≤ xs.length) (hresumes : keep_going = true → Resumes o s (xs ++ curl)) :
    ∃ x ys, (putoldhistentryontop o keep_going s).hist_ring = some x ∧
      Inv (freehistnode x (putoldhistentryontop o keep_going s)) size ys curl none ∧
      TopKept (freehistnode x (putoldhistentryontop o keep_going s)) ys ∧
      ys.length + 1 = xs.length ∧
      Resumes o (freehistnode x (putoldhistentryontop o keep_going s)) (ys ++ curl) := by
  have hne : xs ++ curl ≠ [] := by
    intro heq
    rw [(List.append_eq_nil_iff.mp heq).1] at hlength
    exact absurd hlength (by decide)
  have hlast : ∀ t ∈ (xs ++ curl).getLast?, (s.flags t).dup = false := by
    intro t ht
    rcases h.curl_eq with rfl | rfl
    · rw [List.append_nil] at ht
      exact hkept.top t ht
    · rw [List.getLast?_concat] at ht
      rw [← Option.some.inj ht]
      exact h.curdup
  obtain ⟨as, x, bs, hsplit, hspared⟩ : ∃ as x bs, xs ++ curl = as ++ x :: bs ∧
      Spared o s (putoldhistentryontop o keep_going s) as x bs := by
    have hring := h.ring
    have htop := h.top
    obtain ⟨y, ys, hys⟩ := List.exists_cons_of_ne_nil hne
    rw [hys] at hring htop hlast hresumes ⊢
    exact putoldhistentryontop_spec hring htop hlast hresumes
  have hbs : bs ≠ [] := by
    intro hbs
    have hone := congrArg List.length hsplit
    rw [hspared.last hbs, hbs, List.length_append] at hone
    have hone : xs.length + curl.length = 1 := hone
    omega
  obtain ⟨cs, rfl, rfl⟩ := split_below h.curl_eq hsplit hbs
  obtain ⟨n, m, heq, hn⟩ := hspared.eq
  have hring := hspared.ring
  have hx : x ≠ curline := fun hx =>
    h.outside (hx ▸ List.mem_append_right as List.mem_cons_self)
  have hcount := h.count
  rw [List.length_append, List.length_cons] at hlength
  have hrest : (as ++ (cs ++ curl)) ++ [] ≠ [] := by
    rw [List.append_nil]
    intro heq
    rw [List.append_eq_nil_iff, List.append_eq_nil_iff] at heq
    rw [heq.1, heq.2.1] at hlength
    exact absurd hlength (by decide)
  have hflags : (freehistnode x (putoldhistentryontop o keep_going s)).flags = s.flags := by
    unfold Hist.flags
    rw [freehistnode_node, heq]
  refine ⟨x, as ++ cs, by rw [heq], ?_, (hkept.remove hspared.old).congr fun y _ =>
    congrFun hflags y, ?_, n, ?_, ?_⟩
  · generalize (putoldhistentryontop o keep_going s).links = links at heq hring
    rw [heq, freehistnode_eq hx (by
      show 1 < s.histlinect
      rw [hcount, List.length_append, List.length_cons]
      omega)]
    refine h.remove nofun ?_ ?_ ?_ rfl rfl rfl rfl rfl
    · have hgone := hring.unlink hrest
      rw [List.append_nil, ← List.append_assoc] at hgone
      exact hgone
    · have htop := top_unlinked hring List.getLast?_concat.symm hrest
      rw [List.append_nil, ← List.append_assoc] at htop
      exact htop
    · show s.histlinect - 1 = _
      rw [hcount, List.length_append, List.length_cons, List.length_append]
      omega
  · rw [List.length_append, List.length_append, List.length_cons]
    omega
  · rw [freehistnode_next, heq]
  · rw [List.append_assoc]
    exact hn hbs

end

end NextBSD.Zsh.HistMemory
