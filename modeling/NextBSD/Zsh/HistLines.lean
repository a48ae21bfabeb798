import NextBSD.Zsh.HistExpire

/-!
# The history over a session

Whatever is read, saved, freed or resized, the ring and the table of the history fit together.
-/

namespace NextBSD.Zsh.HistMemory

open CircularList
open History (Histtab Save histstrcmp)

structure Kept (s : Hist) (xs curl : List Ptr) : Prop where
  inv : Inv s s.histsiz xs curl none
  top : TopKept s xs
  room : xs.length ≤ s.histsiz
  pos : 0 < s.histsiz

section

variable {o : Options} {s : Hist} {size : Nat} {xs curl : List Ptr} {he : Ptr}

theorem Kept.of (h : Inv s size xs curl none) (htop : TopKept s xs) (hroom : xs.length ≤ size)
    (hpos : 0 < size) : Kept s xs curl := by
  obtain rfl := h.size_eq
  exact ⟨h, htop, hroom, hpos⟩

theorem resizeLoop_kept (n : Nat) (h : Inv s size xs curl none) (htop : TopKept s xs)
    (hpos : 0 < size) (hresumes : Resumes o s (xs ++ curl)) (hn : xs.length ≤ n + size) :
    ∃ s' ys, resizeLoop o n s = some s' ∧ Kept s' ys curl := by
  induction n generalizing s xs with
  | zero =>
    have hfits : ¬s.histsiz < s.histlinect := by
      rw [h.size_eq, h.count]
      omega
    exact ⟨s, xs, if_neg hfits, Kept.of h htop (by omega) hpos⟩
  | succ n ih =>
    unfold resizeLoop
    by_cases hlarge : s.histsiz < s.histlinect
    · rw [if_pos hlarge]
      rw [h.size_eq, h.count] at hlarge
      obtain ⟨x, ys, hx, hinv, htop', hlength, hresumes'⟩ :=
        freeSpared true h htop (by omega) fun _ => hresumes
      dsimp only
      rw [hx]
      exact ih hinv htop' hresumes' (by omega)
    · rw [if_neg hlarge]
      rw [h.size_eq, h.count] at hlarge
      exact ⟨s, xs, rfl, Kept.of h htop (by omega) hpos⟩

theorem resizehistents_kept (o : Options) (h : Inv s size xs curl none) (htop : TopKept s xs)
    (hpos : 0 < size) : ∃ s' ys, resizehistents o s = some s' ∧ Kept s' ys curl := by
  unfold resizehistents
  by_cases hlarge : s.histsiz < s.histlinect
  · rw [if_pos hlarge]
    rw [h.size_eq, h.count] at hlarge
    obtain ⟨x, ys, hx, hinv, htop', hlength, hresumes⟩ :=
      freeSpared (o := o) false h htop (by omega) nofun
    dsimp only
    rw [hx]
    exact resizeLoop_kept _ hinv htop' hpos hresumes (by rw [h.count]; omega)
  · rw [if_neg hlarge]
    rw [h.size_eq, h.count] at hlarge
    exact ⟨s, xs, rfl, Kept.of h htop (by omega) hpos⟩

theorem Kept.histsizesetfn (h : Kept s xs curl) (o : Options) (v : Int) :
    ∃ s' ys, histsizesetfn o v s = some s' ∧ Kept s' ys curl := by
  have hinv : Inv { s with histsiz := if v < 1 then 1 else v.toNat }
      (if v < 1 then 1 else v.toNat) xs curl none := { h.inv with size_eq := rfl }
  refine resizehistents_kept o hinv ⟨h.top.top, h.top.below⟩ ?_
  split_ifs <;> omega

theorem Kept.savehistsizesetfn (h : Kept s xs curl) (v : Int) :
    Kept (savehistsizesetfn v s) xs curl :=
  ⟨{ h.inv with size_eq := rfl }, ⟨h.top.top, h.top.below⟩, h.room, h.pos⟩

theorem Inv.fill (h : Inv s size (xs ++ [he]) curl (some he)) (nam : Bytes) (flags : Flags) :
    Inv (s.setNode he fun n => { n with nam := nam, flags := flags }) size (xs ++ [he]) curl
      (some he) := by
  have hother {y : Ptr} (hy : y ≠ he) (n : Node) : Function.update s.node he n y = s.node y :=
    Function.update_of_ne hy ..
  refine h.withNode (fun y hy => ?_) (h.tab.congr fun y nam => and_congr_right fun hy => ?_)
    (fun y hy => ?_) ?_
  · by_cases hyhe : y = he
    · rw [hyhe, Function.update_self]
    · rw [hother hyhe]
  · by_cases hyhe : y = he
    · rw [hyhe]
      exact ⟨fun h => absurd rfl h.1.1, fun h => absurd rfl h.1.1⟩
    · unfold Listed
      rw [hother hyhe]
  · have hyxs := hy
    rw [List.dropLast_concat] at hyxs
    rw [hother fun heq => h.notMem (heq ▸ hyxs)]
    exact h.tmps y hy
  · rw [hother (notMem_curline h)]
    exact h.curdup

theorem fill_flags_self (s : Hist) (he : Ptr) (nam : Bytes) (flags : Flags) :
    (s.setNode he fun n => { n with nam := nam, flags := flags }).flags he = flags := by
  unfold Hist.setNode Hist.flags
  dsimp only
  rw [Function.update_self]

theorem fill_flags {y : Ptr} (hy : y ≠ he) (s : Hist) (nam : Bytes) (flags : Flags) :
    (s.setNode he fun n => { n with nam := nam, flags := flags }).flags y = s.flags y := by
  unfold Hist.setNode Hist.flags
  dsimp only
  rw [Function.update_of_ne hy]

theorem Kept.readLine (h : Kept s xs curl) (o : Options) {newflags : Flags}
    (hflags : newflags.dup = false ∧ newflags.tmpstore = false) (pt : Bytes) :
    ∃ ys, Kept (readLine o newflags s pt) ys curl := by
  obtain ⟨ys, hprepared⟩ := prepnexthistent_spec o h.inv h.top h.room h.pos
  have hmem := hprepared.inv.notMem
  have hfill := hprepared.inv.fill pt newflags
  have hself := fill_flags_self (prepnexthistent o s).2 (prepnexthistent o s).1 pt newflags
  have hother {y : Ptr} (hy : y ∈ ys) : y ≠ (prepnexthistent o s).1 := fun heq => hmem (heq ▸ hy)
  have hkept := hprepared.kept.congr fun y hy =>
    fill_flags (hother hy) (prepnexthistent o s).2 pt newflags
  have hadded := hfill.addhistnode (by rwa [hself])
  have hroom := hprepared.room
  unfold HistMemory.readLine
  dsimp only
  rcases hadded with ⟨zs, hsub, hinv, hflags'⟩ | ⟨hne, hinv, hdup, hsame, -⟩
  · rw [hflags'.1, if_neg Bool.false_ne_true]
    refine ⟨zs ++ [_], Kept.of hinv (TopKept.push hflags'.1 fun htmp => ?_) ?_ h.pos⟩
    · rw [hflags'.2] at htmp
      cases htmp
    · rw [List.length_append, List.length_singleton]
      exact Nat.lt_of_le_of_lt hsub.length_le hroom
  · rw [hdup, if_pos rfl, freehistnode_current]
    have hfree := hinv.freeTop (.inr rfl) (.inl hdup) (.inl hne)
    refine ⟨ys, Kept.of hfree ((hkept.congr hsame).congr fun y _ => ?_) hroom.le h.pos⟩
    unfold Hist.flags
    dsimp only
    rw [freehistnode_node]

theorem Kept.readhistfile (h : Kept s xs curl) (o : Options) (r : Reading) :
    ∃ ys, Kept (readhistfile o r s) ys curl := by
  unfold HistMemory.readhistfile
  generalize s.hist_ignore_all_dups = dups
  induction r.lines generalizing s xs with
  | nil => exact ⟨xs, h⟩
  | cons pt lines ih =>
    have hflags : (r.newflags dups).dup = false ∧ (r.newflags dups).tmpstore = false :=
      ⟨rfl, rfl⟩
    obtain ⟨ys, hys⟩ := h.readLine o hflags pt
    exact ih hys

theorem up_histent_eq {as bs : List Ptr} {x : Ptr} (hring : IsRing s.links (as ++ x :: bs))
    (htop : s.hist_ring = (as ++ x :: bs).getLast?) : up_histent s x = as.getLast? := by
  unfold up_histent
  rcases List.eq_nil_or_concat as with rfl | ⟨as, a, rfl⟩
  · obtain ⟨top, hlast⟩ : ∃ top, (x :: bs).getLast? = some top := ⟨_, List.getLast?_cons⟩
    have hup : s.links.up x = top := (hring.closed top hlast x rfl).2
    rw [htop, hup]
    exact if_pos hlast
  · rw [List.concat_eq_append] at hring htop ⊢
    have hne : s.hist_ring ≠ some a := by
      intro heq
      have hlast : (x :: bs).getLast? = some a := by
        rw [← heq, htop, List.getLast?_append_of_ne_nil _ (List.cons_ne_nil x bs)]
      exact (List.nodup_append.mp hring.nodup).2.2 a (List.mem_append_right as List.mem_cons_self)
        a (List.mem_of_getLast? hlast) rfl
    rw [hring.up_of_concat, if_neg hne, List.getLast?_concat]

theorem removeDups_kept (n : Nat) {as bs : List Ptr} (h : Inv s size (as ++ bs) [] none)
    (htop : TopKept s (as ++ bs)) (hn : as.length ≤ n) :
    ∃ s' ys, removeDups n as.getLast? s = some s' ∧ Inv s' size ys [] none ∧ TopKept s' ys ∧
      ys.length ≤ (as ++ bs).length := by
  induction n generalizing s as bs with
  | zero =>
    rw [List.eq_nil_of_length_eq_zero (Nat.le_zero.mp hn)] at h htop ⊢
    exact ⟨s, _, rfl, h, htop, Nat.le_refl _⟩
  | succ n ih =>
    rcases List.eq_nil_or_concat as with rfl | ⟨as, x, rfl⟩
    · exact ⟨s, _, rfl, h, htop, Nat.le_refl _⟩
    · rw [List.concat_eq_append] at h htop hn ⊢
      rw [List.length_append, List.length_singleton] at hn
      rw [List.getLast?_concat]
      unfold removeDups
      rw [List.append_assoc] at h htop ⊢
      have hring := h.ring
      have hlast := h.top
      rw [List.append_nil] at hring hlast
      rw [up_histent_eq hring hlast]
      by_cases hdup : (s.flags x).dup = true
      · rw [if_pos hdup]
        have hflags : (freehistnode x s).flags = s.flags := by
          unfold Hist.flags
          rw [freehistnode_node]
        obtain ⟨s', ys, hrun, hinv, htop', hlength⟩ := ih (h.free nofun (.inr rfl))
          ((htop.remove (.inr hdup)).congr fun y _ => congrFun hflags y) (by omega)
        refine ⟨s', ys, hrun, hinv, htop', hlength.trans ?_⟩
        rw [List.length_append, List.length_append]
        exact Nat.add_le_add_left (Nat.le_succ _) _
      · rw [if_neg hdup]
        exact ih h htop (by omega)

theorem newestLocal_mem (n : Nat) {as bs : List Ptr} (h : Inv s size (as ++ bs) [] none)
    (hn : as.length ≤ n) :
    ∃ r, newestLocal s n as.getLast? = some r ∧ ∀ he ∈ r, he ∈ as := by
  induction n generalizing as bs with
  | zero =>
    rw [List.eq_nil_of_length_eq_zero (Nat.le_zero.mp hn)]
    exact ⟨none, rfl, nofun⟩
  | succ n ih =>
    rcases List.eq_nil_or_concat as with rfl | ⟨as, x, rfl⟩
    · exact ⟨none, rfl, nofun⟩
    · rw [List.concat_eq_append] at h hn ⊢
      rw [List.length_append, List.length_singleton] at hn
      rw [List.getLast?_concat]
      unfold newestLocal
      rw [List.append_assoc] at h
      have hring := h.ring
      have hlast := h.top
      rw [List.append_nil] at hring hlast
      split_ifs
      · rw [up_histent_eq hring hlast]
        obtain ⟨r, hr, hmem⟩ := ih h (by omega)
        exact ⟨r, hr, fun he hhe => List.mem_append_left [x] (hmem he hhe)⟩
      · refine ⟨some x, rfl, fun he hhe => ?_⟩
        rw [← Option.some.inj hhe]
        exact List.mem_append_right as List.mem_cons_self

theorem Kept.histremovedups (h : Kept s xs []) :
    ∃ s' ys, histremovedups s = some s' ∧ Kept s' ys [] := by
  have hlast := h.inv.top
  rw [List.append_nil] at hlast
  have hinv := h.inv
  have htop := h.top
  rw [← List.append_nil xs] at hinv htop
  obtain ⟨s', ys, hrun, hinv', htop', hlength⟩ :=
    removeDups_kept s.histlinect hinv htop h.inv.count.ge
  rw [List.append_nil] at hlength
  refine ⟨s', ys, ?_, Kept.of hinv' htop' (hlength.trans h.room) h.pos⟩
  unfold HistMemory.histremovedups
  rw [hlast]
  exact hrun

theorem Kept.noticeOption (h : Kept s xs []) (o : Options) :
    ∃ s' ys, noticeOption o s = some s' ∧ Kept s' ys [] := by
  have hset : Kept { s with hist_ignore_all_dups := o.ignorealldups } xs [] :=
    ⟨{ h.inv with size_eq := rfl }, ⟨h.top.top, h.top.below⟩, h.room, h.pos⟩
  unfold HistMemory.noticeOption
  dsimp only
  split_ifs
  · exact hset.histremovedups
  · exact ⟨_, xs, rfl, hset⟩
  · exact ⟨s, xs, rfl, h⟩

theorem Kept.dropTemporary (h : Kept s xs []) :
    ∃ s' ys, dropTemporary s = some s' ∧ Kept s' ys [] := by
  have hlast := h.inv.top
  rw [List.append_nil] at hlast
  have hinv := h.inv
  rw [← List.append_nil xs] at hinv
  obtain ⟨r, hr, hmem⟩ := newestLocal_mem s.histlinect hinv h.inv.count.ge
  unfold HistMemory.dropTemporary
  rw [hlast, hr, Option.map_some]
  cases r with
  | none => exact ⟨s, xs, rfl, h⟩
  | some he =>
    dsimp only
    by_cases htmp : (s.flags he).tmpstore = true
    · have htmps := h.inv.tmps
      obtain ⟨ys, hys⟩ : ∃ ys, xs = ys ++ [he] := by
        obtain ⟨as, bs, hsplit⟩ := List.append_of_mem (hmem he rfl)
        rcases List.eq_nil_or_concat bs with rfl | ⟨bs, b, rfl⟩
        · exact ⟨as, hsplit⟩
        · have hin : he ∈ xs.dropLast := by
            rw [hsplit, List.concat_eq_append, ← List.cons_append, ← List.append_assoc,
              List.dropLast_concat]
            exact List.mem_append_right as List.mem_cons_self
          rw [htmps he hin] at htmp
          cases htmp
      subst hys
      have hkept := h.top
      have hroom := h.room
      rw [List.dropLast_concat] at htmps
      rw [List.length_append] at hroom
      have hnumber := h.inv.numberCurline s.curhist
      have hflags := numberCurline_flags s s.curhist
      have hfree := hnumber.freeTop (.inl rfl) (.inr (by rw [hflags]; exact htmp)) (.inr rfl)
      rw [if_pos htmp, List.getLast?_concat, if_pos rfl, freehistnode_curhist]
      refine ⟨_, ys, rfl, Kept.of hfree ((hkept.pop htmp htmps).congr fun y _ => ?_)
        (Nat.le_of_add_right_le hroom) h.pos⟩
      rw [← congrFun hflags y]
      unfold Hist.flags
      dsimp only
      rw [freehistnode_node]
    · rw [if_neg htmp]
      exact ⟨s, xs, rfl, h⟩

/-! ## A line -/

theorem Inv.settle (h : Inv s size (xs ++ [he]) curl (some he))
    (htmp : (s.flags he).tmpstore = true) : Inv s size (xs ++ [he]) curl none := by
  refine { h with tab := h.tab.congr fun y nam => and_congr_right fun hy => and_congr_left' ?_ }
  by_cases hyhe : y = he
  · have hmarked : (s.node he).flags.tmpstore = true := htmp
    unfold Listed
    rw [hyhe, hmarked]
    exact ⟨fun h => absurd rfl h.1, fun h => absurd h.2.2 (by decide)⟩
  · unfold Listed
    exact and_congr_left' ⟨fun _ => nofun, fun _ heq => hyhe (Option.some.inj heq).symm⟩

theorem nextEntry_eq (o : Options) (c : Completion) (s : Hist) :
    (∃ top, s.hist_ring = some top ∧ c.save = .normal ∧
      nextEntry o c s = (top, { c.newflags with old := (s.flags top).old },
        (freehistdata false top s).numberCurline s.curhist)) ∨
    nextEntry o c s = ((prepnexthistent o s).1, c.newflags, (prepnexthistent o s).2) := by
  unfold nextEntry
  split
  · next top htop =>
    split_ifs with hsame
    · exact .inl ⟨top, htop, hsame.2.1, rfl⟩
    · exact .inr rfl
  · exact .inr rfl

theorem Kept.nextEntry (h : Kept s xs []) (o : Options) (c : Completion) :
    ∃ ys, Inv (nextEntry o c s).2.2 s.histsiz (ys ++ [(nextEntry o c s).1]) []
        (some (nextEntry o c s).1) ∧
      ys.length < s.histsiz ∧
      (c.save = .temporary → TopKept (nextEntry o c s).2.2 ys) ∧
      ∃ old, (nextEntry o c s).2.1 = { c.newflags with old := old } := by
  rcases nextEntry_eq o c s with ⟨top, htop, hsave, heq⟩ | heq
  · rw [heq]
    have hlast := h.inv.top
    have hinv := h.inv
    have hroom := h.room
    rw [List.append_nil, htop] at hlast
    obtain ⟨ys, rfl⟩ : ∃ ys, xs = ys ++ [top] :=
      ⟨xs.dropLast, (List.dropLast_append_getLast? top hlast.symm).symm⟩
    have hmem : top ∉ ys := fun hmem =>
      (List.nodup_append.mp hinv.nodup).2.2 top hmem top List.mem_cons_self rfl
    have htab := hinv.tab.free hinv.nodup nofun
    rw [List.append_nil] at htab
    have hfreed : Inv (freehistdata false top s) s.histsiz (ys ++ [top]) [] (some top) := by
      rw [freehistdata_eq fun heq => hinv.outside (heq ▸ List.mem_append_right ys
        List.mem_cons_self)]
      exact { hinv with tab := htab.push hmem fun _ _ => rfl }
    refine ⟨ys, hfreed.numberCurline _, ?_, fun htemporary => ?_, _, rfl⟩
    · rw [List.length_append, List.length_singleton] at hroom
      exact hroom
    · rw [hsave] at htemporary
      cases htemporary
  · rw [heq]
    obtain ⟨ys, hprepared⟩ := prepnexthistent_spec o h.inv h.top h.room h.pos
    exact ⟨ys, hprepared.inv, hprepared.room, fun _ => hprepared.kept, _, rfl⟩

theorem Kept.saveLine (h : Kept s xs []) (o : Options) (c : Completion) :
    ∃ ys, Kept (saveLine o c s) ys [] := by
  obtain ⟨ys, hinv, hroom, hkept, old, hflags⟩ := h.nextEntry o c
  have hmem := hinv.notMem
  have hfill := hinv.fill c.chline (HistMemory.nextEntry o c s).2.1
  have hself := fill_flags_self (HistMemory.nextEntry o c s).2.2 (HistMemory.nextEntry o c s).1
    c.chline (HistMemory.nextEntry o c s).2.1
  have hother {y : Ptr} (hy : y ∈ ys) : y ≠ (HistMemory.nextEntry o c s).1 :=
    fun heq => hmem (heq ▸ hy)
  have hlength (zs : List Ptr) (hsub : zs.Sublist ys) (he : Ptr) :
      (zs ++ [he]).length ≤ s.histsiz := by
    rw [List.length_append, List.length_singleton]
    exact Nat.lt_of_le_of_lt hsub.length_le hroom
  unfold HistMemory.saveLine
  dsimp only
  by_cases htmp : c.newflags.tmpstore = true
  · have htmp' : (HistMemory.nextEntry o c s).2.1.tmpstore = true := by
      rw [hflags]
      exact htmp
    rw [if_pos htmp']
    refine ⟨ys ++ [_], Kept.of (hfill.settle (by rw [hself]; exact htmp'))
      (TopKept.push ?_ fun _ => ?_) (hlength ys (List.Sublist.refl ys) _) h.pos⟩
    · rw [hself, hflags]
      rfl
    · have hsave : c.save = .temporary := of_decide_eq_true htmp
      exact (hkept hsave).congr fun y hy => fill_flags (hother hy) _ _ _
  · have htmp' : (HistMemory.nextEntry o c s).2.1.tmpstore = false := by
      rw [hflags]
      exact Bool.eq_false_iff.mpr htmp
    rw [if_neg (by rw [htmp']; exact Bool.false_ne_true)]
    have hadded := hfill.addhistnode ⟨by rw [hself, hflags]; rfl, by rw [hself]; exact htmp'⟩
    rcases hadded with ⟨zs, hsub, hinv', hflags'⟩ | ⟨-, -, -, -, hread⟩
    · refine ⟨zs ++ [_], Kept.of hinv' (TopKept.push hflags'.1 fun htmp => ?_)
        (hlength zs hsub _) h.pos⟩
      rw [hflags'.2] at htmp
      cases htmp
    · rw [hself, hflags] at hread
      rcases hread with hread | hread <;> cases hread

theorem Kept.setOld (h : Kept s xs []) (he : Ptr) :
    Kept (s.setFlags he fun f => { f with old := true }) xs [] := by
  have hnode (y : Ptr) :
      ((s.setFlags he fun f => { f with old := true }).node y).nam = (s.node y).nam ∧
      ((s.setFlags he fun f => { f with old := true }).node y).histnum = (s.node y).histnum ∧
      ((s.setFlags he fun f => { f with old := true }).flags y).dup = (s.flags y).dup ∧
      ((s.setFlags he fun f => { f with old := true }).flags y).tmpstore =
        (s.flags y).tmpstore := by
    unfold Hist.setFlags Hist.setNode Hist.flags
    dsimp only
    by_cases hy : y = he
    · rw [hy, Function.update_self]
      exact ⟨rfl, rfl, rfl, rfl⟩
    · rw [Function.update_of_ne hy]
      exact ⟨rfl, rfl, rfl, rfl⟩
  refine ⟨h.inv.withNode (fun y _ => (hnode y).2.1)
    (h.inv.tab.congr fun y nam => and_congr_right fun _ => ?_)
    (fun y hy => (hnode y).2.2.2.trans (h.inv.tmps y hy))
    ((hnode curline).2.2.1.trans h.inv.curdup),
    ⟨fun y hy => (hnode y).2.2.1.trans (h.top.top y hy), fun t ht htmp y hy => ?_⟩,
    h.room, h.pos⟩
  · obtain ⟨hnam, -, hdup, htmp⟩ := hnode y
    unfold Hist.flags at hdup htmp
    unfold Listed
    show _ ↔ (none ≠ some y ∧
      ((s.setFlags he fun f => { f with old := true }).node y).flags.dup = false ∧
      ((s.setFlags he fun f => { f with old := true }).node y).flags.tmpstore = false) ∧
      nam = ((s.setFlags he fun f => { f with old := true }).node y).nam
    rw [hnam, hdup, htmp]
  · exact (hnode y).2.2.1.trans (h.top.below t ht ((hnode t).2.2.2.symm.trans htmp) y hy)

theorem Kept.markOld (h : Kept s xs []) (written : List Ptr) : Kept (markOld written s) xs [] := by
  unfold HistMemory.markOld
  induction written generalizing s with
  | nil => exact h
  | cons he written ih => exact ih (h.setOld he)

theorem Kept.unlinkcurline (h : Kept s xs [curline]) : Kept (unlinkcurline s) xs [] :=
  Kept.of h.inv.unlinkcurline (h.top.congr fun y _ => congrFun (unlinkcurline_flags s) y) h.room
    h.pos

theorem Kept.linkcurline (h : Kept s xs []) : Kept (linkcurline s) xs [curline] :=
  Kept.of h.inv.linkcurline (h.top.congr fun y _ => congrFun (linkcurline_flags s) y) h.room h.pos

theorem Kept.readShared (h : Kept s xs []) (o : Options) (c : Completion) :
    ∃ ys, Kept (readShared o c s) ys [] := by
  unfold HistMemory.readShared
  cases c.shared with
  | none => exact ⟨xs, h⟩
  | some r =>
    obtain ⟨ys, hys⟩ := h.readhistfile o r
    exact ⟨ys, hys.inv.numberCurline _,
      hys.top.congr fun y _ => congrFun (numberCurline_flags _ _) y, hys.room, hys.pos⟩

theorem Kept.hend (h : Kept s xs [curline]) (o : Options) (c : Completion) :
    ∃ s' ys, hend o c s = some s' ∧ Kept s' ys [] := by
  obtain ⟨s₁, ys₁, hrun₁, h₁⟩ := h.unlinkcurline.noticeOption o
  obtain ⟨ys₂, h₂⟩ := h₁.readShared o c
  unfold HistMemory.hend
  rw [hrun₁, Option.bind_some]
  dsimp only
  have hsaved {s : Hist} {ys : List Ptr} (h : Kept s ys []) :
      ∃ zs, Kept (HistMemory.markOld c.written
        (if c.save ≠ .no then HistMemory.saveLine o c s else s)) zs [] := by
    split_ifs
    · obtain ⟨zs, hzs⟩ := h.saveLine o c
      exact ⟨zs, hzs.markOld c.written⟩
    · exact ⟨ys, h.markOld c.written⟩
  by_cases hdrop : c.save ≠ .no ∨ c.space = true
  · obtain ⟨s₃, ys₃, hrun₃, h₃⟩ := h₂.dropTemporary
    obtain ⟨ys₄, h₄⟩ := hsaved h₃
    rw [if_pos hdrop, hrun₃]
    exact ⟨_, ys₄, rfl, h₄⟩
  · obtain ⟨ys₄, h₄⟩ := hsaved h₂
    rw [if_neg hdrop]
    exact ⟨_, ys₄, rfl, h₄⟩

theorem Kept.edit (h : Kept s xs curl) (e : Edit) :
    ∃ s' ys, e.run s = some s' ∧ Kept s' ys curl := by
  cases e with
  | readhistfile o r =>
    obtain ⟨ys, hys⟩ := h.readhistfile o r
    exact ⟨_, ys, rfl, hys⟩
  | histsize o v => exact h.histsizesetfn o v
  | savehist v => exact ⟨_, xs, rfl, h.savehistsizesetfn v⟩

theorem Kept.edits (h : Kept s xs curl) (edits : List Edit) :
    ∃ s' ys, edits.foldlM Edit.run s = some s' ∧ Kept s' ys curl := by
  induction edits generalizing s xs with
  | nil => exact ⟨s, xs, rfl, h⟩
  | cons e edits ih =>
    obtain ⟨s₁, ys₁, hrun, h₁⟩ := h.edit e
    obtain ⟨s₂, ys₂, hrun', h₂⟩ := ih h₁
    refine ⟨s₂, ys₂, ?_, h₂⟩
    rw [List.foldlM_cons, hrun]
    exact hrun'

theorem Kept.op (h : Kept s xs []) (op : Op) : ∃ s' ys, op.run s = some s' ∧ Kept s' ys [] := by
  cases op with
  | edit e => exact h.edit e
  | line edits o c =>
    obtain ⟨s₁, ys₁, hrun, h₁⟩ := h.linkcurline.edits edits
    unfold Op.run
    dsimp only
    rw [hrun, Option.bind_some]
    exact h₁.hend o c

theorem Kept.ops (h : Kept s xs []) (ops : List Op) :
    ∃ s' ys, ops.foldlM Op.run s = some s' ∧ Kept s' ys [] := by
  induction ops generalizing s xs with
  | nil => exact ⟨s, xs, rfl, h⟩
  | cons op ops ih =>
    obtain ⟨s₁, ys₁, hrun, h₁⟩ := h.op op
    obtain ⟨s₂, ys₂, hrun', h₂⟩ := ih h₁
    refine ⟨s₂, ys₂, ?_, h₂⟩
    rw [List.foldlM_cons, hrun]
    exact hrun'

theorem Kept.empty : Kept Hist.empty [] [] where
  inv :=
    { ring := isRing_nil _, top := rfl, curl_eq := .inl rfl, outside := List.not_mem_nil
      used := ⟨Nat.one_pos, nofun⟩, count := rfl, size_eq := rfl, order := List.Pairwise.nil
      current := nofun
      tab :=
        ⟨fun nam x =>
          ⟨fun h => absurd h List.not_mem_nil, fun h => absurd h.1 List.not_mem_nil⟩,
          List.Pairwise.nil⟩
      tmps := nofun, curdup := rfl }
  top := ⟨nofun, nofun⟩
  room := Nat.zero_le _
  pos := by decide

end

/-- `xs` are the entries, from the oldest to the newest one. -/
structure Consistent (s : Hist) (xs : List Ptr) : Prop where
  /-- `up` and `down` lead round the ring, and `hist_ring` is the newest entry. -/
  ring : IsRing s.links xs
  hist_ring : s.hist_ring = xs.getLast?
  histlinect : s.histlinect = xs.length
  histsiz : xs.length ≤ s.histsiz
  histnum : xs.Pairwise fun x y => (s.node x).histnum < (s.node y).histnum
  curhist : ∀ x ∈ xs, (s.node x).histnum ≤ s.curhist
  /-- The table has the entries that are not marked, each under its text. -/
  histtab : ∀ nam x, (nam, x) ∈ s.histtab ↔ x ∈ xs ∧ (s.flags x).dup = false ∧
    (s.flags x).tmpstore = false ∧ nam = (s.node x).nam
  /-- No text is there twice. -/
  unique : s.histtab.Pairwise fun p q => histstrcmp p.1 q.1 = false

theorem Kept.consistent {s : Hist} {xs : List Ptr} (h : Kept s xs []) : Consistent s xs where
  ring := by
    have hring := h.inv.ring
    rwa [List.append_nil] at hring
  hist_ring := by
    have htop := h.inv.top
    rwa [List.append_nil] at htop
  histlinect := h.inv.count
  histsiz := h.room
  histnum := h.inv.order
  curhist x hx := by
    have hle := h.inv.current x hx
    rw [List.length_nil] at hle
    omega
  histtab nam x := by
    refine (h.inv.tab.mem nam x).trans (and_congr_right fun _ => ?_)
    unfold Listed Hist.flags
    exact ⟨fun h => ⟨h.1.2.1, h.1.2.2, h.2⟩, fun h => ⟨⟨nofun, h.1, h.2.1⟩, h.2.2⟩⟩
  unique := h.inv.tab.apart

/-- In a session every operation comes to its end, and leaves the ring and the table fit. -/
theorem session_consistent (ops : List Op) : ∃ s xs, session ops = some s ∧ Consistent s xs := by
  obtain ⟨s, xs, hrun, h⟩ := Kept.empty.ops ops
  exact ⟨s, xs, hrun, h.consistent⟩

end NextBSD.Zsh.HistMemory
