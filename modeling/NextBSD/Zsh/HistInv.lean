import NextBSD.Zsh.HistTable

/-!
# What holds of the ring of the history

The entries are given from the oldest to the newest one.  While a line is edited, `curline` is on
top of them; and while an entry is being filled, it is not in the table yet.
-/

namespace NextBSD.Zsh.HistMemory

open CircularList
open History (Histtab histstrcmp addhashnode2_found)

/-- `xs` are the entries of the ring below `curl`, and those that are not marked are in the table,
but for the one that is being filled. -/
structure Inv (s : Hist) (size : Nat) (xs curl : List Ptr) (pending : Option Ptr) : Prop where
  ring : IsRing s.links (xs ++ curl)
  top : s.hist_ring = (xs ++ curl).getLast?
  curl_eq : curl = [] ∨ curl = [curline]
  outside : curline ∉ xs
  used : 0 < s.fresh ∧ ∀ x ∈ xs, x < s.fresh
  count : s.histlinect = xs.length
  size_eq : s.histsiz = size
  order : xs.Pairwise fun x y => (s.node x).histnum < (s.node y).histnum
  current : ∀ x ∈ xs, (s.node x).histnum + curl.length ≤ s.curhist
  tab : Tabled s.node xs pending s.histtab
  tmps : ∀ x ∈ xs.dropLast, (s.flags x).tmpstore = false
  curdup : (s.flags curline).dup = false

/-- The newest entry is no duplicate, and the one below a temporary one is none. -/
structure TopKept (s : Hist) (xs : List Ptr) : Prop where
  top : ∀ x ∈ xs.getLast?, (s.flags x).dup = false
  below : ∀ t ∈ xs.getLast?, (s.flags t).tmpstore = true →
    ∀ x ∈ xs.dropLast.getLast?, (s.flags x).dup = false

theorem Inv.nodup {s : Hist} {size : Nat} {xs curl : List Ptr} {pending : Option Ptr}
    (h : Inv s size xs curl pending) : xs.Nodup := (List.nodup_append.mp h.ring.nodup).1

theorem dropLast_sublist_append {α : Type} (as bs : List α) (x : α) :
    (as ++ bs).dropLast.Sublist (as ++ x :: bs).dropLast := by
  cases bs with
  | nil =>
    rw [List.append_nil, List.dropLast_concat]
    exact List.dropLast_sublist as
  | cons b bs =>
    rw [List.dropLast_append_of_ne_nil (List.cons_ne_nil b bs),
      List.dropLast_append_of_ne_nil (List.cons_ne_nil x _), List.dropLast_cons_cons]
    exact (List.sublist_cons_self x _).append_left as

section

variable {s s' : Hist} {as bs xs : List Ptr} {x : Ptr}

theorem TopKept.congr (h : TopKept s xs) (hflags : ∀ y ∈ xs, s'.flags y = s.flags y) :
    TopKept s' xs where
  top y hy := by
    rw [hflags y (List.mem_of_getLast? hy)]
    exact h.top y hy
  below t ht htmp y hy := by
    rw [hflags t (List.mem_of_getLast? ht)] at htmp
    rw [hflags y (List.mem_of_mem_dropLast (List.mem_of_getLast? hy))]
    exact h.below t ht htmp y hy

theorem TopKept.pop (h : TopKept s (xs ++ [x])) (htmp : (s.flags x).tmpstore = true)
    (htmps : ∀ y ∈ xs, (s.flags y).tmpstore = false) : TopKept s xs where
  top y hy := h.below x List.getLast?_concat htmp y (by rwa [List.dropLast_concat])
  below t ht htmp := by
    rw [htmps t (List.mem_of_getLast? ht)] at htmp
    cases htmp

theorem TopKept.push (hdup : (s.flags x).dup = false)
    (htmp : (s.flags x).tmpstore = true → TopKept s xs) : TopKept s (xs ++ [x]) where
  top y hy := by
    rw [List.getLast?_concat] at hy
    rw [← Option.some.inj hy]
    exact hdup
  below t ht hmark y hy := by
    rw [List.getLast?_concat] at ht
    rw [← Option.some.inj ht] at hmark
    rw [List.dropLast_concat] at hy
    exact (htmp hmark).top y hy

theorem TopKept.remove (h : TopKept s (as ++ x :: bs)) (hx : as = [] ∨ (s.flags x).dup = true) :
    TopKept s (as ++ bs) := by
  have hlast {y : Ptr} {cs : List Ptr} (hcs : cs ≠ []) (hy : y ∈ (as ++ cs).getLast?) :
      y ∈ (as ++ x :: cs).getLast? := by
    rw [List.getLast?_append_of_ne_nil _ hcs] at hy
    rw [List.getLast?_append_of_ne_nil _ (List.cons_ne_nil x cs)]
    obtain ⟨c, cs, rfl⟩ := List.exists_cons_of_ne_nil hcs
    rwa [List.getLast?_cons_cons]
  have hempty (hdup : (s.flags x).dup = false) : as = [] := hx.resolve_right fun h => by
    rw [hdup] at h
    cases h
  rcases List.eq_nil_or_concat bs with rfl | ⟨cs, t, rfl⟩
  · rw [hempty (h.top x List.getLast?_concat)]
    exact ⟨nofun, nofun⟩
  · rw [List.concat_eq_append] at h ⊢
    have hne : cs ++ [t] ≠ [] := by simp
    refine ⟨fun y hy => h.top y (hlast hne hy), fun y hy htmp z hz => ?_⟩
    rw [← List.append_assoc, List.dropLast_concat] at hz
    have hdrop : (as ++ x :: (cs ++ [t])).dropLast = as ++ x :: cs := by
      rw [← List.cons_append, ← List.append_assoc, List.dropLast_concat]
    by_cases hcs : cs = []
    · rw [hcs, List.append_nil] at hz
      rw [hcs] at hdrop
      have hdup := h.below y (hlast hne hy) htmp x (by rw [hcs, hdrop]; exact List.getLast?_concat)
      rw [hempty hdup] at hz
      cases hz
    · exact h.below y (hlast hne hy) htmp z (by rw [hdrop]; exact hlast hcs hz)

end

/-! ## Freeing -/

theorem freehistdata_table (s : Hist) (x : Ptr) :
    (if (s.flags x).dup || (s.flags x).tmpstore then s
      else { s with histtab := History.removehashnode s.histtab (s.node x).nam }) =
      { s with histtab := tabWithout s.histtab (s.node x) } := by
  unfold tabWithout Hist.flags
  split_ifs <;> rfl

theorem freehistdata_eq {s : Hist} {x : Ptr} (hx : x ≠ curline) :
    freehistdata false x s = { s with histtab := tabWithout s.histtab (s.node x) } := by
  unfold freehistdata
  rw [if_neg hx, freehistdata_table]
  rfl

theorem freehistnode_eq {s : Hist} {x : Ptr} (hx : x ≠ curline) (hcount : 1 < s.histlinect) :
    freehistnode x s =
      { s with
        histtab := tabWithout s.histtab (s.node x)
        histlinect := s.histlinect - 1
        hist_ring := if s.hist_ring = some x then some (s.links.up x) else s.hist_ring
        links := s.links.unlink x } := by
  have hne : s.histlinect - 1 ≠ 0 := by omega
  unfold freehistnode freehistdata
  rw [if_neg hx, freehistdata_table]
  dsimp only
  rw [if_pos rfl, if_neg hne]
  split_ifs <;> rfl

theorem freehistnode_last {s : Hist} {x : Ptr} (hx : x ≠ curline) (hcount : s.histlinect = 1) :
    freehistnode x s =
      { s with
        histtab := tabWithout s.histtab (s.node x)
        histlinect := 0
        hist_ring := none } := by
  unfold freehistnode freehistdata
  rw [if_neg hx, freehistdata_table]
  dsimp only
  rw [if_pos rfl, hcount, if_pos rfl]

theorem freehistnode_node (x : Ptr) (s : Hist) : (freehistnode x s).node = s.node := by
  unfold freehistnode freehistdata
  split_ifs <;> first | rfl | (dsimp only; split_ifs <;> rfl)

theorem top_unlinked {links : Links Ptr} {as bs : List Ptr} {x : Ptr} {top : Option Ptr}
    (h : IsRing links (as ++ x :: bs)) (htop : top = (as ++ x :: bs).getLast?)
    (hne : as ++ bs ≠ []) :
    (if top = some x then some (links.up x) else top) = (as ++ bs).getLast? := by
  rcases List.eq_nil_or_concat bs with rfl | ⟨bs, z, rfl⟩
  · rw [List.append_nil] at hne ⊢
    obtain ⟨as, a, rfl⟩ := (List.eq_nil_or_concat as).resolve_left hne
    rw [List.concat_eq_append] at h ⊢
    rw [htop, List.getLast?_concat, if_pos rfl, List.getLast?_concat, h.up_of_concat]
  · rw [List.concat_eq_append] at h htop ⊢
    have hz : (as ++ x :: (bs ++ [z])).getLast? = some z := by
      rw [← List.cons_append, ← List.append_assoc, List.getLast?_concat]
    have hzx : z ≠ x := by
      rintro rfl
      have hnodup := (List.nodup_append.mp h.nodup).2.1
      exact (List.nodup_cons.mp hnodup).1 (List.mem_append_right bs List.mem_cons_self)
    rw [htop, hz, if_neg fun heq => hzx (Option.some.inj heq), ← List.append_assoc,
      List.getLast?_concat]

section

variable {s : Hist} {size : Nat} {as bs xs curl : List Ptr} {x : Ptr} {pending : Option Ptr}

theorem Inv.remove (h : Inv s size (as ++ x :: bs) curl pending)
    (hmarked : pending = some x → (s.flags x).dup = true ∨ (s.flags x).tmpstore = true)
    {s' : Hist} (hring : IsRing s'.links (as ++ bs ++ curl))
    (htop : s'.hist_ring = (as ++ bs ++ curl).getLast?) (hcount : s'.histlinect = (as ++ bs).length)
    (htab : s'.histtab = tabWithout s.histtab (s.node x)) (hnode : s'.node = s.node)
    (hfresh : s'.fresh = s.fresh) (hcur : s'.curhist = s.curhist)
    (hsize : s'.histsiz = s.histsiz) :
    Inv s' size (as ++ bs) curl pending := by
  have hsub : (as ++ bs).Sublist (as ++ x :: bs) := (List.sublist_cons_self x bs).append_left as
  have hflags : s'.flags = s.flags := by
    unfold Hist.flags
    rw [hnode]
  refine ⟨hring, htop, h.curl_eq, fun hmem => h.outside (hsub.subset hmem), ?_, hcount,
    hsize.trans h.size_eq, ?_, ?_, ?_, ?_, ?_⟩
  · rw [hfresh]
    exact ⟨h.used.1, fun y hy => h.used.2 y (hsub.subset hy)⟩
  · rw [hnode]
    exact h.order.sublist hsub
  · rw [hnode, hcur]
    exact fun y hy => h.current y (hsub.subset hy)
  · rw [hnode, htab]
    exact h.tab.free h.nodup hmarked
  · rw [hflags]
    exact fun y hy => h.tmps y ((dropLast_sublist_append as bs x).subset hy)
  · rw [hflags]
    exact h.curdup

theorem Inv.free (h : Inv s size (as ++ x :: bs) curl pending)
    (hmarked : pending = some x → (s.flags x).dup = true ∨ (s.flags x).tmpstore = true)
    (hrest : as ++ bs ≠ [] ∨ curl = []) :
    Inv (freehistnode x s) size (as ++ bs) curl pending := by
  have hx : x ≠ curline := by
    rintro rfl
    exact h.outside (List.mem_append_right as List.mem_cons_self)
  have hcount := h.count
  rw [List.length_append, List.length_cons] at hcount
  have hring := h.ring
  have htop := h.top
  rw [List.append_assoc, List.cons_append] at hring htop
  by_cases hnil : as ++ bs = []
  · have hcurl := hrest.resolve_left (not_not.mpr hnil)
    obtain ⟨has, hbs⟩ := List.append_eq_nil_iff.mp hnil
    rw [has, hbs] at hcount
    rw [freehistnode_last hx hcount]
    refine h.remove hmarked ?_ ?_ ?_ rfl rfl rfl rfl rfl
    · rw [hnil, hcurl]
      exact isRing_nil _
    · rw [hnil, hcurl]
      rfl
    · rw [hnil]
      rfl
  · have hpos := List.length_pos_iff.mpr hnil
    rw [List.length_append] at hpos
    have hne : as ++ (bs ++ curl) ≠ [] := by
      rw [← List.append_assoc]
      exact fun heq => hnil (List.append_eq_nil_iff.mp heq).1
    rw [freehistnode_eq hx (by omega)]
    refine h.remove hmarked ?_ ?_ ?_ rfl rfl rfl rfl rfl
    · rw [List.append_assoc]
      exact hring.unlink hne
    · rw [List.append_assoc]
      exact top_unlinked hring htop hne
    · show s.histlinect - 1 = (as ++ bs).length
      rw [List.length_append]
      omega

theorem Inv.withNode (h : Inv s size xs curl pending) {node' : Ptr → Node} {tab' : Histtab}
    {pending' : Option Ptr} (hnum : ∀ x ∈ xs, (node' x).histnum = (s.node x).histnum)
    (htab : Tabled node' xs pending' tab')
    (htmps : ∀ x ∈ xs.dropLast, (node' x).flags.tmpstore = false)
    (hcurdup : (node' curline).flags.dup = false) :
    Inv { s with node := node', histtab := tab' } size xs curl pending' :=
  { ring := h.ring, top := h.top, curl_eq := h.curl_eq, outside := h.outside, used := h.used
    count := h.count, size_eq := h.size_eq
    order := h.order.imp_of_mem fun {a b} ha hb hab => by
      show (node' a).histnum < (node' b).histnum
      rwa [hnum a ha, hnum b hb]
    current := fun x hx => by
      show (node' x).histnum + _ ≤ _
      rw [hnum x hx]
      exact h.current x hx
    tab := htab, tmps := htmps, curdup := hcurdup }

theorem Inv.numberCurline (h : Inv s size xs curl pending) (histnum : Int) :
    Inv (s.numberCurline histnum) size xs curl pending := by
  have hother (y : Ptr) (hy : y ∈ xs) : Function.update s.node curline
      { s.node curline with histnum := histnum } y = s.node y :=
    Function.update_of_ne (fun heq : y = curline => h.outside (heq ▸ hy)) ..
  refine h.withNode (fun y hy => ?_) (h.tab.congr fun y nam => and_congr_right fun hy => ?_)
    (fun y hy => ?_) ?_
  · rw [hother y hy]
  · unfold Listed
    rw [hother y hy]
  · rw [hother y (List.mem_of_mem_dropLast hy)]
    exact h.tmps y hy
  · rw [Function.update_self]
    exact h.curdup

theorem numberCurline_flags (s : Hist) (histnum : Int) :
    (s.numberCurline histnum).flags = s.flags := by
  funext y
  unfold Hist.numberCurline Hist.setNode Hist.flags
  dsimp only
  by_cases hy : y = curline
  · rw [hy, Function.update_self]
  · rw [Function.update_of_ne hy]

/-! ## `curline` -/

theorem Inv.linkcurline (h : Inv s size xs [] pending) :
    Inv (linkcurline s) size xs [curline] pending := by
  have hring := h.ring
  have htop := h.top
  rw [List.append_nil] at hring htop
  have hcurrent (y : Ptr) (hy : y ∈ xs) :
      (s.node y).histnum + ([curline] : List Ptr).length ≤ s.curhist + 1 := by
    have hle := h.current y hy
    rw [List.length_nil] at hle
    rw [List.length_singleton]
    omega
  unfold HistMemory.linkcurline
  cases hr : s.hist_ring with
  | none =>
    rw [hr] at htop
    have hnil := List.getLast?_eq_none_iff.mp htop.symm
    subst hnil
    have hlinked : Inv { s with
        links := s.links.alone curline, hist_ring := some curline, curhist := s.curhist + 1 }
        size [] [curline] pending :=
      ⟨isRing_alone s.links curline, rfl, .inr rfl, h.outside, h.used, h.count, h.size_eq,
        h.order, hcurrent, h.tab, h.tmps, h.curdup⟩
    exact hlinked.numberCurline _
  | some top =>
    rw [hr] at htop
    have hlinked : Inv { s with
        links := s.links.insert top curline, hist_ring := some curline, curhist := s.curhist + 1 }
        size xs [curline] pending :=
      ⟨hring.insert htop.symm h.outside, List.getLast?_concat.symm, .inr rfl, h.outside, h.used,
        h.count, h.size_eq, h.order, hcurrent, h.tab, h.tmps, h.curdup⟩
    exact hlinked.numberCurline _

theorem linkcurline_flags (s : Hist) : (linkcurline s).flags = s.flags := by
  unfold HistMemory.linkcurline
  cases s.hist_ring with
  | none => exact numberCurline_flags _ _
  | some top => exact numberCurline_flags _ _

theorem Inv.unlinkcurline (h : Inv s size xs [curline] pending) :
    Inv (unlinkcurline s) size xs [] pending := by
  have htop : s.hist_ring = some curline := by
    rw [h.top, List.getLast?_concat]
  have hring := h.ring
  have hnew : IsRing (s.links.unlink curline) xs ∧
      (if s.histlinect = 0 then none else some ((s.links.unlink curline).up curline)) =
        xs.getLast? := by
    rcases List.eq_nil_or_concat xs with rfl | ⟨ys, a, rfl⟩
    · exact ⟨isRing_nil _, if_pos h.count⟩
    · rw [List.concat_eq_append] at hring ⊢
      have hcount := h.count
      rw [List.length_concat] at hcount
      have hgone : IsRing (s.links.unlink curline) (ys ++ [a] ++ []) := hring.unlink (by simp)
      rw [List.append_nil] at hgone
      refine ⟨hgone, ?_⟩
      rw [if_neg (by omega), Links.unlink_up_self, hring.up_of_concat, List.getLast?_concat]
  unfold HistMemory.unlinkcurline
  dsimp only
  rw [if_pos htop]
  refine ⟨?_, ?_, .inl rfl, h.outside, h.used, h.count, h.size_eq, h.order, fun y hy => ?_,
    h.tab, h.tmps, h.curdup⟩
  · rw [List.append_nil]
    exact hnew.1
  · rw [List.append_nil]
    exact hnew.2
  · have hle := h.current y hy
    rw [List.length_singleton] at hle
    show (s.node y).histnum + (0 : Nat) ≤ s.curhist - 1
    omega

end

/-! ## Filling an entry

A new text is put into the table.  Then either an older entry with that text is marked, or the new
one is. -/

section

variable {s : Hist} {size : Nat} {xs curl : List Ptr} {he : Ptr}

theorem Inv.notMem (h : Inv s size (xs ++ [he]) curl (some he)) : he ∉ xs := fun hmem =>
  (List.nodup_append.mp h.nodup).2.2 he hmem he List.mem_cons_self rfl

/-- What `addhistnode` does to an entry that is not marked. -/
inductive Added (s s' : Hist) (size : Nat) (xs curl : List Ptr) (he : Ptr) : Prop where
  /-- The entry is in the table. -/
  | taken (ys : List Ptr) (sub : ys.Sublist xs) (inv : Inv s' size (ys ++ [he]) curl none)
      (flags : (s'.flags he).dup = false ∧ (s'.flags he).tmpstore = false)
  /-- There is an older entry with the text. -/
  | refused (ne : xs ≠ []) (inv : Inv s' size (xs ++ [he]) curl (some he))
      (dup : (s'.flags he).dup = true) (same : ∀ x ∈ xs, s'.flags x = s.flags x)
      (read : (s.flags he).makeunique = true ∨ (s.flags he).foreign = true)

theorem notMem_curline (h : Inv s size (xs ++ [he]) curl (some he)) : curline ≠ he := fun heq =>
  h.outside (heq ▸ List.mem_append_right xs List.mem_cons_self)

theorem Inv.add (h : Inv s size (xs ++ [he]) curl (some he)) {node' : Ptr → Node}
    (hhe : (node' he).nam = (s.node he).nam ∧ (node' he).histnum = (s.node he).histnum)
    (hflags : (node' he).flags.dup = false ∧ (node' he).flags.tmpstore = false)
    (hrest : ∀ y ∈ xs, (node' y).nam = (s.node y).nam ∧
      (node' y).histnum = (s.node y).histnum ∧
      (node' y).flags.tmpstore = (s.node y).flags.tmpstore ∧
      ((node' y).flags.dup = false ↔ (s.node y).flags.dup = false ∧
        ∀ old, (History.addhashnode2 s.histtab (s.node he).nam he).1 = some old → old.2 ≠ y))
    (hcurdup : (node' curline).flags.dup = false) :
    Inv { s with
      node := node', histtab := (History.addhashnode2 s.histtab (s.node he).nam he).2 }
      size (xs ++ [he]) curl none := by
  have htmps := h.tmps
  rw [List.dropLast_concat] at htmps
  refine h.withNode (fun y hy => ?_) (h.tab.add hhe.1.symm hflags fun y hy => ?_) (fun y hy => ?_)
    hcurdup
  · rcases List.mem_append.mp hy with hy | hy
    · exact (hrest y hy).2.1
    · rw [List.mem_singleton.mp hy]
      exact hhe.2
  · obtain ⟨hnam, -, htmp, hdup⟩ := hrest y hy
    exact ⟨hnam, htmp, hdup⟩
  · rw [List.dropLast_concat] at hy
    exact (hrest y hy).2.2.1.trans (htmps y hy)

theorem Inv.addhistnode (h : Inv s size (xs ++ [he]) curl (some he))
    (hflags : (s.flags he).dup = false ∧ (s.flags he).tmpstore = false) :
    Added s (addhistnode he s) size xs curl he := by
  have hmem := h.notMem
  have hother (y : Ptr) (n : Node) (hy : y ∈ xs) : Function.update s.node he n y = s.node y :=
    Function.update_of_ne (fun heq : y = he => hmem (heq ▸ hy)) ..
  have hcur (n : Node) : Function.update s.node he n curline = s.node curline :=
    Function.update_of_ne (notMem_curline h) ..
  unfold HistMemory.addhistnode
  dsimp only
  cases hold : (History.addhashnode2 s.histtab (s.node he).nam he).1 with
  | none =>
    refine .taken xs (List.Sublist.refl xs) ?_ ?_
    · refine h.add ?_ ?_ (fun y hy => ?_) ?_
      · rw [Function.update_self]
        exact ⟨rfl, rfl⟩
      · rw [Function.update_self]
        exact hflags
      · rw [hother y _ hy, hold]
        exact ⟨rfl, rfl, rfl, (and_iff_left nofun).symm⟩
      · rw [hcur]
        exact h.curdup
    · show (Function.update s.node he _ he).flags.dup = false ∧
        (Function.update s.node he _ he).flags.tmpstore = false
      rw [Function.update_self]
      exact hflags
  | some old =>
    obtain ⟨oldnam, o⟩ := old
    have hpair := (h.tab.mem oldnam o).mp (addhashnode2_found _ _ _ hold).1
    have hohe : o ≠ he := fun heq => hpair.2.1.1 (heq ▸ rfl)
    have hoxs : o ∈ xs := (List.mem_append.mp hpair.1).resolve_right fun h =>
      hohe (List.mem_singleton.mp h)
    have hocurl : curline ≠ o := fun heq => h.outside (heq ▸ hpair.1)
    dsimp only
    rw [if_neg hohe]
    -- the new entry is marked, or the older one
    have hrefused : Inv ({ s with
        histtab := (History.addhashnode2 (History.addhashnode2 s.histtab (s.node he).nam he).2
          oldnam o).2 }.setFlags he fun f => { f with dup := true, makeunique := false })
          size (xs ++ [he]) curl (some he) := by
      refine h.withNode (fun y hy => ?_) ((h.tab.restore hold).congr fun y nam =>
        and_congr_right fun hy => ?_) (fun y hy => ?_) ?_
      · by_cases hyhe : y = he
        · rw [hyhe, Function.update_self]
        · rw [Function.update_of_ne hyhe]
      · by_cases hyhe : y = he
        · rw [hyhe]
          exact ⟨fun h => absurd rfl h.1.1, fun h => absurd rfl h.1.1⟩
        · unfold Listed
          rw [Function.update_of_ne hyhe]
      · have hyxs := hy
        rw [List.dropLast_concat] at hyxs
        rw [hother y _ hyxs]
        exact h.tmps y hy
      · rw [hcur]
        exact h.curdup
    have hmarked : Inv ({ s with
        histtab := (History.addhashnode2 s.histtab (s.node he).nam he).2 }.setFlags o
          fun f => { f with dup := true }) size (xs ++ [he]) curl none := by
      refine h.add ?_ ?_ (fun y hy => ?_) ?_
      · rw [Function.update_of_ne hohe.symm]
        exact ⟨rfl, rfl⟩
      · rw [Function.update_of_ne hohe.symm]
        exact hflags
      · rw [hold]
        by_cases hyo : y = o
        · rw [hyo, Function.update_self]
          exact ⟨rfl, rfl, rfl, ⟨nofun, fun h => absurd rfl (h.2 _ rfl)⟩⟩
        · rw [Function.update_of_ne hyo]
          refine ⟨rfl, rfl, rfl, ⟨fun hdup => ⟨hdup, fun old heq => ?_⟩, fun h => h.1⟩⟩
          rw [← Option.some.inj heq]
          exact fun heq => hyo heq.symm
      · rw [Function.update_of_ne hocurl]
        exact h.curdup
    have hkept : ({ s with
        histtab := (History.addhashnode2 s.histtab (s.node he).nam he).2 }.setFlags o
          fun f => { f with dup := true }).flags he = s.flags he := by
      show (Function.update s.node o _ he).flags = (s.node he).flags
      rw [Function.update_of_ne hohe.symm]
    split_ifs with hunique
    · refine .refused (List.ne_nil_of_mem hoxs) hrefused ?_
        (fun y hy => congrArg Node.flags (hother y _ hy)) ?_
      · show (Function.update s.node he _ he).flags.dup = true
        rw [Function.update_self]
      · rw [Bool.or_eq_true, Bool.and_eq_true] at hunique
        exact hunique.imp_right fun h => h.1
    · obtain ⟨as, bs, rfl⟩ := List.append_of_mem hoxs
      rw [List.append_assoc, List.cons_append] at hmarked
      have hfreed := hmarked.free nofun (.inl (by simp))
      refine .taken (as ++ bs) ((List.sublist_cons_self o bs).append_left as) ?_ ?_
      · rw [List.append_assoc]
        exact hfreed
      · unfold Hist.flags at hkept hflags ⊢
        rw [freehistnode_node, hkept]
        exact hflags
    · exact .taken xs (List.Sublist.refl xs) hmarked (by rw [hkept]; exact hflags)

end

end NextBSD.Zsh.HistMemory
