import NextBSD.Zsh.HistoryRead

/-!
# What a session adds to the file

After `hend` has read the file, the new command is the only entry of the ring that is not in it.
-/

namespace NextBSD.Zsh.History

variable {σ : Type}

/-! ## The entries that may be written -/

theorem mem_gethistent {ring : List Histent} {ev : Nat} {e : Histent}
    (h : e ∈ gethistent ring ev) : e ∈ ring := by
  unfold gethistent at h
  split at h
  · split at h
    · exact (List.dropWhile_sublist _).subset h
    · have habove : ∀ d ∈ (ring.reverse.takeWhile fun he => decide (ev < he.histnum)).reverse,
          d ∈ ring := fun d hd =>
        List.mem_reverse.mp ((List.takeWhile_sublist _).subset (List.mem_reverse.mp hd))
      have hbelow : ∀ d ∈ ring.reverse.dropWhile fun he => decide (ev < he.histnum),
          d ∈ ring := fun d hd => List.mem_reverse.mp ((List.dropWhile_sublist _).subset hd)
      dsimp only at h
      split at h
      · rename_i he rest heq
        split at h
        · rcases List.mem_cons.mp h with rfl | h
          · exact hbelow e (heq ▸ List.mem_cons_self)
          · exact habove e h
        · exact habove e h
      · exact habove e h
  · exact absurd h List.not_mem_nil

theorem gethistent_concat (base : List Histent) (he : Histent) {ev : Nat} (h : ev ≤ he.histnum) :
    ∃ pre, gethistent (base ++ [he]) ev = pre ++ [he] ∧ ∀ e ∈ pre, e ∈ base := by
  unfold gethistent
  rw [List.getLast?_concat]
  obtain ⟨oldest, holdest⟩ : ∃ oldest, (base ++ [he]).head? = some oldest := by
    cases base with
    | nil => exact ⟨he, rfl⟩
    | cons e base => exact ⟨e, rfl⟩
  rw [holdest]
  dsimp only
  by_cases hnear : (ev : Int) - oldest.histnum < (he.histnum : Int) - ev
  · rw [if_pos hnear]
    have htop : [he].dropWhile (fun he => he.histnum < ev) = [he] := by
      rw [List.dropWhile_cons_of_neg]
      rw [decide_eq_true_iff]
      omega
    rw [List.dropWhile_append]
    split
    · rename_i hnil
      exact ⟨[], htop, fun e he => absurd he List.not_mem_nil⟩
    · exact ⟨_, rfl, fun e hmem => (List.dropWhile_sublist _).subset hmem⟩
  · rw [if_neg hnear, List.reverse_append, List.reverse_singleton, List.singleton_append]
    by_cases hlt : ev < he.histnum
    · have hdec : decide (ev < he.histnum) = true := decide_eq_true hlt
      have htake := List.takeWhile_cons_of_pos (p := fun he : Histent => decide (ev < he.histnum))
        (l := base.reverse) hdec
      have hdrop := List.dropWhile_cons_of_pos (p := fun he : Histent => decide (ev < he.histnum))
        (l := base.reverse) hdec
      rw [htake, hdrop, List.reverse_cons]
      have habove : ∀ e ∈ (base.reverse.takeWhile fun he => decide (ev < he.histnum)).reverse,
          e ∈ base := fun e hmem =>
        List.mem_reverse.mp ((List.takeWhile_sublist _).subset (List.mem_reverse.mp hmem))
      split
      · rename_i d rest heq
        have hd : d ∈ base :=
          List.mem_reverse.mp ((List.dropWhile_sublist _).subset (heq ▸ List.mem_cons_self))
        split
        · refine ⟨_, (List.cons_append).symm, fun e hmem => ?_⟩
          rcases List.mem_cons.mp hmem with rfl | hmem
          · exact hd
          · exact habove e hmem
        · exact ⟨_, rfl, habove⟩
      · exact ⟨_, rfl, habove⟩
    · have hdec : ¬decide (ev < he.histnum) = true := by
        rw [decide_eq_true_iff]
        exact hlt
      have htake := List.takeWhile_cons_of_neg (p := fun he : Histent => decide (ev < he.histnum))
        (l := base.reverse) hdec
      have hdrop := List.dropWhile_cons_of_neg (p := fun he : Histent => decide (ev < he.histnum))
        (l := base.reverse) hdec
      rw [htake, hdrop]
      dsimp only
      rw [if_pos (by omega)]
      exact ⟨[], rfl, fun e he => absurd he List.not_mem_nil⟩

section

variable {s : Session} {base tmps : List Histent} {last : Nat} {own : σ}
  {ftell : Nat → Nat → Nat}

theorem writeLoop_saved (ftell : Nat → Nat → Nat) (opened : Nat) (s : Session) (out : Bytes)
    (start : Option Bytes) {l : List Histent}
    (h : ∀ e ∈ l, (e.tmpstore || (e.old || e.nowrite)) = true) :
    writeLoop ftell opened s out start l = (s, out, start) := by
  induction l with
  | nil => rfl
  | cons e l ih =>
    unfold writeLoop
    by_cases hnum : s.curhist < e.histnum
    · rw [if_pos hnum]
    · rw [if_neg hnum, if_pos (h e List.mem_cons_self),
        ih fun d hd => h d (List.mem_cons_of_mem e hd)]

theorem writeLoop_pre (opened : Nat) (out : Bytes) (start : Option Bytes) {pre : List Histent}
    (h : ∀ e ∈ pre, (e.tmpstore || (e.old || e.nowrite)) = true ∧ e.histnum ≤ s.curhist)
    (l : List Histent) :
    writeLoop ftell opened s out start (pre ++ l) = writeLoop ftell opened s out start l := by
  induction pre with
  | nil => rfl
  | cons e pre ih =>
    have he := h e List.mem_cons_self
    rw [List.cons_append, writeLoop, if_neg (Nat.not_lt.mpr he.2), if_pos he.1,
      ih fun d hd => h d (List.mem_cons_of_mem e hd)]

theorem skipOld_spec {l : List Histent} (h : Ring s base tmps last)
    (hl : ∀ e ∈ l, e ∈ base ∨ e.old = false) :
    Ring (skipOld s l) base tmps last ∧
      (skipOld s l).lasthist =
        { s.lasthist with next_write_ev := (skipOld s l).lasthist.next_write_ev } := by
  unfold skipOld
  cases hlast : (l.takeWhile (·.old)).getLast? with
  | none => exact ⟨h, rfl⟩
  | some e =>
    have hmem := List.mem_of_getLast? hlast
    have hold : e.old = true := List.mem_takeWhile_imp (p := fun e : Histent => e.old) hmem
    have hbase : e ∈ base := by
      rcases hl e ((List.takeWhile_sublist _).subset hmem) with hbase | hnew
      · exact hbase
      · exact absurd (hnew.symm.trans hold) Bool.false_ne_true
    exact ⟨h.remember _ (Nat.succ_le_succ (h.permanent e hbase).2), rfl⟩

theorem Current.remember {log : List (Logged σ)} (h : Current own s base tmps last log) {n : Nat}
    (hn : n ≤ last + 1) :
    Current own { s with lasthist := { s.lasthist with next_write_ev := n } } base tmps last log where
  ring := h.ring.remember _ hn
  saved := h.saved
  lists := h.lists
  knows := ⟨h.knows.last, h.knows.fsiz⟩

theorem Current.skipOld {log : List (Logged σ)} (h : Current own s base tmps last log)
    {l : List Histent} (hl : ∀ e ∈ l, e ∈ base ∨ e.old = false) :
    Current own (skipOld s l) base tmps last log := by
  obtain ⟨hring, hlasthist⟩ := skipOld_spec h.ring hl
  have hsame : History.skipOld s l = { s with lasthist :=
      { s.lasthist with next_write_ev := (History.skipOld s l).lasthist.next_write_ev } } := by
    rw [← hlasthist]
    unfold History.skipOld
    split <;> rfl
  rw [hsame]
  exact h.remember hring.next_le

theorem savehistfile_eq (mtime : Int) (file : HistFile) {s' : Session} {out : Bytes}
    {start : Option Bytes}
    (h : writeLoop ftell file.bytes.length
      (skipOld s (gethistent s.ring s.lasthist.next_write_ev)) [] none
        ((gethistent s.ring s.lasthist.next_write_ev).dropWhile (·.old)) = (s', out, start)) :
    savehistfile ftell mtime s file = finishSave mtime s' file out start := by
  unfold savehistfile
  dsimp only
  rw [h]

theorem savehistfile_saved (ftell : Nat → Nat → Nat) {log : List (Logged σ)} (h : Current own s base tmps last log)
    (mtime : Int) (file : HistFile) :
    ∃ s', savehistfile ftell mtime s file = (s', file) ∧ Current own s' base tmps last log := by
  have hmem : ∀ e ∈ gethistent s.ring s.lasthist.next_write_ev, e ∈ base ∨ e ∈ tmps :=
    fun e he => List.mem_append.mp (h.ring.ring_eq ▸ mem_gethistent he)
  have hold : ∀ e ∈ gethistent s.ring s.lasthist.next_write_ev, e ∈ base ∨ e.old = false :=
    fun e he => (hmem e he).imp_right fun htmp => (h.ring.temporary e htmp).2
  have hloop := writeLoop_saved ftell file.bytes.length
    (skipOld s (gethistent s.ring s.lasthist.next_write_ev)) [] none
    (l := (gethistent s.ring s.lasthist.next_write_ev).dropWhile (·.old)) (fun e he => by
      rcases hmem e ((List.dropWhile_sublist _).subset he) with hbase | htmp
      · rw [h.saved e hbase, Bool.or_true]
      · rw [(h.ring.temporary e htmp).1, Bool.true_or])
  rw [savehistfile_eq mtime file hloop]
  exact ⟨_, rfl, h.skipOld hold⟩

theorem savehistfile_new (ftell : Nat → Nat → Nat) {he : Histent} (h : Ring s (base ++ [he]) [] he.histnum)
    (hsaved : Saved base) (hold : he.old = false) (hnowrite : he.nowrite = false)
    (hftim : he.ftim = 0) (hnext : s.lasthist.next_write_ev ≤ he.histnum) (mtime : Int)
    (file : HistFile) :
    savehistfile ftell mtime s file =
      ({ s with
          ring := (base ++ [he]).map (markOld he.addr)
          lasthist :=
            { text := some he.nam, stim := he.stim, mtim := mtime, fpos := ftell file.bytes.length 0
              fsiz := (file.bytes ++ histLine he.stim 0 he.nam).length
              next_write_ev := he.histnum + 1 } },
        { bytes := file.bytes ++ histLine he.stim 0 he.nam, mtime := mtime }) := by
  have hring : s.ring = base ++ [he] := h.ring_eq.trans (List.append_nil _)
  have htmp : he.tmpstore = false :=
    (h.permanent he (List.mem_append_right base List.mem_cons_self)).1
  obtain ⟨pre, hpre, hmem⟩ := gethistent_concat base he hnext
  rw [← hring] at hpre
  have hdrop : (pre ++ [he]).dropWhile (fun e => e.old) =
      pre.dropWhile (fun e => e.old) ++ [he] := by
    have hone : [he].dropWhile (fun e => e.old) = [he] :=
      List.dropWhile_cons_of_neg (by rw [hold]; exact Bool.false_ne_true)
    rw [List.dropWhile_append, hone]
    split
    · rename_i hnil
      rw [List.isEmpty_iff.mp hnil]
      rfl
    · rfl
  have hskip := skipOld_spec (l := pre ++ [he]) h fun e he' => by
    rcases List.mem_append.mp he' with he' | he'
    · exact Or.inl (List.mem_append_left _ (hmem e he'))
    · rw [List.mem_singleton.mp he']
      exact Or.inr hold
  have hsame : skipOld s (pre ++ [he]) = { s with lasthist :=
      { s.lasthist with next_write_ev := (skipOld s (pre ++ [he])).lasthist.next_write_ev } } := by
    rw [← hskip.2]
    unfold skipOld
    split <;> rfl
  have hcur : s.curhist = he.histnum := h.curhist_eq
  have hloop : writeLoop ftell file.bytes.length (skipOld s (pre ++ [he])) [] none
      (pre.dropWhile (fun e => e.old) ++ [he]) =
        ({ s with
            ring := (base ++ [he]).map (markOld he.addr)
            lasthist := { s.lasthist with
              next_write_ev := he.histnum + 1, fpos := ftell file.bytes.length 0,
              stim := he.stim } },
          histLine he.stim 0 he.nam, some he.nam) := by
    rw [hsame, writeLoop_pre]
    · unfold writeLoop
      dsimp only
      rw [if_neg (by omega), htmp, hold, hnowrite, Bool.false_or, Bool.false_or,
        if_neg Bool.false_ne_true, hring, hftim]
      rfl
    · intro e he'
      have hbase := hmem e ((List.dropWhile_sublist _).subset he')
      refine ⟨by rw [hsaved e hbase, Bool.or_true], ?_⟩
      show e.histnum ≤ s.curhist
      rw [hcur]
      exact (h.permanent e (List.mem_append_left _ hbase)).2
  rw [← hdrop, ← hpre] at hloop
  exact savehistfile_eq mtime file hloop

/-! ## `hend` -/

theorem dropTemporary_spec {log : List (Logged σ)} (h : Current own s base tmps last log) :
    ∃ tmps', Current own (dropTemporary s) base tmps' last log := by
  unfold dropTemporary
  cases hfind : s.ring.reverse.find? fun he => !he.foreign with
  | none => exact ⟨tmps, h⟩
  | some he =>
    dsimp only
    by_cases htmp : he.tmpstore = true
    · have hmem : he ∈ base ++ tmps :=
        h.ring.ring_eq ▸ List.mem_reverse.mp (List.mem_of_find?_eq_some hfind)
      have hone : tmps = [he] := by
        rcases List.mem_append.mp hmem with hmem | hmem
        · exact absurd ((h.ring.permanent he hmem).1.symm.trans htmp) Bool.false_ne_true
        · exact h.ring.tmps_eq hmem
      subst hone
      rw [if_pos htmp, if_pos (by rw [h.ring.ring_eq, List.getLast?_concat])]
      exact ⟨[], { ring := h.ring.free, saved := h.saved, lists := h.lists, knows := h.knows }⟩
    · rw [if_neg htmp]
      exact ⟨tmps, h⟩

def lineEntry (s : Session) (save : Save) (stim : Int) (chline : Bytes) (last : Nat) : Histent :=
  newEntry s
    { nam := chline, stim := stim, ftim := 0, old := false, foreign := false
      tmpstore := decide (save = .temporary), nowrite := decide (save = .noWrite) } last

theorem addLine_eq (h : Ring s base tmps last) (save : Save) (stim : Int) (chline : Bytes) :
    addLine save stim s chline =
      if save = .temporary then
        pushed s base (lineEntry s save stim chline last) last
      else
        addhistnode (pushed s base (lineEntry s save stim chline last) last)
          (lineEntry s save stim chline last) := by
  unfold addLine
  rw [prepnexthistent_eq h]
  rfl

theorem addLine_taken (h : Ring s base tmps last) (save : Save) (hsave : save ≠ .temporary)
    (stim : Int) (chline : Bytes) :
    Taken (addLine save stim s chline) s base (lineEntry s save stim chline last) last := by
  have htmp : (lineEntry s save stim chline last).tmpstore = false := decide_eq_false hsave
  rw [addLine_eq h, if_neg hsave]
  rcases addhistnode_pushed h rfl rfl htmp with htaken | ⟨-, hforeign, -⟩
  · exact htaken
  · exact absurd hforeign Bool.false_ne_true

theorem addLine_temporary {log : List (Logged σ)} (h : Current own s base tmps last log)
    (stim : Int) (chline : Bytes) :
    ∃ tmps', Current own (addLine .temporary stim s chline) base tmps' last log := by
  rw [addLine_eq h.ring, if_pos rfl]
  refine ⟨[_], ⟨h.ring.pushTmp rfl rfl rfl, h.saved, h.lists⟩, ?_⟩
  show Knows (dropTop s).lasthist log
  rw [h.ring.dropTop.2.1]
  exact h.knows

theorem addLine_noWrite {log : List (Logged σ)} (h : Current own s base tmps last log)
    (stim : Int) (chline : Bytes) :
    ∃ base' last', Current own (addLine .noWrite stim s chline) base' [] last' log := by
  obtain ⟨hlasthist, base', hshown, hsaved, hring⟩ := addLine_taken h.ring .noWrite
    (by decide) stim chline
  refine ⟨_, _, ⟨hring, fun e hmem => ?_, ?_⟩, ?_⟩
  · rcases List.mem_append.mp hmem with hmem | hmem
    · exact hsaved h.saved e hmem
    · rw [List.mem_singleton.mp hmem]
      rfl
  · rw [List.map_append, hshown]
    exact Lists.kept _ h.lists rfl
  · rw [hlasthist]
    exact h.knows

/-- The position of a stream that was opened to append: what it writes goes to the end of the
file. -/
def AppendsAtEnd (ftell : Nat → Nat → Nat) : Prop :=
  ∀ opened written, ftell opened written = opened + written

theorem save_normal {log : List (Logged σ)} (hftell : AppendsAtEnd ftell)
    (h : Current own s base tmps last log) (stim mtime : Int) (chline : HistText)
    (file : HistFile) (hfile : file.bytes = fileOf log) :
    ∃ s' file' base' last',
      savehistfile ftell mtime (addLine .normal stim s chline.bytes) file = (s', file') ∧
        Current own s' base' [] last' (log ++ [⟨some own, chline, stim⟩]) ∧
        file'.bytes = fileOf (log ++ [⟨some own, chline, stim⟩]) := by
  obtain ⟨hlasthist, base', hshown, hsaved, hring⟩ := addLine_taken h.ring .normal
    (by decide) stim chline.bytes
  have hbase : Saved base' := hsaved h.saved
  have hnext : (addLine .normal stim s chline.bytes).lasthist.next_write_ev ≤ last + 1 := by
    rw [hlasthist]
    exact h.ring.next_le
  have hsave := savehistfile_new ftell hring hbase rfl rfl rfl hnext mtime file
  have hbytes : file.bytes ++ histLine stim 0 chline.bytes =
      fileOf (log ++ [⟨some own, chline, stim⟩]) := by
    rw [fileOf_append, fileOf_singleton, hfile]
    rfl
  have hold := keeps_markOld (lineEntry s .normal stim chline.bytes last).addr
  have hmap := hring.map hold
  rw [hring.ring_eq, List.append_nil] at hmap
  refine ⟨_, _, _, last + 1, hsave, ⟨⟨hmap.remember _ (Nat.le_refl _), ?_, ?_⟩, ?_⟩, hbytes⟩
  · intro e hmem
    obtain ⟨d, hd, rfl⟩ := List.mem_map.mp hmem
    unfold markOld
    by_cases heq : d.addr = (lineEntry s .normal stim chline.bytes last).addr
    · rw [if_pos heq, Bool.true_or]
    · rw [if_neg heq]
      rcases List.mem_append.mp hd with hd | hd
      · exact hbase d hd
      · exact absurd (congrArg Histent.addr (List.mem_singleton.mp hd)) heq
  · rw [hold.map_shown, List.map_append, hshown]
    exact Lists.listed _ ⟨some own, chline, stim⟩ h.lists rfl rfl fun _ => rfl
  · refine ⟨Or.inr ⟨log, ⟨some own, chline, stim⟩, rfl, rfl, ?_, rfl⟩, Or.inr ?_⟩
    · show ftell file.bytes.length 0 = _
      rw [hftell, hfile, Nat.add_zero]
    · exact congrArg List.length hbytes

def savedLine (own : σ) (c : Completion) : List (Logged σ) :=
  if c.saved.1 = .normal then [⟨some own, c.saved.2, c.stim⟩] else []

theorem savedLine_own {c : Completion} {l : Logged σ} (h : l ∈ savedLine own c) :
    l.sid = some own := by
  unfold savedLine at h
  split at h
  · rw [List.mem_singleton.mp h]
  · exact absurd h List.not_mem_nil

theorem hend_spec {log : List (Logged σ)} (hftell : AppendsAtEnd ftell)
    (h : Follows own log s) (c : Completion) (file : HistFile) (hfile : file.bytes = fileOf log) :
    ∃ s' file' base' tmps' last', hend ftell c s file = (s', file') ∧
      Current own s' base' tmps' last' (log ++ savedLine own c) ∧
      file'.bytes = fileOf (log ++ savedLine own c) := by
  obtain ⟨base, tmps, last, hread⟩ := readhistfile_fast h c.tim file hfile
  have hdrop : ∃ tmps', Current own
      (if c.saved.1 ≠ .no ∨ c.saved.2.bytes.head? = some 32 then
        dropTemporary (readhistfile true c.tim s file)
      else readhistfile true c.tim s file) base tmps' last log := by
    split
    · exact dropTemporary_spec hread
    · exact ⟨tmps, hread⟩
  obtain ⟨tmps', hdrop⟩ := hdrop
  unfold hend savedLine
  dsimp only
  generalize hs : (if c.saved.1 ≠ .no ∨ c.saved.2.bytes.head? = some 32 then
    dropTemporary (readhistfile true c.tim s file) else readhistfile true c.tim s file) = s1
  rw [hs] at hdrop
  cases hsave : c.saved.1 with
  | no =>
    obtain ⟨s', heq, hcurrent⟩ := savehistfile_saved ftell hdrop c.mtime file
    exact ⟨s', file, base, tmps', last, heq, (List.append_nil log).symm ▸ hcurrent,
      (List.append_nil log).symm ▸ hfile⟩
  | normal =>
    obtain ⟨s', file', base', last', heq, hcurrent, hbytes⟩ :=
      save_normal hftell hdrop c.stim c.mtime c.saved.2 file hfile
    exact ⟨s', file', base', [], last', heq, hcurrent, hbytes⟩
  | temporary =>
    obtain ⟨tmps2, hadd⟩ := addLine_temporary hdrop c.stim c.saved.2.bytes
    obtain ⟨s', heq, hcurrent⟩ := savehistfile_saved ftell hadd c.mtime file
    exact ⟨s', file, base, tmps2, last, heq, (List.append_nil log).symm ▸ hcurrent,
      (List.append_nil log).symm ▸ hfile⟩
  | noWrite =>
    obtain ⟨base', last', hadd⟩ := addLine_noWrite hdrop c.stim c.saved.2.bytes
    obtain ⟨s', heq, hcurrent⟩ := savehistfile_saved ftell hadd c.mtime file
    exact ⟨s', file, base', [], last', heq, (List.append_nil log).symm ▸ hcurrent,
      (List.append_nil log).symm ▸ hfile⟩

end

end NextBSD.Zsh.History
