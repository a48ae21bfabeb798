import NextBSD.Zsh.ParseInv

/-!
# Strings of a finished program

`bld_eprog` copies every string to its place, so that each word is read in the part of the table
that its function gets.
-/

namespace NextBSD.Zsh

def Holds (m : Block) (nodes : List Eccstr) : Prop :=
  ∀ n ∈ nodes, m.bytes n.aoffs n.str.memory.length = n.str.memory

theorem copyEcstr_eq_foldl (t : KeyTree Eccstr) (m : Block) :
    copyEcstr t m =
      (t.nodes.map fun n => (n.aoffs, n.str.memory)).foldl (fun b v => b.overwrite v.1 v.2) m := by
  induction t generalizing m with
  | nil => rfl
  | node left right s ihl ihr =>
    show copyEcstr right (copyEcstr left (m.overwrite s.aoffs s.str.memory)) = _
    rw [ihl, ihr, KeyTree.nodes, List.map_cons, List.map_append, List.foldl_cons,
      List.foldl_append]

theorem holds_copyEcstr {t : KeyTree Eccstr} {ecsoffs ecssub ecnfunc : Nat}
    (h : Strings t.nodes ecsoffs ecssub ecnfunc) (m : Block) : Holds (copyEcstr t m) t.nodes := by
  intro n hn
  rw [copyEcstr_eq_foldl]
  refine Block.bytes_foldl_overwrite (w := (n.aoffs, n.str.memory))
    (.inl (List.mem_map_of_mem hn)) fun v hv => ?_
  obtain ⟨k, hk, rfl⟩ := List.mem_map.mp hv
  rcases h.apart k hk n hn with rfl | hapart
  · exact .inl rfl
  · exact .inr hapart

variable {m : Block} {nodes : List Eccstr} {base hi : Nat}

theorem Coded.reads {slot : Wordcode × CStr} (h : Coded nodes base hi slot) (hm : Holds m nodes)
    (hhi : hi ≤ 2 ^ 30) : reads (m.bytes base (hi - base)) slot = true := by
  obtain ⟨w, s⟩ := slot
  have hmemory : s.memory.length = s.bytes.length + 1 := List.length_append
  refine decide_eq_true ?_
  rcases h with ⟨hshort, hcode⟩ | ⟨n, hn, hstr, hbase, hend, hcode⟩
  · dsimp only at hshort hcode ⊢
    rw [hcode]
    exact ecgetstr_shortCode _ (by omega)
  · dsimp only at hstr hcode ⊢
    rw [hcode]
    rw [hstr] at hend
    refine ecgetstr_longCode (by omega) ?_
    rw [Block.drop_bytes, Block.take_bytes _ _ (by omega), Nat.add_sub_cancel' hbase]
    have hthere := hm n hn
    rwa [hstr] at hthere

theorem allReadable_of_forall {tab : List UInt8} {after : List Wordcode} {items : List Item}
    (h : ∀ it ∈ items, ∀ after, it.readable tab after = true) :
    allReadable tab after items = true := by
  induction items with
  | nil => rfl
  | cons it items ih =>
    show (it.readable tab _ && allReadable tab after items) = true
    rw [h it List.mem_cons_self, ih fun it hit => h it (List.mem_cons_of_mem _ hit)]
    rfl

theorem execfuncdef_words {h : Header} {code after : List Wordcode} {strs : List UInt8}
    (hnum : h.num = h.names.length) (hskip : wcData h.funcdef = h.names.length + 5 + code.length)
    (hfit : h.sbeg + h.nstrs ≤ strs.length) :
    execfuncdef (h.words ++ code ++ after) strs =
      some (h.names.map Prod.fst,
        { npats := h.npats, prog := code, strs := (strs.drop h.sbeg).take h.nstrs }) := by
  have hwords : h.words ++ code ++ after = h.funcdef :: h.num :: (h.names.map Prod.fst ++
      (h.sbeg :: h.nstrs :: h.npats :: h.tracing :: (code ++ after))) := by
    unfold Header.words
    simp only [List.cons_append, List.append_assoc, List.nil_append]
  have hlength : (h.names.map Prod.fst).length = h.num := by rw [List.length_map, hnum]
  rw [hwords]
  unfold execfuncdef
  dsimp only
  rw [List.drop_left' hlength, List.take_left' hlength]
  dsimp only
  rw [if_pos hfit, hskip, hnum, List.take_left' (by omega)]

theorem Item.Good.readable {it : Item} (h : it.Good nodes base hi) (hm : Holds m nodes)
    (hhi : hi ≤ 2 ^ 30) (hdocs : ∀ r, some r ∈ it.marks → r.doc ≠ none) :
    ∀ after, it.readable (m.bytes base (hi - base)) after = true := by
  induction h with
  | word => exact fun _ => rfl
  | str h => exact fun _ => h.reads hm hhi
  | @redir base hi r hdoc hvar =>
    intro _
    have hslots : r.var.toList.all (Zsh.reads (m.bytes base (hi - base))) = true :=
      List.all_eq_true.mpr fun v hv => (hvar v (Option.mem_toList.mp hv)).reads hm hhi
    show Redir.readable _ r = true
    unfold Redir.readable
    rw [hslots, Bool.and_true]
    cases hr : r.doc with
    | none => exact absurd hr (hdocs r List.mem_cons_self)
    | some d =>
      obtain ⟨htext, hraw, hmunged⟩ := hdoc d.1 d.2 hr
      show (_ && _ && _) = true
      rw [htext.reads hm hhi, hraw.reads hm hhi, hmunged.reads hm hhi]
      rfl
  | @func base hi so h body hso hend hsbeg hnum hskip hnames _ ih =>
    intro after
    have htab : ((m.bytes base (hi - base)).drop h.sbeg).take h.nstrs =
        m.bytes so (so + h.nstrs - so) := by
      rw [hsbeg, Block.drop_bytes, Block.take_bytes _ _ (by omega), Nat.add_sub_cancel' hso,
        Nat.add_sub_cancel_left]
    have hfit : so - base + h.nstrs ≤ hi - base := by omega
    have hexec := @execfuncdef_words h (wordsOf body) after (m.bytes base (hi - base)) hnum hskip (by
      rw [Block.length_bytes, hsbeg]
      exact hfit)
    have hnamesRead : h.names.all (Zsh.reads (m.bytes base (hi - base))) = true :=
      List.all_eq_true.mpr fun n hn => (hnames n hn).reads hm hhi
    have hbodyRead : allReadable (m.bytes so (so + h.nstrs - so)) [] body = true :=
      allReadable_of_forall fun it hit => ih it hit (Nat.le_trans hend hhi) fun r hr =>
        hdocs r (List.mem_append_right _ (mem_marksOf.mpr ⟨it, hit, hr⟩))
    rw [Item.readable, hexec, htab]
    dsimp only
    rw [hnamesRead, hbodyRead, decide_eq_true rfl, decide_eq_true rfl]
    rfl

/-- In a run in which the text of each here-document comes in the function body of its
redirection, every string that the parser has stored is read from the program that `bld_eprog`
makes, in the table of the program or of the function body that it is in. -/
theorem bldEprog_readable {st : Parse} (h : Reach (fun st act => act.Meets st) st)
    (hfunctions : st.functions = []) (hhdocs : st.ec.hdocs = []) (raw : Nat → UInt8) :
    (bldEprog st.ec raw).prog = wordsOf st.items ++ [wcbEnd] ∧
      allReadable (bldEprog st.ec raw).strs [wcbEnd] st.items = true := by
  have hinv := h.inv
  have houter := hinv.outer
  have hbuf := hinv.buf
  have hmarked := hinv.marked
  unfold Parse.marks at hmarked
  rw [hfunctions] at houter hbuf hmarked
  rw [hhdocs] at hmarked
  have hbase : st.ec.ecssub = 0 := houter
  refine ⟨?_, allReadable_of_forall fun it hit => ?_⟩
  · show st.ec.ecbuf ++ [wcbEnd] = _
    rw [hbuf]
    rfl
  · have hgood := hinv.good it hit
    rw [hbase] at hgood
    refine hgood.readable (holds_copyEcstr hinv.stored _) hinv.small fun r hr hnone => ?_
    obtain ⟨d, hd, -⟩ := hmarked.waits r (mem_marksOf.mpr ⟨it, hit, hr⟩) hnone
    exact absurd hd List.not_mem_nil

def Parse.run (C : Parse → Act → Prop) [∀ st act, Decidable (C st act)] (acts : List Act) :
    Option Parse :=
  acts.foldlM (fun st act => if C st act then st.step act else none) Parse.start

theorem Reach.foldlM {C : Parse → Act → Prop} [∀ st act, Decidable (C st act)] {acts : List Act}
    {st st' : Parse} (h : Reach C st)
    (hrun : acts.foldlM (fun st act => if C st act then st.step act else none) st = some st') :
    Reach C st' := by
  induction acts generalizing st with
  | nil =>
    cases hrun
    exact h
  | cons act acts ih =>
    rw [List.foldlM_cons] at hrun
    obtain ⟨next, hnext, hrest⟩ := Option.bind_eq_some_iff.mp hrun
    obtain ⟨hC, hstep⟩ := Option.ite_none_right_eq_some.mp hnext
    exact ih (.step h hC hstep) hrest

instance (st : Parse) (act : Act) : Decidable (act.Meets st) :=
  inferInstanceAs (Decidable (_ ∧ _ ∧ _))

def finished (st : Parse) : Bool := st.functions.isEmpty && st.ec.hdocs.isEmpty

def commandWords : List Act := [.ecadd 0, .ecadd 0, .ecadd 0, .ecadd 0]

/-- `f() { sort <<EOF; }`, with the text in the next lines.  The words of lists, pipelines and
simple commands are not filled in. -/
def heredocInFunction : List Act :=
  let sort : CStr := ⟨[115, 111, 114, 116], by decide⟩
  let eof : CStr := ⟨[69, 79, 70], by decide⟩
  commandWords ++ [.ecstr ⟨[102], by decide⟩, .ecispace 4 [0], .functionStart 1] ++
    commandWords ++ [.ecstr sort, .heredoc 3 10 0 eof none (0, 0, 0),
      .gethere ⟨[116, 101, 120, 116, 10], by decide⟩ eof, .functionEnd 0]

theorem bldEprog_readable_inFunction :
    ∃ st, finished st = true ∧
      (bldEprog st.ec fun _ => 0).prog = wordsOf st.items ++ [wcbEnd] ∧
      allReadable (bldEprog st.ec fun _ => 0).strs [wcbEnd] st.items = true := by
  obtain ⟨st, hrun, hfinished⟩ := Option.any_eq_true _ _ |>.mp
    (show (Parse.run (fun st act => act.Meets st) heredocInFunction).any finished = true by decide +kernel)
  obtain ⟨hfunctions, hhdocs⟩ := (Bool.and_eq_true _ _).mp hfinished
  exact ⟨st, hfinished, bldEprog_readable (Reach.foldlM .start hrun)
    (List.isEmpty_iff.mp hfunctions) (List.isEmpty_iff.mp hhdocs) fun _ => 0⟩

/-- `sort <<EOF; f() { :; }`, with the text in the next lines.  The token after the brace is the
newline, and it is read before the base of the string table is set back. -/
def heredocBeforeFunction : List Act :=
  let sort : CStr := ⟨[115, 111, 114, 116], by decide⟩
  let eof : CStr := ⟨[69, 79, 70], by decide⟩
  commandWords ++ [.ecstr sort, .heredoc 3 10 0 eof none (0, 0, 0)] ++
    commandWords ++ [.ecstr ⟨[102], by decide⟩, .ecispace 10 [0], .functionStart 1] ++
    commandWords ++ [.ecstr ⟨[58], by decide⟩, .ecdel 1,
      .gethere ⟨[116, 101, 120, 116, 10], by decide⟩ eof, .functionEnd 0]

/-- The text of that here-document is not read back. -/
theorem not_bldEprog_readable :
    ∃ st, Reach (fun _ _ => True) st ∧ finished st = true ∧
      allReadable (bldEprog st.ec fun _ => 0).strs [wcbEnd] st.items = false := by
  obtain ⟨st, hrun, hst⟩ := Option.any_eq_true _ _ |>.mp
    (show (Parse.run (fun _ _ => True) heredocBeforeFunction).any (fun st => finished st &&
      !allReadable (bldEprog st.ec fun _ => 0).strs [wcbEnd] st.items) = true by decide +kernel)
  obtain ⟨hfinished, hread⟩ := (Bool.and_eq_true _ _).mp hst
  exact ⟨st, Reach.foldlM .start hrun, hfinished, Bool.not_eq_true' _ |>.mp hread⟩

end NextBSD.Zsh
