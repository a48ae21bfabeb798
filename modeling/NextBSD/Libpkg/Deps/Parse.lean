import NextBSD.Libpkg.Deps.Formula

/-!
# What the automaton accepts

Each token is a scanning loop between two states, and the loop ends where the grammar says.
-/

namespace NextBSD.Libpkg.Deps

def Ends (st : Parser) (out : Step) : Prop := ∃ rounds, run rounds st = some out

def Leads (st st' : Parser) : Prop := ∀ out, Ends st out ↔ Ends st' out

def Fails (st : Parser) : Prop := ∀ out, Ends st out ↔ out = .failed

def Accepts (st : Parser) (res : List (List FormulaItem)) : Prop :=
  ∀ out, Ends st out ↔ out = .finished res

theorem Leads.trans {a b c : Parser} (h : Leads a b) (h' : Leads b c) : Leads a c :=
  fun out => (h out).trans (h' out)

theorem Leads.fails {a b : Parser} (h : Leads a b) (hb : Fails b) : Fails a :=
  fun out => (h out).trans (hb out)

theorem Leads.accepts {a b : Parser} {res : List (List FormulaItem)} (h : Leads a b)
    (hb : Accepts b res) : Accepts a res :=
  fun out => (h out).trans (hb out)

theorem leads_of_step {st st' : Parser} (h : step st = .running st') : Leads st st' := by
  intro out
  constructor
  · rintro ⟨_ | rounds, hr⟩
    · cases hr
    · unfold run at hr
      rw [h] at hr
      exact ⟨rounds, hr⟩
  · rintro ⟨rounds, hr⟩
    refine ⟨rounds + 1, ?_⟩
    unfold run
    rw [h]
    exact hr

theorem ends_of_step {st : Parser} {out : Step} (h : step st = out)
    (hout : ∀ st', out ≠ .running st') (out' : Step) : Ends st out' ↔ out' = out := by
  have hrun : ∀ rounds, run (rounds + 1) st = some out := by
    intro rounds
    unfold run
    rw [h]
    cases out with
    | running st' => exact absurd rfl (hout st')
    | failed => rfl
    | finished => rfl
  constructor
  · rintro ⟨_ | rounds, hr⟩
    · cases hr
    · rw [hrun] at hr
      exact (Option.some.inj hr).symm
  · rintro rfl
    exact ⟨1, hrun 0⟩

theorem fails_of_error {st : Parser} (h : st.state = .error) : Fails st := by
  refine ends_of_step ?_ (fun _ h => Step.noConfusion h)
  unfold step
  rw [h]

theorem fails_of_step {st st' : Parser} (h : step st = .running st') (h' : st'.state = .error) :
    Fails st :=
  (leads_of_step h).fails (fails_of_error h')

/-! The scanning loops. -/

theorem head_dropWhile {p : Char → Bool} {s t : List Char} {c : Char}
    (h : s.dropWhile p = c :: t) : ¬ p c = true := by
  have hhead := List.head?_dropWhile_not p s
  rw [h] at hhead
  simpa using hhead

theorem leads_scan (st : Parser) (p : Char → Bool)
    (hstep : ∀ c rest tok, p c = true →
      step { st with rest := c :: rest, tok := tok } =
        .running { st with rest := rest, tok := tok ++ [c] }) :
    ∀ rest tok, Leads { st with rest := rest, tok := tok }
      { st with rest := rest.dropWhile p, tok := tok ++ rest.takeWhile p } := by
  intro rest
  induction rest with
  | nil =>
    intro tok
    rw [List.dropWhile_nil, List.takeWhile_nil, List.append_nil]
    exact fun _ => Iff.rfl
  | cons c rest ih =>
    intro tok
    by_cases hc : p c = true
    · rw [List.dropWhile_cons_of_pos hc, List.takeWhile_cons_of_pos hc]
      have happend : tok ++ c :: rest.takeWhile p = tok ++ [c] ++ rest.takeWhile p := by simp
      rw [happend]
      exact (leads_of_step (hstep c rest tok hc)).trans (ih (tok ++ [c]))
    · rw [List.dropWhile_cons_of_neg hc, List.takeWhile_cons_of_neg hc, List.append_nil]
      exact fun _ => Iff.rfl

theorem leads_versionNumber (st : Parser) (hst : st.state = .versionNumber) :
    ∀ rest tok, Leads { st with rest := rest, tok := tok }
      { st with rest := (versionSpan rest).2, tok := tok ++ (versionSpan rest).1 } := by
  intro rest
  induction rest with
  | nil =>
    intro tok
    rw [show versionSpan [] = ([], []) from rfl, List.append_nil]
    exact fun _ => Iff.rfl
  | cons c rest ih =>
    intro tok
    unfold versionSpan
    split
    · next hc =>
      have happend : tok ++ c :: (versionSpan rest).1 = tok ++ [c] ++ (versionSpan rest).1 := by
        simp
      dsimp only
      rw [happend]
      refine (leads_of_step ?_).trans (ih (tok ++ [c]))
      unfold step
      dsimp only
      rw [hst]
      dsimp only
      rw [if_pos hc]
      rfl
    · rw [List.append_nil]
      exact fun _ => Iff.rfl

theorem leads_skipSpaces (st : Parser) (hst : st.state = .skipSpaces) :
    ∃ tok, (st.rest.dropWhile isspace = [] →
        Leads st { st with rest := [], tok := tok, state := .comma }) ∧
      (st.rest.dropWhile isspace ≠ [] →
        Leads st { st with rest := st.rest.dropWhile isspace, tok := [], state := st.next }) := by
  have hscan := leads_scan st isspace (by
    intro c rest tok hc
    unfold step
    dsimp only
    rw [hst]
    dsimp only
    rw [if_pos hc]
    rfl) st.rest st.tok
  refine ⟨st.tok ++ st.rest.takeWhile isspace, fun hnil => ?_, fun hne => ?_⟩
  · rw [hnil] at hscan
    refine hscan.trans (leads_of_step ?_)
    unfold step
    dsimp only
    rw [hst]
  · refine hscan.trans (leads_of_step ?_)
    obtain ⟨c, t, hct⟩ := List.exists_cons_of_ne_nil hne
    have hc := head_dropWhile hct
    unfold step
    dsimp only
    rw [hst]
    dsimp only
    rw [hct]
    dsimp only
    rw [if_neg hc]

/-! Behind a name, a version or an option. -/

def State.IsAfter (state : State) : Prop :=
  state = .afterName ∨ state = .afterVersion ∨ state = .afterOption

theorem step_of_isAfter {st : Parser} (h : st.state.IsAfter) :
    step st = .running (afterState st) := by
  unfold step
  rcases h with h | h | h <;> rw [h]

/-- The parser has read on to `rest`, and has found these constraints. -/
structure ReadOn (st st' : Parser) (versions : List VersionItem) (options : List OptionItem)
    (rest : List Char) : Prop where
  leads : Leads st st'
  name : st'.name = st.name
  versions : st'.versions = st.versions ++ versions
  options : st'.options = st.options ++ options
  items : st'.items = st.items
  res : st'.res = st.res
  rest : st'.rest = rest

theorem ReadOn.trans {a b c : Parser} {vs vs' : List VersionItem} {os os' : List OptionItem}
    {r r' : List Char} (h : ReadOn a b vs os r) (h' : ReadOn b c vs' os' r') :
    ReadOn a c (vs ++ vs') (os ++ os') r' where
  leads := h.leads.trans h'.leads
  name := h'.name.trans h.name
  versions := by rw [h'.versions, h.versions, List.append_assoc]
  options := by rw [h'.options, h.options, List.append_assoc]
  items := h'.items.trans h.items
  res := h'.res.trans h.res
  rest := h'.rest

theorem afterState_separator {st : Parser} (h : ∀ c ∈ st.rest.head?, c = ',' ∨ c = '|') :
    afterState st =
      { st with state := if st.rest.head? = some '|' then .or else .comma } := by
  unfold afterState
  split
  · next hrest => rw [hrest]; rfl
  · next c t hrest =>
    rw [hrest] at h ⊢
    rcases h c rfl with rfl | rfl <;> rfl

theorem readOn_spaces (st : Parser) (hst : st.state = .skipSpaces) (hnext : st.next.IsAfter) :
    ∃ st', st'.state.IsAfter ∧ ReadOn st st' [] [] (st.rest.dropWhile isspace) := by
  obtain ⟨tok, hend, hgo⟩ := leads_skipSpaces st hst
  by_cases hnil : st.rest.dropWhile isspace = []
  · refine ⟨{ st with rest := [], tok := tok, state := st.next }, hnext, ⟨?_, rfl, by simp, by simp,
      rfl, rfl, hnil.symm⟩⟩
    have hafter : Leads { st with rest := [], tok := tok, state := st.next }
        { st with rest := [], tok := tok, state := .comma } :=
      leads_of_step (step_of_isAfter hnext)
    exact fun out => ((hend hnil).trans fun out => (hafter out).symm) out
  · exact ⟨{ st with rest := st.rest.dropWhile isspace, tok := [], state := st.next }, hnext,
      ⟨hgo hnil, rfl, by simp, by simp, rfl, rfl, rfl⟩⟩

theorem afterState_operator {st : Parser} {c : Char} {t : List Char} (hrest : st.rest = c :: t)
    (hc : isOpChar c = true) :
    afterState st = { st with tok := [], op := .any, state := .verOp } := by
  unfold afterState
  rw [hrest]
  rcases isOpChar_iff.mp hc with rfl | rfl | rfl | rfl <;> rfl

theorem afterState_sign {st : Parser} {c : Char} {t : List Char} (hrest : st.rest = c :: t)
    (hc : c = '+' ∨ c = '-') : afterState st = { st with tok := [], state := .optionStart } := by
  unfold afterState
  rw [hrest]
  rcases hc with rfl | rfl <;> rfl

theorem afterState_other {st : Parser} {c : Char} {t : List Char} (hrest : st.rest = c :: t)
    (hsep : ¬ (c = ',' ∨ c = '|')) (hsign : ¬ (c = '+' ∨ c = '-')) (hop : ¬ isOpChar c = true) :
    afterState st = { st with state := .error } := by
  unfold afterState
  rw [hrest]
  dsimp only
  rw [if_neg (fun h => hsep (.inl h)), if_neg (fun h => hsep (.inr h)), if_neg hsign, if_neg hop]

theorem leads_verOp {st : Parser} {c : Char} {t : List Char} (hst : st.state.IsAfter)
    (hrest : st.rest = c :: t) (hc : isOpChar c = true) :
    Leads st { st with
      tok := st.rest.takeWhile isOpChar, rest := st.rest.dropWhile isOpChar, op := .any
      state := .verOp } := by
  have hfirst := leads_of_step (step_of_isAfter hst)
  rw [afterState_operator hrest hc] at hfirst
  refine hfirst.trans (leads_scan { st with op := .any, state := .verOp } isOpChar ?_ st.rest [])
  intro c rest tok hc
  unfold step
  dsimp only
  rw [if_pos hc]
  rfl

theorem step_verOp {st : Parser} (hst : st.state = .verOp) {s : List Char}
    (hrest : st.rest = s.dropWhile isOpChar) :
    step st = .running (match operator st.tok with
      | some op => { st with op := op, state := .skipSpaces, next := .afterOp }
      | none => { st with state := .error }) := by
  unfold step
  rw [hst]
  dsimp only
  split
  · cases operator st.tok <;> rfl
  · next c t hct =>
    rw [if_neg (head_dropWhile (hrest.symm.trans hct))]
    cases operator st.tok <;> rfl

theorem leads_afterOp {st : Parser} {op : VersionOp} (hst : st.state.IsAfter)
    (hop : operator (st.rest.takeWhile isOpChar) = some op) :
    Leads st { st with
      tok := st.rest.takeWhile isOpChar, rest := st.rest.dropWhile isOpChar, op := op
      state := .skipSpaces, next := .afterOp } := by
  obtain ⟨c, t, hrest, hc⟩ := exists_of_operator hop
  refine (leads_verOp hst hrest hc).trans (leads_of_step ?_)
  rw [step_verOp rfl rfl]
  dsimp only
  rw [hop]

theorem leads_version {st : Parser} {op : VersionOp} {u : List Char} (hst : st.state.IsAfter)
    (hop : operator (st.rest.takeWhile isOpChar) = some op)
    (hu : (st.rest.dropWhile isOpChar).dropWhile isspace = u) (hne : u ≠ []) :
    Leads st { st with
      tok := (versionSpan u).1, rest := (versionSpan u).2, op := op, state := .versionNumber
      next := .afterOp } := by
  obtain ⟨tok, -, hgo⟩ := leads_skipSpaces { st with
    tok := st.rest.takeWhile isOpChar, rest := st.rest.dropWhile isOpChar, op := op
    state := .skipSpaces, next := .afterOp } rfl
  dsimp only at hgo
  rw [hu] at hgo
  refine ((leads_afterOp hst hop).trans (hgo hne)).trans ?_
  have hstep : step { st with
      rest := u, tok := [], op := op, state := .afterOp, next := .afterOp } = .running { st with
        rest := u, tok := [], op := op, state := .versionNumber, next := .afterOp } := by
    unfold step
    dsimp only
    rw [if_neg (operator_ne_any hop)]
  exact (leads_of_step hstep).trans (leads_versionNumber
    { st with op := op, state := .versionNumber, next := .afterOp } rfl u [])

theorem versionSpan_snd {s t : List Char} {c : Char} (h : (versionSpan s).2 = c :: t) :
    ¬ isVersionChar c t = true := by
  induction s with
  | nil => cases h
  | cons a s ih =>
    unfold versionSpan at h
    split at h
    · exact ih h
    · next ha =>
      obtain ⟨rfl, rfl⟩ := List.cons.inj h
      exact ha

theorem step_versionNumber (st : Parser) (hst : st.state = .versionNumber) {s : List Char}
    (hrest : st.rest = (versionSpan s).2) :
    step st = .running (if st.tok = [] ∨ st.name = none then { st with state := .error }
      else st.pushVersion.skipThen .afterVersion) := by
  unfold step
  rw [hst]
  dsimp only
  split
  · split <;> rfl
  · next c t hct =>
    rw [if_neg (versionSpan_snd (hrest.symm.trans hct))]
    split <;> rfl

theorem readOn_version {st : Parser} {op : VersionOp} {u ver r : List Char} (hst : st.state.IsAfter)
    (hname : st.name ≠ none) (hop : operator (st.rest.takeWhile isOpChar) = some op)
    (hu : (st.rest.dropWhile isOpChar).dropWhile isspace = u) (hver : versionSpan u = (ver, r))
    (hne : ver ≠ []) :
    ∃ st', st'.state.IsAfter ∧
      ReadOn st st' [{ ver := ver, op := op }] [] (r.dropWhile isspace) := by
  have hunil : u ≠ [] := by
    rintro rfl
    exact hne (Prod.mk.inj hver).1.symm
  have hlead := leads_version hst hop hu hunil
  rw [hver] at hlead
  dsimp only at hlead
  have hstep := step_versionNumber { st with
    tok := ver, rest := r, op := op, state := .versionNumber, next := .afterOp } rfl (s := u)
    (by rw [hver])
  dsimp only at hstep
  rw [if_neg (by rintro (h | h); exacts [hne h, hname h])] at hstep
  obtain ⟨st', hafter, hread⟩ := readOn_spaces (({ st with
    tok := ver, rest := r, op := op, state := .versionNumber
    next := .afterOp } : Parser).pushVersion.skipThen .afterVersion) rfl (.inr (.inl rfl))
  exact ⟨st', hafter, (hlead.trans (leads_of_step hstep)).trans hread.leads, hread.name,
    by rw [hread.versions, List.append_nil]; rfl, hread.options, hread.items, hread.res, hread.rest⟩

theorem leads_option {st : Parser} {c : Char} {t : List Char} (hst : st.state.IsAfter)
    (hrest : st.rest = c :: t) (hc : c = '+' ∨ c = '-') :
    Leads st { st with
      tok := t.takeWhile isOptionChar, rest := t.dropWhile isOptionChar, on := c = '+'
      state := .option } := by
  have hfirst := leads_of_step (step_of_isAfter hst)
  rw [afterState_sign hrest hc] at hfirst
  have hstart : step { st with tok := [], state := .optionStart } =
      .running { st with on := c = '+', rest := t, tok := [], state := .option } := by
    unfold step
    dsimp only
    rw [hrest]
  refine (hfirst.trans (leads_of_step hstart)).trans
    (leads_scan { st with on := c = '+', state := .option } isOptionChar ?_ t [])
  intro c rest tok hc
  unfold step
  dsimp only
  rw [if_pos hc]
  rfl

theorem step_option (st : Parser) (hst : st.state = .option) {s : List Char}
    (hrest : st.rest = s.dropWhile isOptionChar) :
    step st = .running (if st.tok = [] ∨ st.name = none then { st with state := .error }
      else st.pushOption.skipThen .afterOption) := by
  unfold step
  rw [hst]
  dsimp only
  split
  · split <;> rfl
  · next c t hct =>
    rw [if_neg (head_dropWhile (hrest.symm.trans hct))]
    split <;> rfl

theorem readOn_option {st : Parser} {c : Char} {t : List Char} (hst : st.state.IsAfter)
    (hname : st.name ≠ none) (hrest : st.rest = c :: t) (hc : c = '+' ∨ c = '-')
    (hne : t.takeWhile isOptionChar ≠ []) :
    ∃ st', st'.state.IsAfter ∧
      ReadOn st st' [] [{ opt := t.takeWhile isOptionChar, on := c = '+' }]
        ((t.dropWhile isOptionChar).dropWhile isspace) := by
  have hstep := step_option { st with
    tok := t.takeWhile isOptionChar, rest := t.dropWhile isOptionChar, on := c = '+'
    state := .option } rfl (s := t) rfl
  dsimp only at hstep
  rw [if_neg (by rintro (h | h); exacts [hne h, hname h])] at hstep
  obtain ⟨st', hafter, hread⟩ := readOn_spaces (({ st with
    tok := t.takeWhile isOptionChar, rest := t.dropWhile isOptionChar, on := c = '+'
    state := .option } : Parser).pushOption.skipThen .afterOption) rfl (.inr (.inr rfl))
  exact ⟨st', hafter, ((leads_option hst hrest hc).trans (leads_of_step hstep)).trans hread.leads,
    hread.name, hread.versions, by rw [hread.options, List.append_nil]; rfl, hread.items, hread.res,
    hread.rest⟩

structure AtEnd (st st' : Parser) (versions : List VersionItem) (options : List OptionItem)
    (r : List Char) : Prop extends ReadOn st st' versions options r where
  state : st'.state = if r.head? = some '|' then .or else .comma

theorem AtEnd.of_readOn {a b c : Parser} {vs vs' : List VersionItem} {os os' : List OptionItem}
    {r r' : List Char} (h : ReadOn a b vs os r) (h' : AtEnd b c vs' os' r') :
    AtEnd a c (vs ++ vs') (os ++ os') r' :=
  { h.trans h'.toReadOn with state := h'.state }

/-- Constraints and options are read to the end of the item.  Where the text ends behind an
operator, the spaces in front of the version lead to the end as well. -/
theorem atEnd_of_constraints {e : Ending} {s rest : List Char} {vs : List VersionItem}
    {os : List OptionItem} (h : Constraints e s vs os rest) :
    ∀ {st : Parser}, st.state.IsAfter → st.name ≠ none → st.rest = s →
      ∃ st', AtEnd st st' vs os rest := by
  induction h with
  | @done s hs =>
    intro st hst _ hrest
    subst hrest
    refine ⟨{ st with state := if st.rest.head? = some '|' then .or else .comma },
      ⟨⟨?_, rfl, by simp, by simp, rfl, rfl, rfl⟩, rfl⟩⟩
    rw [← afterState_separator hs]
    exact leads_of_step (step_of_isAfter hst)
  | @dangling s op hop hend =>
    intro st hst _ hrest
    subst hrest
    obtain ⟨tok, hcomma, -⟩ := leads_skipSpaces { st with
      tok := st.rest.takeWhile isOpChar, rest := st.rest.dropWhile isOpChar, op := op
      state := .skipSpaces, next := .afterOp } rfl
    exact ⟨{ st with rest := [], tok := tok, op := op, state := .comma, next := .afterOp },
      ⟨⟨(leads_afterOp hst hop).trans (hcomma hend), rfl, by simp, by simp, rfl, rfl, rfl⟩, rfl⟩⟩
  | version hop hu hver hne _ ih =>
    intro st hst hname hrest
    subst hrest
    obtain ⟨st', hafter, hread⟩ := readOn_version hst hname hop hu hver hne
    obtain ⟨st'', hend⟩ := ih hafter (by rw [hread.name]; exact hname) hread.rest
    exact ⟨st'', AtEnd.of_readOn hread hend⟩
  | option hc hopt hne _ ih =>
    intro st hst hname hrest
    subst hopt
    obtain ⟨st', hafter, hread⟩ := readOn_option hst hname hrest hc hne
    obtain ⟨st'', hend⟩ := ih hafter (by rw [hread.name]; exact hname) hread.rest
    exact ⟨st'', AtEnd.of_readOn hread hend⟩

end NextBSD.Libpkg.Deps
