import NextBSD.Libpkg.Deps.Parse

/-!
# The formulas that `pkg_deps_parse_formula` accepts

They are those of the grammar, with or without a version behind the last operator.
-/

namespace NextBSD.Libpkg.Deps

theorem length_dropWhile_le (p : Char → Bool) (s : List Char) : (s.dropWhile p).length ≤ s.length :=
  (List.dropWhile_sublist p).length_le

theorem Constraints.rest_spec {e : Ending} {s rest : List Char} {vs : List VersionItem}
    {os : List OptionItem} (h : Constraints e s vs os rest) :
    rest.length ≤ s.length ∧ ∀ c ∈ rest.head?, e = .whole ∧ (c = ',' ∨ c = '|') := by
  induction h with
  | done hs => exact ⟨Nat.le_refl _, fun c hc => ⟨rfl, hs c hc⟩⟩
  | dangling => exact ⟨Nat.zero_le _, fun _ hc => nomatch hc⟩
  | @version s u r rest ver _ _ _ _ _ hu hver _ _ ih =>
    refine ⟨?_, ih.2⟩
    have hlen := length_versionSpan u
    rw [hver] at hlen
    dsimp only at hlen
    have hdrop := length_dropWhile_le isspace r
    have hdropOp := length_dropWhile_le isOpChar s
    have hdropU := length_dropWhile_le isspace (s.dropWhile isOpChar)
    rw [hu] at hdropU
    have := ih.1
    omega
  | @option c t _ _ _ _ _ _ _ _ _ ih =>
    refine ⟨?_, ih.2⟩
    have hdrop := length_dropWhile_le isspace (t.dropWhile isOptionChar)
    have hdropOpt := length_dropWhile_le isOptionChar t
    have := ih.1
    rw [List.length_cons]
    omega

/-! The automaton fails where the grammar has no constraint. -/

theorem fails_of_operator_none {st : Parser} {c : Char} {t : List Char} (hst : st.state.IsAfter)
    (hrest : st.rest = c :: t) (hc : isOpChar c = true)
    (hop : operator (st.rest.takeWhile isOpChar) = none) : Fails st := by
  refine (leads_verOp hst hrest hc).fails (fails_of_step (step_verOp rfl rfl) ?_)
  dsimp only
  rw [hop]

theorem fails_of_version_nil {st : Parser} {op : VersionOp} {u : List Char}
    (hst : st.state.IsAfter) (hop : operator (st.rest.takeWhile isOpChar) = some op)
    (hu : (st.rest.dropWhile isOpChar).dropWhile isspace = u) (hne : u ≠ [])
    (hver : (versionSpan u).1 = []) : Fails st := by
  refine (leads_version hst hop hu hne).fails
    (fails_of_step (step_versionNumber _ rfl (s := u) rfl) ?_)
  dsimp only
  rw [if_pos (.inl hver)]

theorem fails_of_option_nil {st : Parser} {c : Char} {t : List Char} (hst : st.state.IsAfter)
    (hrest : st.rest = c :: t) (hc : c = '+' ∨ c = '-') (hopt : t.takeWhile isOptionChar = []) :
    Fails st := by
  refine (leads_option hst hrest hc).fails (fails_of_step (step_option _ rfl (s := t) rfl) ?_)
  dsimp only
  rw [if_pos (.inl hopt)]

theorem constraints_or_fails (n : Nat) : ∀ s : List Char, s.length < n →
    (∃ e vs os rest, Constraints e s vs os rest) ∨
      ∀ st : Parser, st.state.IsAfter → st.name ≠ none → st.rest = s → Fails st := by
  induction n with
  | zero => intro s hn; omega
  | succ n ih =>
    intro s hn
    cases s with
    | nil => exact .inl ⟨_, _, _, _, .done (fun _ h => nomatch h)⟩
    | cons c t =>
      rw [List.length_cons] at hn
      by_cases hsep : c = ',' ∨ c = '|'
      · refine .inl ⟨_, _, _, _, .done ?_⟩
        intro c' hc'
        cases hc'
        exact hsep
      by_cases hsign : c = '+' ∨ c = '-'
      · by_cases hopt : t.takeWhile isOptionChar = []
        · exact .inr fun st hst _ hrest => fails_of_option_nil hst hrest hsign hopt
        have hdrop := length_dropWhile_le isspace (t.dropWhile isOptionChar)
        have hdropOpt := length_dropWhile_le isOptionChar t
        rcases ih ((t.dropWhile isOptionChar).dropWhile isspace) (by omega) with
          ⟨e, vs, os, rest, h⟩ | hfail
        · exact .inl ⟨_, _, _, _, .option hsign rfl hopt h⟩
        · refine .inr fun st hst hname hrest => ?_
          obtain ⟨st', hafter, hread⟩ := readOn_option hst hname hrest hsign hopt
          exact hread.leads.fails (hfail st' hafter (by rw [hread.name]; exact hname) hread.rest)
      by_cases hopc : isOpChar c = true
      · cases hop : operator ((c :: t).takeWhile isOpChar) with
        | none =>
          exact .inr fun st hst _ hrest =>
            fails_of_operator_none hst hrest hopc (by rw [hrest, hop])
        | some op =>
          obtain ⟨u, hu⟩ : ∃ u, ((c :: t).dropWhile isOpChar).dropWhile isspace = u := ⟨_, rfl⟩
          by_cases hunil : u = []
          · exact .inl ⟨_, _, _, _, .dangling hop (hu.trans hunil)⟩
          by_cases hver : (versionSpan u).1 = []
          · refine .inr fun st hst _ hrest => ?_
            rw [← hrest] at hop hu
            exact fails_of_version_nil hst hop hu hunil hver
          have hlen := length_versionSpan u
          have hpos := List.length_pos_iff.mpr hver
          have hdropU := length_dropWhile_le isspace ((c :: t).dropWhile isOpChar)
          have hdropOp := length_dropWhile_le isOpChar (c :: t)
          have hdrop := length_dropWhile_le isspace (versionSpan u).2
          rw [hu] at hdropU
          rw [List.length_cons] at hdropOp
          rcases ih ((versionSpan u).2.dropWhile isspace) (by omega) with
            ⟨e, vs, os, rest, h⟩ | hfail
          · exact .inl ⟨_, _, _, _, .version hop hu rfl hver h⟩
          · refine .inr fun st hst hname hrest => ?_
            obtain ⟨st', hafter, hread⟩ := readOn_version hst hname (by rw [hrest]; exact hop)
              (by rw [hrest]; exact hu) rfl hver
            exact hread.leads.fails (hfail st' hafter (by rw [hread.name]; exact hname) hread.rest)
      · exact .inr fun st hst _ hrest =>
          fails_of_step (step_of_isAfter hst) (by rw [afterState_other hrest hsep hsign hopc])

/-! Names. -/

structure Start (st : Parser) (s : List Char) : Prop where
  state : st.state = .skipSpaces
  next : st.next = .depName
  name : st.name = none
  versions : st.versions = []
  options : st.options = []
  rest : st.rest = s

theorem fails_of_blank {st : Parser} {s : List Char} (h : Start st s)
    (hs : s.dropWhile isspace = []) : Fails st := by
  obtain ⟨tok, hend, -⟩ := leads_skipSpaces st h.state
  rw [h.rest] at hend
  have hstep : step { st with rest := [], tok := tok, state := .comma } =
      .running { st with rest := [], tok := tok, state := .error } := by
    unfold step
    dsimp only
    rw [h.name]
  exact (hend hs).fails (fails_of_step hstep rfl)

theorem leads_depName {st : Parser} {s u : List Char} (h : Start st s)
    (hu : s.dropWhile isspace = u) (hne : u ≠ []) :
    Leads st { st with
      tok := u.takeWhile isNameChar, rest := u.dropWhile isNameChar, state := .depName
      next := .depName } := by
  obtain ⟨tok, -, hgo⟩ := leads_skipSpaces st h.state
  rw [h.rest, hu, h.next] at hgo
  refine (hgo hne).trans (leads_scan { st with state := .depName, next := .depName }
    isNameChar ?_ u [])
  intro c rest tok hc
  unfold isNameChar at hc
  rw [Bool.and_eq_true, Bool.and_eq_true] at hc
  obtain ⟨⟨hprint, hspace⟩, hcomma⟩ := hc
  unfold step
  dsimp only
  rw [if_neg (by simpa using hspace), if_neg (by simpa using hcomma), if_pos hprint]
  rfl

theorem step_depName_blank (st : Parser) (hst : st.state = .depName) (hne : st.tok ≠ [])
    (hrest : ∀ c ∈ st.rest.head?, isspace c = true) :
    step st = .running { st with
      name := some st.tok, state := .skipSpaces, next := .afterName } := by
  unfold step
  rw [hst]
  dsimp only
  split
  · rw [if_neg hne]
    rfl
  · next c t hct =>
    rw [hct] at hrest
    rw [if_pos (hrest c rfl), if_neg hne]
    rfl

theorem step_depName_comma (st : Parser) {t : List Char} (hst : st.state = .depName)
    (hne : st.tok ≠ []) (hrest : st.rest = ',' :: t) :
    step st = .running { st with name := some st.tok, state := .afterName } := by
  unfold step
  rw [hst]
  dsimp only
  rw [hrest]
  dsimp only
  rw [if_neg (by decide), if_pos rfl, if_neg hne]

theorem step_depName_other {st : Parser} {c : Char} {t : List Char} (hst : st.state = .depName)
    (hrest : st.rest = c :: t) (hchar : ¬ isNameChar c = true) (hspace : ¬ isspace c = true)
    (hcomma : st.tok ≠ [] → c ≠ ',') : step st = .running { st with state := .error } := by
  unfold step
  rw [hst]
  dsimp only
  rw [hrest]
  dsimp only
  rw [if_neg hspace]
  by_cases hc : c = ','
  · have htok : st.tok = [] := by
      by_contra hne
      exact hcomma hne hc
    rw [if_pos hc, if_pos htok]
  · unfold isNameChar at hchar
    rw [if_neg hc, if_neg (by simpa [hspace, hc] using hchar)]

theorem fails_of_name_nil {st : Parser} {s u : List Char} (h : Start st s)
    (hu : s.dropWhile isspace = u) (hne : u ≠ []) (hname : u.takeWhile isNameChar = []) :
    Fails st := by
  refine (leads_depName h hu hne).fails ?_
  obtain ⟨c, t, rfl⟩ := List.exists_cons_of_ne_nil hne
  have hspace := head_dropWhile hu
  have hchar : ¬ isNameChar c = true := by
    intro hc
    rw [List.takeWhile_cons_of_pos hc] at hname
    cases hname
  rw [List.dropWhile_cons_of_neg hchar, hname]
  exact fails_of_step (step_depName_other rfl rfl hchar hspace (fun hne => absurd rfl hne)) rfl

theorem fails_of_follows {st : Parser} {s u : List Char} (h : Start st s)
    (hu : s.dropWhile isspace = u) (hname : u.takeWhile isNameChar ≠ [])
    (hfollows : ¬ ∀ c ∈ (u.dropWhile isNameChar).head?, isspace c = true ∨ c = ',') : Fails st := by
  have hne : u ≠ [] := by
    rintro rfl
    exact hname rfl
  refine (leads_depName h hu hne).fails ?_
  cases hrest : u.dropWhile isNameChar with
  | nil =>
    rw [hrest] at hfollows
    exact absurd (fun _ hc => nomatch hc) hfollows
  | cons c t =>
    rw [hrest] at hfollows
    have hc : ¬ (isspace c = true ∨ c = ',') := by simpa using hfollows
    exact fails_of_step (step_depName_other rfl rfl (head_dropWhile hrest) (fun h => hc (.inl h))
      (fun _ h => hc (.inr h))) rfl

structure ReadName (st st' : Parser) (name rest : List Char) : Prop where
  leads : Leads st st'
  isAfter : st'.state.IsAfter
  name : st'.name = some name
  versions : st'.versions = st.versions
  options : st'.options = st.options
  items : st'.items = st.items
  res : st'.res = st.res
  rest : st'.rest = rest

theorem readName_of_start {st : Parser} {s u : List Char} (h : Start st s)
    (hu : s.dropWhile isspace = u) (hname : u.takeWhile isNameChar ≠ [])
    (hfollows : ∀ c ∈ (u.dropWhile isNameChar).head?, isspace c = true ∨ c = ',') :
    ∃ st', ReadName st st' (u.takeWhile isNameChar)
      ((u.dropWhile isNameChar).dropWhile isspace) := by
  have hne : u ≠ [] := by
    rintro rfl
    exact hname rfl
  have hlead := leads_depName h hu hne
  by_cases hblank : ∀ c ∈ (u.dropWhile isNameChar).head?, isspace c = true
  · have hstep := leads_of_step (step_depName_blank { st with
      tok := u.takeWhile isNameChar, rest := u.dropWhile isNameChar, state := .depName
      next := .depName } rfl hname hblank)
    obtain ⟨st', hafter, hread⟩ := readOn_spaces { st with
      tok := u.takeWhile isNameChar, rest := u.dropWhile isNameChar
      name := some (u.takeWhile isNameChar), state := .skipSpaces, next := .afterName } rfl
        (.inl rfl)
    exact ⟨st', (hlead.trans hstep).trans hread.leads, hafter, hread.name,
      hread.versions.trans (List.append_nil _), hread.options.trans (List.append_nil _),
      hread.items, hread.res, hread.rest⟩
  · obtain ⟨c, t, hct⟩ : ∃ c t, u.dropWhile isNameChar = c :: t := by
      cases hrest : u.dropWhile isNameChar with
      | nil =>
        rw [hrest] at hblank
        exact absurd (fun _ hc => nomatch hc) hblank
      | cons c t => exact ⟨c, t, rfl⟩
    rw [hct] at hblank hfollows
    have hspace : ¬ isspace c = true := by simpa using hblank
    have hcomma : c = ',' := (hfollows c rfl).resolve_left hspace
    subst hcomma
    have hstep := leads_of_step (step_depName_comma { st with
      tok := u.takeWhile isNameChar, rest := u.dropWhile isNameChar, state := .depName
      next := .depName } rfl hname hct)
    refine ⟨_, hlead.trans hstep, .inl rfl, rfl, rfl, rfl, rfl, rfl, ?_⟩
    rw [hct, List.dropWhile_cons_of_neg hspace]

/-! Items and formulas. -/

/-- The parser has read an item, and stands at the separator that follows, or at the end. -/
structure ReadItem (st st' : Parser) (item : FormulaItem) (r : List Char) : Prop where
  leads : Leads st st'
  state : st'.state = if r.head? = some '|' then .or else .comma
  name : st'.name = some item.name
  pushItem : st'.pushItem item.name = st.items ++ [item]
  res : st'.res = st.res
  rest : st'.rest = r

theorem readItem_of_item {st : Parser} {e : Ending} {s r : List Char} {item : FormulaItem}
    (hstart : Start st s) (h : Item e (s.dropWhile isspace) item r) :
    ∃ st', ReadItem st st' item r := by
  obtain ⟨st₁, hread⟩ := readName_of_start hstart rfl (by rw [h.name]; exact h.name_ne) h.follows
  obtain ⟨st₂, hend⟩ := atEnd_of_constraints h.constraints hread.isAfter
    (by rw [hread.name]; exact Option.some_ne_none _) hread.rest
  refine ⟨st₂, hread.leads.trans hend.leads, hend.state, ?_, ?_, hend.res.trans hread.res,
    hend.rest⟩
  · rw [hend.name, hread.name, h.name]
  · unfold Parser.pushItem
    rw [hend.items, hread.items, hend.versions, hread.versions, hstart.versions, hend.options,
      hread.options, hstart.options]
    rfl

theorem ReadItem.accepts {st st' : Parser} {item : FormulaItem} (h : ReadItem st st' item []) :
    Accepts st (st.res ++ [st.items ++ [item]]) := by
  refine h.leads.accepts (ends_of_step ?_ (fun _ h => Step.noConfusion h))
  unfold step
  rw [h.state, if_neg (by rw [List.head?_nil]; exact (Option.some_ne_none _).symm)]
  dsimp only
  rw [h.name, h.rest]
  dsimp only
  rw [h.pushItem, h.res]

theorem ReadItem.comma {st st' : Parser} {item : FormulaItem} {t : List Char}
    (h : ReadItem st st' item (',' :: t)) :
    ∃ st'', Start st'' t ∧ Leads st st'' ∧ st''.items = [] ∧
      st''.res = st.res ++ [st.items ++ [item]] := by
  refine ⟨{ st' with
    rest := t, name := none, versions := [], options := [], items := []
    res := st.res ++ [st.items ++ [item]], state := .skipSpaces, next := .depName },
    ⟨rfl, rfl, rfl, rfl, rfl, rfl⟩, h.leads.trans (leads_of_step ?_), rfl, rfl⟩
  unfold step
  rw [h.state, if_neg (by rw [List.head?_cons]; decide)]
  dsimp only
  rw [h.name, h.rest]
  dsimp only
  rw [h.pushItem, h.res]

theorem ReadItem.or {st st' : Parser} {item : FormulaItem} {t : List Char}
    (h : ReadItem st st' item ('|' :: t)) :
    ∃ st'', Start st'' t ∧ Leads st st'' ∧ st''.items = st.items ++ [item] ∧ st''.res = st.res := by
  refine ⟨{ st' with
    rest := t, name := none, versions := [], options := [], items := st.items ++ [item]
    res := st'.res, state := .skipSpaces, next := .depName },
    ⟨rfl, rfl, rfl, rfl, rfl, rfl⟩, h.leads.trans (leads_of_step ?_), rfl, h.res⟩
  unfold step
  rw [h.state.trans (if_pos rfl)]
  dsimp only
  rw [h.name, h.rest]
  dsimp only
  rw [h.pushItem]
  rfl

/-- The alternatives that are read already stand in front of the first formula. -/
def joined (items : List FormulaItem) : List (List FormulaItem) → List (List FormulaItem)
  | [] => []
  | f :: fs => (items ++ f) :: fs

theorem joined_nil (fs : List (List FormulaItem)) : joined [] fs = fs := by
  cases fs <;> rfl

theorem accepts_of_formulas {e : Ending} {s : List Char} {fs : List (List FormulaItem)}
    (h : Formulas e s fs) :
    ∀ {st : Parser}, Start st s → Accepts st (st.res ++ joined st.items fs) := by
  induction h with
  | last hi =>
    intro st hstart
    obtain ⟨st', hread⟩ := readItem_of_item hstart hi
    exact hread.accepts
  | comma hi _ ih =>
    intro st hstart
    obtain ⟨st', hread⟩ := readItem_of_item hstart hi
    obtain ⟨st'', hstart', hlead, hitems, hres⟩ := hread.comma
    have hacc := ih hstart'
    rw [hitems, hres, joined_nil, List.append_assoc] at hacc
    exact hlead.accepts hacc
  | or hi _ ih =>
    intro st hstart
    obtain ⟨st', hread⟩ := readItem_of_item hstart hi
    obtain ⟨st'', hstart', hlead, hitems, hres⟩ := hread.or
    have hacc := ih hstart'
    rw [hitems, hres] at hacc
    simp only [joined, List.append_assoc] at hacc ⊢
    exact hlead.accepts hacc

theorem Formulas.ne_nil {e : Ending} {s : List Char} {fs : List (List FormulaItem)}
    (h : Formulas e s fs) : fs ≠ [] := by
  cases h <;> exact List.cons_ne_nil _ _

theorem formulas_or_fails (n : Nat) : ∀ s : List Char, s.length < n →
    (∃ e fs, Formulas e s fs) ∨ ∀ st : Parser, Start st s → Fails st := by
  induction n with
  | zero => intro s hn; omega
  | succ n ih =>
    intro s hn
    obtain ⟨u, hu⟩ : ∃ u, s.dropWhile isspace = u := ⟨_, rfl⟩
    have hlen := length_dropWhile_le isspace s
    have hlenName := length_dropWhile_le isNameChar u
    have hlenSpace := length_dropWhile_le isspace (u.dropWhile isNameChar)
    rw [hu] at hlen
    by_cases hunil : u = []
    · exact .inr fun st hstart => fails_of_blank hstart (hu.trans hunil)
    by_cases hname : u.takeWhile isNameChar = []
    · exact .inr fun st hstart => fails_of_name_nil hstart hu hunil hname
    by_cases hfollows : ∀ c ∈ (u.dropWhile isNameChar).head?, isspace c = true ∨ c = ','
    swap
    · exact .inr fun st hstart => fails_of_follows hstart hu hname hfollows
    rcases constraints_or_fails _ ((u.dropWhile isNameChar).dropWhile isspace)
      (Nat.lt_succ_self _) with ⟨e, vs, os, rest, hcons⟩ | hfail
    swap
    · refine .inr fun st hstart => ?_
      obtain ⟨st', hread⟩ := readName_of_start hstart hu hname hfollows
      exact hread.leads.fails (hfail st' hread.isAfter
        (by rw [hread.name]; exact Option.some_ne_none _) hread.rest)
    have hitem : Item e (s.dropWhile isspace)
        { name := u.takeWhile isNameChar, versions := vs, options := os } rest := by
      rw [hu]
      exact ⟨rfl, hname, hfollows, hcons⟩
    obtain ⟨hrestLen, hrestHead⟩ := hcons.rest_spec
    cases rest with
    | nil => exact .inl ⟨_, _, .last hitem⟩
    | cons c t =>
      obtain ⟨rfl, hsep⟩ := hrestHead c rfl
      rw [List.length_cons] at hrestLen
      rcases ih t (by omega) with ⟨e, fs, hfs⟩ | hfail
      · rcases hsep with rfl | rfl
        · exact .inl ⟨_, _, .comma hitem hfs⟩
        · obtain ⟨f, fs, rfl⟩ := List.exists_cons_of_ne_nil hfs.ne_nil
          exact .inl ⟨_, _, .or hitem hfs⟩
      · refine .inr fun st hstart => ?_
        obtain ⟨st', hread⟩ := readItem_of_item hstart hitem
        rcases hsep with rfl | rfl
        · obtain ⟨st'', hstart', hlead, -, -⟩ := hread.comma
          exact hlead.fails (hfail st'' hstart')
        · obtain ⟨st'', hstart', hlead, -, -⟩ := hread.or
          exact hlead.fails (hfail st'' hstart')

/-! The whole text. -/

/-- What `pkg_deps_parse_formula` returns. -/
def Returns (s : List Char) (out : Step) : Prop := ∃ rounds, pkgDepsParseFormula rounds s = some out

theorem leads_start (s : List Char) : Leads { rest := s } { rest := s, state := .skipSpaces } := by
  cases s with
  | nil => exact leads_of_step rfl
  | cons c t =>
    by_cases hc : isspace c = true
    · refine leads_of_step ?_
      unfold step
      dsimp only
      rw [if_pos hc, if_pos rfl]
      rfl
    · have hstep : step { rest := c :: t, state := .skipSpaces } = .running { rest := c :: t } := by
        unfold step
        dsimp only
        rw [if_neg hc]
      exact fun out => (leads_of_step hstep out).symm

theorem start_initial (s : List Char) : Start { rest := s, state := .skipSpaces } s :=
  ⟨rfl, rfl, rfl, rfl, rfl, rfl⟩

theorem returns_iff_ends {s : List Char} (hs : s ≠ []) (out : Step) :
    Returns s out ↔ Ends { rest := s, state := .skipSpaces } out := by
  rw [← leads_start s out]
  unfold Returns Ends pkgDepsParseFormula
  simp only [hs, if_false]

theorem Formulas.text_ne_nil {e : Ending} {s : List Char} {fs : List (List FormulaItem)}
    (h : Formulas e s fs) : s ≠ [] := by
  rintro rfl
  have hname : ∀ {e item r}, ¬ Item e ([].dropWhile isspace) item r :=
    fun hi => hi.name_ne hi.name.symm
  cases h with
  | last hi => exact hname hi
  | comma hi => exact hname hi
  | or hi => exact hname hi

theorem returns_of_formulas {e : Ending} {s : List Char} {fs : List (List FormulaItem)}
    (h : Formulas e s fs) (out : Step) : Returns s out ↔ out = .finished fs := by
  have hacc := accepts_of_formulas h (start_initial s)
  rw [returns_iff_ends h.text_ne_nil, hacc out]
  dsimp only
  rw [joined_nil, List.nil_append]

theorem returns_of_none {s : List Char} (h : ¬ ∃ e fs, Formulas e s fs) (out : Step) :
    Returns s out ↔ out = .failed := by
  by_cases hs : s = []
  · subst hs
    exact ⟨fun ⟨_, h⟩ => (Option.some.inj h).symm, fun h => ⟨0, by rw [h]; rfl⟩⟩
  · rw [returns_iff_ends hs]
    exact (formulas_or_fails _ s (Nat.lt_succ_self _)).resolve_left h _ (start_initial s) out

theorem returns_finished_iff (s : List Char) (fs : List (List FormulaItem)) :
    Returns s (.finished fs) ↔ ∃ e, Formulas e s fs := by
  constructor
  · intro hret
    by_cases h : ∃ e fs, Formulas e s fs
    · obtain ⟨e, fs', hfs⟩ := h
      have heq := (returns_of_formulas hfs _).mp hret
      cases heq
      exact ⟨e, hfs⟩
    · cases (returns_of_none h _).mp hret
  · rintro ⟨e, hfs⟩
    exact (returns_of_formulas hfs _).mpr rfl

theorem exists_returns (s : List Char) : ∃ out, Returns s out := by
  by_cases h : ∃ e fs, Formulas e s fs
  · obtain ⟨e, fs, hfs⟩ := h
    exact ⟨_, (returns_of_formulas hfs _).mpr rfl⟩
  · exact ⟨_, (returns_of_none h _).mpr rfl⟩

/-- The loop ends on every text, and it accepts what the grammar has, unless the text ends in an
operator. -/
theorem pkgDepsParseFormula_iff (s : List Char) :
    (∃ out, Returns s out) ∧
      ((∀ fs, Returns s (.finished fs) ↔ Formulas .whole s fs) ↔ ¬ EndsInOperator s) := by
  refine ⟨exists_returns s, ?_⟩
  constructor
  · rintro hiff ⟨fs, hfs⟩
    have hwhole := (hiff fs).mp ((returns_finished_iff s fs).mpr ⟨_, hfs⟩)
    cases hwhole.ending hfs
  · intro hends fs
    rw [returns_finished_iff]
    constructor
    · rintro ⟨_ | _, hfs⟩
      · exact hfs
      · exact absurd ⟨fs, hfs⟩ hends
    · exact fun hfs => ⟨_, hfs⟩

/-- The operator of this text, `a >=`, is dropped. -/
theorem pkgDepsParseFormula_dropped :
    Returns ['a', ' ', '>', '='] (.finished [[{ name := ['a'] }]]) ∧
      ¬ ∀ s, (∃ out, Returns s out) ∧ ∀ fs, Returns s (.finished fs) ↔ Formulas .whole s fs := by
  refine ⟨⟨50, by decide⟩, fun hall => ?_⟩
  have hop : operator (['>', '='].takeWhile isOpChar) = some .ge := by decide
  have hfollows : ∀ c ∈ [' ', '>', '='].head?, isspace c = true ∨ c = ',' := by
    intro c hc
    cases hc
    exact .inl (by decide)
  have hends : EndsInOperator ['a', ' ', '>', '='] :=
    ⟨[[{ name := ['a'] }]], .last ⟨by decide, by decide, hfollows, .dangling hop (by decide)⟩⟩
  obtain ⟨fs, hdangling⟩ := hends
  have hret := (returns_finished_iff _ _).mpr ⟨_, hdangling⟩
  cases ((hall ['a', ' ', '>', '=']).2 fs |>.mp hret).ending hdangling

end NextBSD.Libpkg.Deps
