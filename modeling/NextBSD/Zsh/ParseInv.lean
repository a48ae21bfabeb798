import NextBSD.Zsh.ParseLayout

/-!
# What the parser keeps

The buffer holds the words of the items, and each string of an item is in the part of the string
table that belongs to the function of the item.  A here-document keeps this if its text is stored
while the parser is in the function body of its redirection.
-/

namespace NextBSD.Zsh

def Act.strings (ec : Ec) : Act → List CStr
  | .ecstr s => [s]
  | .storeStr _ s => [s]
  | .heredoc _ _ _ _ idstring _ => idstring.toList
  | .gethere doc munged => doc :: munged :: (ec.hdocs.map Heredocs.str).take 1
  | _ => []

def Item.isRedir (k : Nat) : Item → Bool
  | redir r => r.id = k
  | _ => false

def Act.inTime (st : Parse) : Act → Bool
  | .gethere _ _ =>
    match st.ec.hdocs with
    | h :: _ => st.items.any (Item.isRedir h.redir)
    | [] => true
  | _ => true

/-- The program has less than 2^27 words and 2^30 bytes of strings, and the text of a
here-document comes while the parser is in the function body of its redirection. -/
def Act.Meets (st : Parse) (act : Act) : Prop :=
  st.ec.ecused < 2 ^ 27 ∧
    st.ec.ecsoffs + ((act.strings st.ec).map fun s => s.memory.length).sum ≤ 2 ^ 30 ∧
    act.inTime st = true

/-- The functions around the body, whose strings are before `sub`. -/
def OuterGood (nodes : List Eccstr) (hi : Nat) : Nat → List OpenFunction → Prop
  | sub, [] => sub = 0
  | sub, f :: functions =>
    (f.funcdef.so = sub ∧ f.funcdef.oecssub ≤ sub) ∧
      (f.funcdef.p = (outerWords functions ++ wordsOf f.before).length ∧
        f.funcdef.num = f.head.names.length) ∧
      (∀ it ∈ f.before, it.Good nodes f.funcdef.oecssub hi) ∧
      (∀ n ∈ f.head.names, Coded nodes f.funcdef.oecssub hi n) ∧
      OuterGood nodes hi f.funcdef.oecssub functions

structure Parse.Inv (st : Parse) : Prop where
  buf : st.ec.ecbuf = outerWords st.functions ++ wordsOf st.items
  marked : Marked st.marks st.ec.hdocs st.redirs
  stored : st.ec.Stored
  good : ∀ it ∈ st.items, it.Good st.ec.ecstrs.nodes st.ec.ecssub st.ec.ecsoffs
  outer : OuterGood st.ec.ecstrs.nodes st.ec.ecsoffs st.ec.ecssub st.functions
  small : st.ec.ecsoffs ≤ 2 ^ 30

structure Ec.Updates (ec ec' : Ec) : Prop where
  stored : ec'.Stored
  grows : ec.Grows ec'
  ecssub : ec'.ecssub = ec.ecssub
  small : ec'.ecsoffs ≤ 2 ^ 30

theorem Ec.Updates.congr {ec ec' ec'' : Ec} (h : ec.Updates ec') (hstrs : ec''.ecstrs = ec'.ecstrs)
    (hsoffs : ec''.ecsoffs = ec'.ecsoffs) (hssub : ec''.ecssub = ec'.ecssub)
    (hnfunc : ec''.ecnfunc = ec'.ecnfunc) : ec.Updates ec'' where
  stored := by
    unfold Ec.Stored
    rw [hstrs, hsoffs, hssub, hnfunc]
    exact h.stored
  grows := ⟨by rw [hstrs]; exact h.grows.nodes, by rw [hsoffs]; exact h.grows.ecsoffs⟩
  ecssub := hssub.trans h.ecssub
  small := by
    rw [hsoffs]
    exact h.small

theorem Ec.Updates.trans {ec ec' ec'' : Ec} (h : ec.Updates ec') (h' : ec'.Updates ec'') :
    ec.Updates ec'' :=
  ⟨h'.stored, h.grows.trans h'.grows, h'.ecssub.trans h.ecssub, h'.small⟩

theorem OuterGood.mono {nodes nodes' : List Eccstr} {hi hi' : Nat}
    (hnodes : ∀ n ∈ nodes, n ∈ nodes') (hhi : hi ≤ hi') {sub : Nat} {functions : List OpenFunction}
    (h : OuterGood nodes hi sub functions) : OuterGood nodes' hi' sub functions := by
  induction functions generalizing sub with
  | nil => exact h
  | cons f functions ih =>
    obtain ⟨hsub, hplace, hbefore, hnames, hrest⟩ := h
    exact ⟨hsub, hplace, fun it hit => (hbefore it hit).mono hnodes hhi,
      fun n hn => (hnames n hn).mono hnodes hhi, ih hrest⟩

namespace Parse

variable {st st' : Parse} {ec' : Ec} {items' A B : List Item} {n : Nat}

theorem Inv.base_eq (h : st.Inv) : st.base = (outerWords st.functions).length := by
  have houter := h.outer
  unfold base
  cases hf : st.functions with
  | nil => rfl
  | cons f functions =>
    rw [hf] at houter
    obtain ⟨-, ⟨hp, hnum⟩, -⟩ := houter
    unfold outerWords
    rw [List.length_append, Header.length_words, ← hp, ← hnum]
    rfl

theorem Inv.pos_eq (h : st.Inv) (hitems : st.items = A ++ B) :
    st.pos A.length = (outerWords st.functions ++ wordsOf A).length := by
  unfold pos
  rw [h.base_eq, hitems, List.take_left, List.length_append]

theorem Inv.pos_eq_marks (h : st.Inv) (hitems : st.items = A ++ B) :
    st.pos A.length = (outerMarks st.functions ++ marksOf A).length := by
  rw [h.pos_eq hitems, List.length_append, List.length_append, length_outerMarks, length_marksOf]

theorem Inv.within (h : st.Inv) (hec : st.ec.Updates ec')
    (hbuf : ec'.ecbuf = outerWords st.functions ++ wordsOf items')
    (hmarked : Marked (outerMarks st.functions ++ marksOf items') ec'.hdocs n)
    (hgood : ∀ it ∈ items', it ∈ st.items ∨
      it.Good ec'.ecstrs.nodes st.ec.ecssub ec'.ecsoffs) :
    Inv { st with ec := ec', items := items', redirs := n } where
  buf := hbuf
  marked := hmarked
  stored := hec.stored
  good it hit := by
    show it.Good ec'.ecstrs.nodes ec'.ecssub ec'.ecsoffs
    rw [hec.ecssub]
    exact (hgood it hit).elim
      (fun hold => (h.good it hold).mono hec.grows.nodes hec.grows.ecsoffs) id
  outer := by
    show OuterGood ec'.ecstrs.nodes ec'.ecsoffs ec'.ecssub st.functions
    rw [hec.ecssub]
    exact h.outer.mono hec.grows.nodes hec.grows.ecsoffs
  small := hec.small

theorem Inv.updates (h : st.Inv) (hstrs : ec'.ecstrs = st.ec.ecstrs)
    (hsoffs : ec'.ecsoffs = st.ec.ecsoffs) (hssub : ec'.ecssub = st.ec.ecssub)
    (hnfunc : ec'.ecnfunc = st.ec.ecnfunc) : st.ec.Updates ec' :=
  Ec.Updates.congr ⟨h.stored, .refl st.ec, rfl, h.small⟩ hstrs hsoffs hssub hnfunc

theorem Inv.append (h : st.Inv) {it : Item} (hec : st.ec.Updates ec')
    (hbuf : ec'.ecbuf = st.ec.ecbuf ++ it.words) (hhdocs : ec'.hdocs = st.ec.hdocs)
    (hmarks : ∃ m, it.marks = List.replicate m none)
    (hgood : it.Good ec'.ecstrs.nodes st.ec.ecssub ec'.ecsoffs) :
    Inv { st with ec := ec', items := st.items ++ [it] } := by
  refine h.within hec ?_ ?_ fun it' hit' => ?_
  · rw [hbuf, h.buf, wordsOf_append, wordsOf_singleton, List.append_assoc]
  · obtain ⟨m, hm⟩ := hmarks
    rw [hhdocs, marksOf_append, marksOf_singleton, hm, ← List.append_assoc]
    exact h.marked.append m
  · refine (List.mem_append.mp hit').imp_right fun hlast => ?_
    rw [List.mem_singleton.mp hlast]
    exact hgood

theorem Inv.replace (h : st.Inv) {w c : Wordcode} {it : Item} (hitems : st.items = A ++ .word w :: B)
    (hec : st.ec.Updates ec') (hbuf : ec'.ecbuf = st.ec.ecbuf.set (st.pos A.length) c)
    (hhdocs : ec'.hdocs = st.ec.hdocs) (hwords : it.words = [c]) (hmarks : it.marks = [none])
    (hgood : it.Good ec'.ecstrs.nodes st.ec.ecssub ec'.ecsoffs) :
    Inv { st with ec := ec', items := st.items.set A.length it } := by
  have hset : st.items.set A.length it = A ++ it :: B := by
    rw [hitems, List.set_append_right _ _ (Nat.le_refl _), Nat.sub_self]
    rfl
  have hold : st.ec.ecbuf = (outerWords st.functions ++ wordsOf A) ++ w :: wordsOf B := by
    rw [h.buf, hitems, wordsOf_append, ← List.append_assoc]
    rfl
  have hnew : outerWords st.functions ++ wordsOf (A ++ it :: B) =
      (outerWords st.functions ++ wordsOf A) ++ c :: wordsOf B := by
    rw [wordsOf_append, ← List.append_assoc]
    show _ ++ (it.words ++ wordsOf B) = _
    rw [hwords]
    rfl
  have hsame : marksOf (A ++ it :: B) = marksOf st.items := by
    rw [hitems, marksOf_append, marksOf_append]
    show _ ++ (it.marks ++ marksOf B) = _
    rw [hmarks]
    rfl
  rw [hset]
  refine h.within hec ?_ ?_ fun it' hit' => ?_
  · rw [hbuf, hold, hnew, h.pos_eq hitems, List.set_append_right _ _ (Nat.le_refl _), Nat.sub_self]
    rfl
  · rw [hhdocs, hsame]
    exact h.marked
  · rw [hitems, List.mem_append, List.mem_cons]
    rcases List.mem_append.mp hit' with hA | hB
    · exact .inl (.inl hA)
    · rcases List.mem_cons.mp hB with rfl | hB
      · exact .inr hgood
      · exact .inl (.inr (.inr hB))

theorem exists_of_getElem? {α : Type} {l : List α} {k : Nat} {a : α} (h : l[k]? = some a) :
    ∃ A B, l = A ++ a :: B ∧ A.length = k := by
  obtain ⟨hk, rfl⟩ := List.getElem?_eq_some_iff.mp h
  refine ⟨l.take k, l.drop (k + 1), ?_, List.length_take_of_le (Nat.le_of_lt hk)⟩
  rw [List.getElem_cons_drop hk, List.take_append_drop]

theorem exists_of_le {α : Type} {l : List α} {k : Nat} (h : k ≤ l.length) :
    ∃ A B, l = A ++ B ∧ A.length = k :=
  ⟨l.take k, l.drop k, (List.take_append_drop k l).symm, List.length_take_of_le h⟩

section Storing

variable {ec : Ec} {s : CStr}

theorem ecstrcode_buffer (ec : Ec) (s : CStr) (buf : List Wordcode) (hdocs : List Heredocs) :
    ({ ec with ecbuf := buf, hdocs := hdocs } : Ec).ecstrcode s =
      ((ec.ecstrcode s).1, { (ec.ecstrcode s).2 with ecbuf := buf, hdocs := hdocs }) := by
  unfold Ec.ecstrcode
  dsimp only
  by_cases hshort : s.memory.length ≤ 4
  · rw [if_pos hshort, if_pos hshort]
  · rw [if_neg hshort, if_neg hshort]
    cases ec.ecstrs.find (eccstrcmp ec.ecnfunc s) <;> rfl

theorem storeStr_buffer (ec : Ec) (p : Nat) (s : CStr) (buf : List Wordcode)
    (hdocs : List Heredocs) :
    ({ ec with ecbuf := buf, hdocs := hdocs } : Ec).storeStr p s =
      { (ec.ecstrcode s).2 with ecbuf := buf.set p (ec.ecstrcode s).1, hdocs := hdocs } := by
  unfold Ec.storeStr
  rw [ecstrcode_buffer]
  rfl

theorem ecstrcode_ecbuf (ec : Ec) (s : CStr) : (ec.ecstrcode s).2.ecbuf = ec.ecbuf := by
  rw [ec.ecstrcode_eq s]

theorem ecstrcode_ecssub (ec : Ec) (s : CStr) : (ec.ecstrcode s).2.ecssub = ec.ecssub := by
  rw [ec.ecstrcode_eq s]

theorem ecstrcode_hdocs (ec : Ec) (s : CStr) : (ec.ecstrcode s).2.hdocs = ec.hdocs := by
  rw [ec.ecstrcode_eq s]

theorem updates_ecstrcode (h : ec.Stored) (hsmall : ec.ecsoffs + s.memory.length ≤ 2 ^ 30) :
    ec.Updates (ec.ecstrcode s).2 := by
  obtain ⟨hstored, hgrows, hle, -⟩ := ec.ecstrcode_spec h s
  exact ⟨hstored, hgrows, ecstrcode_ecssub ec s, Nat.le_trans hle hsmall⟩

theorem set_middle {α : Type} {X L Y : List α} {i : Nat} (h : i < L.length) (c : α) :
    (X ++ L ++ Y).set (X.length + i) c = X ++ L.set i c ++ Y := by
  rw [List.append_assoc, List.set_append_right _ _ (Nat.le_add_right _ _), Nat.add_sub_cancel_left,
    List.set_append_left _ _ h, List.append_assoc]

theorem getD_middle {α : Type} {X L Y : List α} {i : Nat} (h : i < L.length) (d : α) :
    (X ++ L ++ Y).getD (X.length + i) d = L.getD i d := by
  rw [List.getD_eq_getElem?_getD, List.getD_eq_getElem?_getD, List.append_assoc,
    List.getElem?_append_right (Nat.le_add_right _ _), Nat.add_sub_cancel_left,
    List.getElem?_append_left h]

theorem storeStr_spec (h : ec.Stored) (p : Nat) {m : Nat}
    (hsmall : ec.ecsoffs + (s.memory.length + m) ≤ 2 ^ 30) :
    ∃ c, (ec.storeStr p s).ecbuf = ec.ecbuf.set p c ∧ (ec.storeStr p s).hdocs = ec.hdocs ∧
      ec.Updates (ec.storeStr p s) ∧ (ec.storeStr p s).ecsoffs + m ≤ 2 ^ 30 ∧
      Coded (ec.storeStr p s).ecstrs.nodes ec.ecssub (ec.storeStr p s).ecsoffs (c, s) := by
  obtain ⟨hstored, hgrows, hle, hcoded⟩ := ec.ecstrcode_spec h s
  refine ⟨(ec.ecstrcode s).1, ?_, ecstrcode_hdocs ec s, ?_, ?_, hcoded⟩
  · show (ec.ecstrcode s).2.ecbuf.set _ _ = _
    rw [ecstrcode_ecbuf]
  · exact (updates_ecstrcode h (by omega)).congr rfl rfl rfl rfl
  · show (ec.ecstrcode s).2.ecsoffs + m ≤ 2 ^ 30
    omega

theorem setheredoc_spec (h : ec.Stored) {X Y : List Wordcode} {r : Redir}
    (hbuf : ec.ecbuf = X ++ r.words ++ Y) (type : Nat) (doc term munged : CStr)
    (hsmall : ec.ecsoffs + (doc.memory.length + (term.memory.length + (munged.memory.length + 0))) ≤
      2 ^ 30) :
    let ec' := ec.setheredoc X.length type doc term munged
    ∃ head c₁ c₂ c₃,
      ec'.ecbuf = X ++ { r with head := head, text := c₁, raw := c₂, munged := c₃ }.words ++ Y ∧
      ec'.hdocs = ec.hdocs ∧ ec.Updates ec' ∧
      Coded ec'.ecstrs.nodes ec.ecssub ec'.ecsoffs (c₁, doc) ∧
      Coded ec'.ecstrs.nodes ec.ecssub ec'.ecsoffs (c₂, term) ∧
      Coded ec'.ecstrs.nodes ec.ecssub ec'.ecsoffs (c₃, munged) := by
  intro ec'
  obtain ⟨head, hec⟩ : ∃ head, ec' = (((ec.store X.length head).storeStr (X.length + 2)
    doc).storeStr (X.length + 3) term).storeStr (X.length + 4) munged := ⟨_, rfl⟩
  have h₀ : ec.Updates (ec.store X.length head) :=
    Ec.Updates.congr ⟨h, .refl ec, rfl, by omega⟩ rfl rfl rfl rfl
  obtain ⟨c₁, hbuf₁, hhdocs₁, hup₁, hsmall₁, hcoded₁⟩ :=
    storeStr_spec h₀.stored (X.length + 2) hsmall
  obtain ⟨c₂, hbuf₂, hhdocs₂, hup₂, hsmall₂, hcoded₂⟩ :=
    storeStr_spec hup₁.stored (X.length + 3) hsmall₁
  obtain ⟨c₃, hbuf₃, hhdocs₃, hup₃, -, hcoded₃⟩ := storeStr_spec hup₂.stored (X.length + 4) hsmall₂
  rw [hec]
  refine ⟨head, c₁, c₂, c₃, ?_, ?_, ((h₀.trans hup₁).trans hup₂).trans hup₃, ?_, ?_, ?_⟩
  · have hwords := r.five_le_length
    have hfirst := @set_middle _ X r.words Y 0 (by omega) head
    rw [Nat.add_zero] at hfirst
    rw [hbuf₃, hbuf₂, hbuf₁]
    show List.set (List.set (List.set (List.set ec.ecbuf _ _) _ _) _ _) _ _ = _
    rw [hbuf, hfirst, set_middle (by simp only [List.length_set]; omega),
      set_middle (by simp only [List.length_set]; omega),
      set_middle (by simp only [List.length_set]; omega)]
    rfl
  · exact hhdocs₃.trans (hhdocs₂.trans hhdocs₁)
  · exact hcoded₁.mono (hup₂.grows.trans hup₃.grows).nodes (hup₂.grows.trans hup₃.grows).ecsoffs
  · rw [hup₁.ecssub] at hcoded₂
    exact hcoded₂.mono hup₃.grows.nodes hup₃.grows.ecsoffs
  · rw [hup₂.ecssub, hup₁.ecssub] at hcoded₃
    exact hcoded₃

end Storing

/-! ## The steps -/

theorem Inv.step_ecadd (h : st.Inv) {c : Wordcode} (hstep : st.step (.ecadd c) = some st') :
    st'.Inv := by
  cases hstep
  exact h.append (h.updates rfl rfl rfl rfl) rfl rfl ⟨1, rfl⟩ .word

theorem Inv.step_pattern (h : st.Inv) (hstep : st.step .pattern = some st') : st'.Inv := by
  cases hstep
  exact h.append (h.updates rfl rfl rfl rfl) rfl rfl ⟨1, rfl⟩ .word

theorem Inv.step_ecstr (h : st.Inv) {s : CStr} (hsmall : st.ec.ecsoffs + s.memory.length ≤ 2 ^ 30)
    (hstep : st.step (.ecstr s) = some st') : st'.Inv := by
  cases hstep
  obtain ⟨-, -, -, hcoded⟩ := st.ec.ecstrcode_spec h.stored s
  have hec : st.ec.Updates (st.ec.ecstr s) :=
    (updates_ecstrcode h.stored hsmall).congr rfl rfl rfl rfl
  refine h.append hec ?_ ?_ ⟨1, rfl⟩ (.str hcoded)
  · show (st.ec.ecstrcode s).2.ecbuf ++ _ = _
    rw [ecstrcode_ecbuf]
    rfl
  · exact ecstrcode_hdocs st.ec s

theorem Inv.step_ecispace (h : st.Inv) {k : Nat} {stale : List Wordcode}
    (hstep : st.step (.ecispace k stale) = some st') : st'.Inv := by
  unfold step at hstep
  dsimp only at hstep
  by_cases hk : k ≤ st.items.length
  · rw [if_pos hk] at hstep
    cases hstep
    obtain ⟨A, B, hitems, rfl⟩ := exists_of_le hk
    have htake : st.items.take A.length = A := by rw [hitems, List.take_left]
    have hdrop : st.items.drop A.length = B := by rw [hitems, List.drop_left]
    have hold : st.ec.ecbuf = (outerWords st.functions ++ wordsOf A) ++ wordsOf B := by
      rw [h.buf, hitems, wordsOf_append, ← List.append_assoc]
    have hmarks := h.marked
    unfold marks at hmarks
    rw [hitems, marksOf_append, ← List.append_assoc] at hmarks
    rw [htake, hdrop]
    refine h.within (h.updates rfl rfl rfl rfl) ?_ ?_ fun it hit => ?_
    · show st.ec.ecbuf.take (st.pos A.length) ++ stale ++ st.ec.ecbuf.drop (st.pos A.length) = _
      rw [hold, h.pos_eq hitems, List.take_left, List.drop_left, wordsOf_append, wordsOf_append,
        wordsOf_map_word]
      simp only [List.append_assoc]
    · have hinsert := hmarks.insert stale.length
      rw [← h.pos_eq_marks hitems] at hinsert
      rw [marksOf_append, marksOf_append, marksOf_map_word, ← List.append_assoc,
        ← List.append_assoc]
      exact hinsert
    · rw [hitems, List.mem_append]
      rcases List.mem_append.mp hit with hleft | hB
      · rcases List.mem_append.mp hleft with hA | hnew
        · exact .inl (.inl hA)
        · obtain ⟨w, -, rfl⟩ := List.mem_map.mp hnew
          exact .inr .word
      · exact .inl (.inr hB)
  · rw [if_neg hk] at hstep
    exact absurd hstep.symm (Option.some_ne_none st')

theorem exists_of_isWord {k : Nat} (h : isWord st.items[k]? = true) :
    ∃ A w B, st.items = A ++ .word w :: B ∧ A.length = k := by
  unfold isWord at h
  split at h
  · next w hk =>
    obtain ⟨A, B, hitems, hlength⟩ := exists_of_getElem? hk
    exact ⟨A, w, B, hitems, hlength⟩
  · exact absurd h Bool.false_ne_true

theorem Inv.step_store (h : st.Inv) {k : Nat} {c : Wordcode}
    (hstep : st.step (.store k c) = some st') : st'.Inv := by
  unfold step at hstep
  dsimp only at hstep
  by_cases hword : isWord st.items[k]? = true
  · rw [if_pos hword] at hstep
    cases hstep
    obtain ⟨A, w, B, hitems, rfl⟩ := exists_of_isWord hword
    exact h.replace hitems (h.updates rfl rfl rfl rfl) rfl rfl rfl rfl .word
  · rw [if_neg hword] at hstep
    exact absurd hstep.symm (Option.some_ne_none st')

theorem Inv.step_storeStr (h : st.Inv) {k : Nat} {s : CStr}
    (hsmall : st.ec.ecsoffs + s.memory.length ≤ 2 ^ 30)
    (hstep : st.step (.storeStr k s) = some st') : st'.Inv := by
  unfold step at hstep
  dsimp only at hstep
  by_cases hword : isWord st.items[k]? = true
  · rw [if_pos hword] at hstep
    cases hstep
    obtain ⟨A, w, B, hitems, rfl⟩ := exists_of_isWord hword
    obtain ⟨-, -, -, hcoded⟩ := st.ec.ecstrcode_spec h.stored s
    have hec : st.ec.Updates (st.ec.storeStr (st.pos A.length) s) :=
      (updates_ecstrcode h.stored hsmall).congr rfl rfl rfl rfl
    refine h.replace hitems hec ?_ ?_ rfl rfl (.str hcoded)
    · show (st.ec.ecstrcode s).2.ecbuf.set _ _ = _
      rw [ecstrcode_ecbuf]
    · exact ecstrcode_hdocs st.ec s
  · rw [if_neg hword] at hstep
    exact absurd hstep.symm (Option.some_ne_none st')

theorem Inv.step_ecdel (h : st.Inv) {k : Nat} (hstep : st.step (.ecdel k) = some st') :
    st'.Inv := by
  unfold step at hstep
  dsimp only at hstep
  by_cases hword : isWord st.items[k]? = true
  · rw [if_pos hword] at hstep
    cases hstep
    obtain ⟨A, w, B, hitems, rfl⟩ := exists_of_isWord hword
    have herase : st.items.eraseIdx A.length = A ++ B := by
      rw [hitems, List.eraseIdx_append_of_length_le (Nat.le_refl _), Nat.sub_self]
      rfl
    have hold : st.ec.ecbuf = (outerWords st.functions ++ wordsOf A) ++ w :: wordsOf B := by
      rw [h.buf, hitems, wordsOf_append, ← List.append_assoc]
      rfl
    have hmarks := h.marked
    unfold marks at hmarks
    rw [hitems, marksOf_append, ← List.append_assoc] at hmarks
    rw [herase]
    refine h.within (h.updates rfl rfl rfl rfl) ?_ ?_ fun it hit => ?_
    · show st.ec.ecbuf.eraseIdx (st.pos A.length) = _
      rw [hold, h.pos_eq hitems, List.eraseIdx_append_of_length_le (Nat.le_refl _), Nat.sub_self,
        wordsOf_append, ← List.append_assoc]
      rfl
    · have heraseMarks := Marked.erase hmarks
      rw [← h.pos_eq_marks hitems] at heraseMarks
      rw [marksOf_append, ← List.append_assoc]
      exact heraseMarks
    · rw [hitems, List.mem_append, List.mem_cons]
      exact .inl ((List.mem_append.mp hit).imp_right .inr)
  · rw [if_neg hword] at hstep
    exact absurd hstep.symm (Option.some_ne_none st')

theorem heredocRedir_spec {ec : Ec} {X Y : List Wordcode} (hbuf : ec.ecbuf = X ++ Y)
    (type fd id : Nat) (term : CStr) (idstring : Option CStr)
    (stale : Wordcode × Wordcode × Wordcode) :
    let r := redirOf ec type fd id term idstring stale
    let ec' := ec.heredocRedir X.length type fd id term idstring stale
    ec'.ecbuf = X ++ r.words ++ Y ∧
      ec'.hdocs = shifted X.length r.words.length ec.hdocs ++
        [{ type := type, pc := X.length, str := term, redir := id }] ∧
      ec' = { (idstring.elim ec fun s => (ec.ecstrcode s).2) with
        ecbuf := ec'.ecbuf, hdocs := ec'.hdocs } := by
  intro r ec'
  have hhead (L : List Wordcode) (w : Wordcode) (hL : 1 < L.length) :
      ((X ++ L ++ Y).set X.length w).set (X.length + 1) fd = X ++ (L.set 0 w).set 1 fd ++ Y := by
    have hfirst := @set_middle _ X L Y 0 (by omega) w
    rw [Nat.add_zero] at hfirst
    rw [hfirst, set_middle (by rw [List.length_set]; exact hL)]
  cases idstring with
  | none =>
    refine ⟨?_, rfl, rfl⟩
    show (((ec.ecbuf.take X.length ++ [0, 0, stale.1, stale.2.1, stale.2.2] ++
      ec.ecbuf.drop X.length).set X.length _).set (X.length + 1) fd) = _
    rw [hbuf, List.take_left, List.drop_left, hhead _ _ (Nat.le_add_left _ _)]
    show _ = X ++ [wcbRedir (type ||| 0 ||| redirFromHeredocMask), _, _, _, _] ++ Y
    rw [Nat.or_zero]
    rfl
  | some s =>
    have hstored : ec' = { (ec.ecstrcode s).2 with
        ecbuf := (((ec.ecbuf.take X.length ++ [0, 0, stale.1, stale.2.1, stale.2.2, 0] ++
          ec.ecbuf.drop X.length).set X.length
            (wcbRedir (type ||| redirVaridMask ||| redirFromHeredocMask))).set (X.length + 1)
            fd).set (X.length + 5) (ec.ecstrcode s).1
        hdocs := shifted X.length 6 ec.hdocs ++
          [{ type := type, pc := X.length, str := term, redir := id }] } :=
      congrArg (fun e : Ec => ({ e with
        hdocs := e.hdocs ++ [{ type := type, pc := X.length, str := term, redir := id }] } : Ec))
        (storeStr_buffer ec (X.length + 5) s _ (shifted X.length 6 ec.hdocs))
    rw [hstored]
    refine ⟨?_, rfl, rfl⟩
    show List.set _ _ _ = _
    rw [hbuf, List.take_left, List.drop_left, hhead _ _ (Nat.le_add_left _ _),
      set_middle (Nat.le_refl _)]
    rfl

theorem Inv.step_heredoc (h : st.Inv) {k type fd : Nat} {term : CStr} {idstring : Option CStr}
    {stale : Wordcode × Wordcode × Wordcode}
    (hsmall : st.ec.ecsoffs + (idstring.toList.map fun s => s.memory.length).sum ≤ 2 ^ 30)
    (hstep : st.step (.heredoc k type fd term idstring stale) = some st') : st'.Inv := by
  obtain ⟨hk, hst⟩ := Option.ite_none_right_eq_some.mp hstep
  cases hst
  obtain ⟨A, B, hitems, rfl⟩ := exists_of_le hk
  have htake : st.items.take A.length = A := by rw [hitems, List.take_left]
  have hdrop : st.items.drop A.length = B := by rw [hitems, List.drop_left]
  have hold : st.ec.ecbuf = (outerWords st.functions ++ wordsOf A) ++ wordsOf B := by
    rw [h.buf, hitems, wordsOf_append, ← List.append_assoc]
  have hmarks := h.marked
  unfold marks at hmarks
  rw [hitems, marksOf_append, ← List.append_assoc] at hmarks
  obtain ⟨hbuf, hhdocs, hec⟩ := heredocRedir_spec hold type fd st.redirs term idstring stale
  rw [← h.pos_eq hitems] at hbuf hhdocs hec
  rw [htake, hdrop]
  have hvar : ∀ s, idstring = some s → st.ec.ecsoffs + s.memory.length ≤ 2 ^ 30 := by
    rintro s rfl
    exact hsmall
  have hupdates : st.ec.Updates
      (st.ec.heredocRedir (st.pos A.length) type fd st.redirs term idstring stale) := by
    rw [hec]
    cases idstring with
    | none => exact h.updates rfl rfl rfl rfl
    | some s => exact (updates_ecstrcode h.stored (hvar s rfl)).congr rfl rfl rfl rfl
  refine h.within hupdates ?_ ?_ fun it hit => ?_
  · rw [hbuf, wordsOf_append, wordsOf_append, wordsOf_singleton, ← List.append_assoc,
      ← List.append_assoc]
    rfl
  · obtain ⟨m, hm⟩ := Nat.exists_eq_succ_of_ne_zero
      (redirOf st.ec type fd st.redirs term idstring stale).words_ne_nil
    have hinsert := Marked.insertRedir (r := redirOf st.ec type fd st.redirs term idstring stale)
      hmarks rfl m type
    rw [← h.pos_eq_marks hitems] at hinsert
    rw [hhdocs, hm, marksOf_append, marksOf_append, marksOf_singleton, ← List.append_assoc,
      ← List.append_assoc]
    show Marked (_ ++ some _ :: List.replicate (_ - 1) none ++ _) _ _
    rw [hm]
    exact hinsert
  · rw [hitems, List.mem_append]
    rcases List.mem_append.mp hit with hleft | hB
    · rcases List.mem_append.mp hleft with hA | hnew
      · exact .inl (.inl hA)
      · rw [List.mem_singleton.mp hnew, hec]
        refine .inr (.redir (fun doc munged hdoc => ?_) fun v hv => ?_)
        · exact absurd hdoc.symm (Option.some_ne_none _)
        · cases idstring with
          | none => exact absurd hv.symm (Option.some_ne_none _)
          | some s =>
            cases hv
            exact (st.ec.ecstrcode_spec h.stored s).2.2.2
    · exact .inl (.inr hB)

theorem mapM_slot {items : List Item} {names : List (Wordcode × CStr)}
    (h : items.mapM Item.slot = some names) : items = names.map fun n => .str n.1 n.2 := by
  induction items generalizing names with
  | nil =>
    cases h
    rfl
  | cons it items ih =>
    rw [List.mapM_cons] at h
    obtain ⟨n, hn, hrest⟩ := Option.bind_eq_some_iff.mp h
    obtain ⟨rest, hmap, hnames⟩ := Option.bind_eq_some_iff.mp hrest
    cases hnames
    rw [ih hmap]
    cases it with
    | str w s =>
      cases hn
      rfl
    | word _ => exact absurd hn.symm (Option.some_ne_none n)
    | redir _ => exact absurd hn.symm (Option.some_ne_none n)
    | func _ _ => exact absurd hn.symm (Option.some_ne_none n)

theorem headerOf_spec {num : Nat} {items before : List Item} {funcdef n : Wordcode}
    {names : List (Wordcode × CStr)}
    (h : headerOf num items = some (before, funcdef, n, names)) :
    items = before ++ [.word funcdef, .word n] ++ names.map (fun n => .str n.1 n.2) ∧
      names.length = num := by
  unfold headerOf at h
  dsimp only at h
  split at h
  · next w m rest hdrop =>
    obtain ⟨hlength, hmap⟩ := Option.ite_none_right_eq_some.mp h
    obtain ⟨slots, hslots, heq⟩ := Option.map_eq_some_iff.mp hmap
    cases heq
    have hrest := mapM_slot hslots
    constructor
    · conv => lhs; rw [← List.take_append_drop (items.length - (num + 2)) items, hdrop, hrest]
      rw [List.append_assoc]
      rfl
    · rw [← hlength, hrest, List.length_map]
  · exact absurd h.symm (Option.some_ne_none _)

theorem Inv.step_functionStart (h : st.Inv) {num : Nat}
    (hstep : st.step (.functionStart num) = some st') : st'.Inv := by
  unfold step at hstep
  dsimp only at hstep
  cases hheader : headerOf num st.items with
  | none =>
    rw [hheader] at hstep
    exact absurd hstep.symm (Option.some_ne_none st')
  | some r =>
    obtain ⟨before, funcdef, n, names⟩ := r
    rw [hheader] at hstep
    cases hstep
    obtain ⟨hitems, hnum⟩ := headerOf_spec hheader
    have hwords : wordsOf st.items = wordsOf before ++ (funcdef :: n :: names.map Prod.fst) := by
      rw [hitems, wordsOf_append, wordsOf_append, wordsOf_names, List.append_assoc]
      rfl
    have hmarks : marksOf st.items = marksOf before ++ List.replicate (names.length + 2) none := by
      rw [hitems, marksOf_append, marksOf_append, marksOf_names, List.append_assoc]
      rfl
    have hmem : ∀ it, it ∈ before ∨ it ∈ names.map (fun n => Item.str n.1 n.2) → it ∈ st.items := by
      intro it hit
      rw [hitems, List.mem_append, List.mem_append]
      exact hit.imp .inl id
    constructor
    · show st.ec.ecbuf ++ [0] ++ [0] ++ [0] ++ [0] =
        (outerWords st.functions ++ wordsOf before ++
          (funcdef :: n :: (names.map Prod.fst ++ [0, 0, 0, 0]))) ++ []
      rw [h.buf, hwords]
      simp only [List.append_assoc, List.cons_append, List.nil_append, List.append_nil]
    · have hmarked := h.marked.append 4
      unfold marks at hmarked ⊢
      rw [hmarks, List.append_assoc, List.append_assoc, List.replicate_append_replicate] at hmarked
      show Marked ((outerMarks st.functions ++ marksOf before ++ List.replicate _ none) ++ []) _ _
      rw [Header.length_words, List.append_nil, List.append_assoc]
      exact hmarked
    · exact Strings.enter h.stored (Nat.le_refl _)
    · exact fun it hit => absurd hit List.not_mem_nil
    · refine ⟨⟨rfl, h.stored.base_le⟩, ⟨?_, hnum.symm⟩, fun it hit => h.good it (hmem it (.inl hit)),
        fun m hm => ?_, h.outer⟩
      · show st.base + _ = _
        rw [h.base_eq, List.length_append]
      · have hstr := h.good (.str m.1 m.2) (hmem _ (.inr (List.mem_map_of_mem hm)))
        cases hstr with
        | str hcoded => exact hcoded
    · exact h.small

theorem wcData_wcbFuncdef {skip : Nat} (h : skip < 2 ^ 27) : wcData (wcbFuncdef skip) = skip := by
  have hbits : 11 ||| skip <<< 5 = 11 + skip * 2 ^ 5 := or_shiftLeft (by decide) skip
  unfold wcData wcbFuncdef wcBld
  rw [hbits, Nat.mod_eq_of_lt (by omega), Nat.shiftRight_eq_div_pow]
  omega

theorem functionEnd_ecbuf {ec : Ec} {f : Funcdef} {X N rest : List Wordcode}
    {funcdef n sbeg nstrs npats tracing' : Wordcode} (tracing : Wordcode)
    (hbuf : ec.ecbuf = X ++ (funcdef :: n :: (N ++ [sbeg, nstrs, npats, tracing'] ++ rest)))
    (hp : f.p = X.length) (hnum : f.num = N.length) :
    (ec.functionEnd f tracing).ecbuf =
      X ++ (wcbFuncdef (N.length + 5 + (rest ++ [wcbEnd]).length) :: f.num % 2 ^ 32 ::
        (N ++ [(f.so - f.oecssub) % 2 ^ 32, (ec.ecsoffs - f.so) % 2 ^ 32, ec.ecnpats % 2 ^ 32,
          tracing] ++ (rest ++ [wcbEnd]))) := by
  have hset (L : List Wordcode) (i : Nat) (c : Wordcode) :
      (X ++ L).set (X.length + i) c = X ++ L.set i c := by
    rw [List.set_append_right _ _ (Nat.le_add_right _ _), Nat.add_sub_cancel_left]
  have hend : ec.ecbuf ++ [wcbEnd] =
      X ++ (funcdef :: n :: (N ++ [sbeg, nstrs, npats, tracing'] ++ (rest ++ [wcbEnd]))) := by
    rw [hbuf]
    simp only [List.append_assoc, List.cons_append]
  have hskip : (X ++ (funcdef :: n :: (N ++ [sbeg, nstrs, npats, tracing'] ++
      (rest ++ [wcbEnd])))).length - 1 - X.length = N.length + 5 + (rest ++ [wcbEnd]).length := by
    simp only [List.length_append, List.length_cons, List.length_nil]
    omega
  have hfirst (L : List Wordcode) (c : Wordcode) : (X ++ L).set X.length c = X ++ L.set 0 c :=
    hset L 0 c
  obtain ⟨buf, hstores⟩ : ∃ buf, buf = (((((ec.ecbuf ++ [wcbEnd]).set (f.p + f.num + 2)
    ((f.so - f.oecssub) % 2 ^ 32)).set (f.p + f.num + 3) ((ec.ecsoffs - f.so) % 2 ^ 32)).set
      (f.p + f.num + 4) (ec.ecnpats % 2 ^ 32)).set (f.p + f.num + 5) tracing).set (f.p + 1)
        (f.num % 2 ^ 32) := ⟨_, rfl⟩
  have hstart : (ec.functionEnd f tracing).ecbuf =
      buf.set f.p (wcbFuncdef (buf.length - 1 - f.p)) := by
    rw [hstores]
    rfl
  have hlength : buf.length = (ec.ecbuf ++ [wcbEnd]).length := by
    rw [hstores]
    simp only [List.length_set]
  rw [hstart, hlength, hstores, hend, hp, hskip, hnum]
  rw [Nat.add_assoc, hset, Nat.add_assoc, hset, Nat.add_assoc, hset, Nat.add_assoc, hset, hset,
    hfirst]
  show X ++ (_ :: _ :: (List.set (List.set (List.set (List.set _ N.length _) (N.length + 1) _)
    (N.length + 2) _) (N.length + 3) _)) = _
  have hnames := @set_middle _ N [sbeg, nstrs, npats, tracing'] (rest ++ [wcbEnd]) 0 (by simp)
    ((f.so - f.oecssub) % 2 ^ 32)
  rw [Nat.add_zero] at hnames
  rw [hnames, set_middle (by simp), set_middle (by simp), set_middle (by simp)]
  rfl

theorem Inv.step_functionEnd (h : st.Inv) {tracing : Wordcode} (hused : st.ec.ecused < 2 ^ 27)
    (hstep : st.step (.functionEnd tracing) = some st') : st'.Inv := by
  unfold step at hstep
  dsimp only at hstep
  cases hf : st.functions with
  | nil =>
    rw [hf] at hstep
    exact absurd hstep.symm (Option.some_ne_none st')
  | cons f functions =>
    rw [hf] at hstep
    cases hstep
    have houter := h.outer
    have hbuf := h.buf
    have hmarked := h.marked
    unfold marks at hmarked
    rw [hf] at houter hbuf hmarked
    obtain ⟨⟨hso, hsub⟩, ⟨hp, hnum⟩, hbefore, hnames, hrest⟩ := houter
    have hbase := h.stored.base_le
    have hsmall := h.small
    have hlength : st.ec.ecused = (outerWords functions ++ wordsOf f.before).length +
        (f.head.names.length + 6) + (wordsOf st.items).length := by
      unfold Ec.ecused
      rw [hbuf]
      show (_ ++ f.head.words ++ _).length = _
      rw [List.length_append, List.length_append, Header.length_words]
    have hbody : wordsOf (st.items ++ [.word wcbEnd]) = wordsOf st.items ++ [wcbEnd] :=
      wordsOf_append _ _
    have hcodes := functionEnd_ecbuf tracing (N := f.head.names.map Prod.fst) (by
      rw [hbuf]
      show _ ++ (_ :: _ :: (_ ++ _)) ++ _ = _
      rw [List.append_assoc]
      rfl) hp (by rw [hnum, List.length_map])
    rw [List.length_map, ← hbody] at hcodes
    have hnstrs : (st.ec.ecsoffs - f.funcdef.so) % 2 ^ 32 = st.ec.ecsoffs - f.funcdef.so :=
      Nat.mod_eq_of_lt (by omega)
    have hle : f.funcdef.oecssub ≤ f.funcdef.so := by rw [hso]; exact hsub
    constructor
    · show (st.ec.functionEnd f.funcdef tracing).ecbuf =
        outerWords functions ++ wordsOf (f.before ++ [.func _ (st.items ++ [.word wcbEnd])])
      rw [hcodes, wordsOf_append f.before, wordsOf_singleton, ← List.append_assoc]
      show _ = _ ++ (_ :: _ :: (_ ++ _) ++ wordsOf (st.items ++ [.word wcbEnd]))
      rw [hbody]
      rfl
    · have hend := hmarked.append 1
      unfold outerMarks at hend
      rw [List.append_assoc, List.append_assoc] at hend
      show Marked (outerMarks functions ++ marksOf (f.before ++ [.func _ (st.items ++ [.word _])])) _ _
      rw [marksOf_append, marksOf_singleton, ← List.append_assoc]
      show Marked (_ ++ (List.replicate (Header.words _).length none ++
        marksOf (st.items ++ [.word wcbEnd]))) _ _
      rw [Header.length_words, marksOf_append, ← Header.length_words f.head]
      exact hend
    · exact Strings.enter h.stored (Nat.le_trans hsub hbase)
    · intro it hit
      show it.Good st.ec.ecstrs.nodes f.funcdef.oecssub st.ec.ecsoffs
      rcases List.mem_append.mp hit with hit | hit
      · exact hbefore it hit
      · rw [List.mem_singleton.mp hit]
        refine .func hle ?_ (Nat.mod_eq_of_lt (by omega)) ?_ ?_ hnames ?_
        · show f.funcdef.so + _ % 2 ^ 32 ≤ st.ec.ecsoffs
          rw [hnstrs]
          omega
        · rw [← hnum]
          exact Nat.mod_eq_of_lt (by omega)
        · refine wcData_wcbFuncdef ?_
          rw [hbody, List.length_append]
          show _ + (_ + 1) < _
          omega
        · show ∀ it ∈ _, Item.Good _ _ (f.funcdef.so + _ % 2 ^ 32) it
          rw [hnstrs, hso, Nat.add_sub_cancel' hbase]
          intro it hit
          rcases List.mem_append.mp hit with hit | hit
          · exact h.good it hit
          · rw [List.mem_singleton.mp hit]
            exact .word
    · exact hrest
    · exact hsmall

theorem exists_of_isRedir {k : Nat} {items : List Item} (h : items.any (Item.isRedir k) = true) :
    ∃ A r B, items = A ++ .redir r :: B ∧ r.id = k := by
  obtain ⟨it, hit, hk⟩ := List.any_eq_true.mp h
  obtain ⟨A, B, rfl⟩ := List.append_of_mem hit
  cases it with
  | redir r => exact ⟨A, r, B, rfl, of_decide_eq_true hk⟩
  | word _ => exact absurd hk Bool.false_ne_true
  | str _ _ => exact absurd hk Bool.false_ne_true
  | func _ _ => exact absurd hk Bool.false_ne_true

theorem Inv.step_gethere (h : st.Inv) {doc munged : CStr}
    (hmeets : (Act.gethere doc munged).Meets st)
    (hstep : st.step (.gethere doc munged) = some st') : st'.Inv := by
  obtain ⟨-, hsmall, hin⟩ := hmeets
  unfold step Ec.gethere at hstep
  unfold Act.strings at hsmall
  unfold Act.inTime at hin
  have hmarks := h.marked
  cases hhdocs : st.ec.hdocs with
  | nil =>
    rw [hhdocs] at hstep
    exact absurd hstep.symm (Option.some_ne_none st')
  | cons d ds =>
    rw [hhdocs] at hstep hsmall hin hmarks
    dsimp only at hstep hin
    cases hstep
    obtain ⟨A, r, B, hitems, hk⟩ := exists_of_isRedir hin
    have hold : st.ec.ecbuf = (outerWords st.functions ++ wordsOf A) ++ r.words ++ wordsOf B := by
      rw [h.buf, hitems, wordsOf_append, ← List.append_assoc, List.append_assoc _ r.words]
      rfl
    unfold marks at hmarks
    rw [hitems, marksOf_append, ← List.append_assoc] at hmarks
    have hthere : Marked (outerMarks st.functions ++ marksOf A ++
        some r :: (List.replicate (r.words.length - 1) none ++ marksOf B)) (d :: ds) st.redirs :=
      hmarks
    obtain ⟨hpc, hstr⟩ := hthere.placed List.mem_cons_self hk.symm
    rw [← h.pos_eq_marks hitems, h.pos_eq hitems] at hpc
    have hsum : st.ec.ecsoffs + (doc.memory.length + (d.str.memory.length +
        (munged.memory.length + 0))) ≤ 2 ^ 30 := by
      simp only [List.map_cons, List.take_succ_cons, List.take_zero, List.sum_cons] at hsmall
      omega
    obtain ⟨head, c₁, c₂, c₃, hbuf, -, hup, hcoded₁, hcoded₂, hcoded₃⟩ :=
      setheredoc_spec h.stored hold redirHerestr doc d.str munged hsum
    rw [← hpc] at hbuf hup hcoded₁ hcoded₂ hcoded₃
    obtain ⟨ec', hec⟩ : ∃ ec', ec' = st.ec.setheredoc d.pc redirHerestr doc d.str munged :=
      ⟨_, rfl⟩
    rw [← hec] at hbuf hup hcoded₁ hcoded₂ hcoded₃
    have hother (s : Redir) (hs : some s ∈ outerMarks st.functions ++ marksOf A ∨
        some s ∈ marksOf B) : s.id ≠ d.redir := by
      rw [← hk]
      exact hthere.others (List.mem_append.mpr (hs.imp_right fun hB => List.mem_append_right _ hB))
    have hfunctions (f : Redir → Redir) : st.functions.map (fun g =>
        { g with before := updateAll d.redir f g.before }) = st.functions := by
      have hall : st.functions.map (fun g =>
          { g with before := updateAll d.redir f g.before }) = st.functions.map id :=
        List.map_congr_left fun g hg => by
          rw [updateAll_of_forall f fun s hs =>
            hother s (.inl (List.mem_append_left _ (mem_outerMarks hg hs)))]
          rfl
      rw [hall, List.map_id]
    have hword (i : Nat) (hi : i < 5) : ec'.ecbuf.getD (d.pc + i) 0 =
        ([head, r.fd, c₁, c₂, c₃] ++ (r.var.map Prod.fst).toList).getD i 0 := by
      rw [hbuf, hpc]
      exact getD_middle (Nat.lt_of_lt_of_le hi (Redir.five_le_length _)) 0
    rw [← hec, hfunctions, hitems, updateAll_middle _ hk fun s hs =>
      hother s (hs.imp_left (List.mem_append_right _))]
    rw [show ec'.ecbuf.getD d.pc 0 = head from hword 0 (by decide), hword 2 (by decide),
      hword 3 (by decide), hword 4 (by decide)]
    refine h.within (hup.congr rfl rfl rfl rfl) ?_ ?_ fun it hit => ?_
    · show ec'.ecbuf = _
      rw [hbuf, wordsOf_append, ← List.append_assoc, List.append_assoc _ _ (wordsOf B)]
      rfl
    · rw [marksOf_append, ← List.append_assoc]
      exact hthere.complete hk.symm rfl rfl (Option.some_ne_none _)
    · rw [hitems, List.mem_append, List.mem_cons]
      rcases List.mem_append.mp hit with hA | hB
      · exact .inl (.inl hA)
      · rcases List.mem_cons.mp hB with rfl | hB
        · have hr := h.good (.redir r) (by rw [hitems]; exact List.mem_append_right _ List.mem_cons_self)
          cases hr with
          | redir hdoc hvar =>
            refine .inr (.redir (fun doc' munged' hsome => ?_) fun v hv =>
              (hvar v hv).mono hup.grows.nodes hup.grows.ecsoffs)
            cases hsome
            rw [← hstr]
            exact ⟨hcoded₁, hcoded₂, hcoded₃⟩
        · exact .inl (.inr (.inr hB))

theorem inv_start : start.Inv where
  buf := rfl
  marked := .nil 0
  stored :=
    { fits := fun _ hn => absurd hn List.not_mem_nil
      apart := fun _ hn => absurd hn List.not_mem_nil
      past := fun _ hn => absurd hn List.not_mem_nil
      current := fun _ hn => absurd hn List.not_mem_nil
      base_le := Nat.le_refl 0 }
  good _ hit := absurd hit List.not_mem_nil
  outer := rfl
  small := Nat.zero_le _

theorem Inv.step (h : st.Inv) {act : Act} (hmeets : act.Meets st)
    (hstep : st.step act = some st') : st'.Inv := by
  obtain ⟨hused, hsmall, -⟩ := id hmeets
  cases act with
  | ecadd c => exact h.step_ecadd hstep
  | pattern => exact h.step_pattern hstep
  | ecstr s => exact h.step_ecstr hsmall hstep
  | ecispace k stale => exact h.step_ecispace hstep
  | store k c => exact h.step_store hstep
  | storeStr k s => exact h.step_storeStr hsmall hstep
  | ecdel k => exact h.step_ecdel hstep
  | heredoc k type fd term idstring stale => exact h.step_heredoc hsmall hstep
  | functionStart num => exact h.step_functionStart hstep
  | functionEnd tracing => exact h.step_functionEnd hused hstep
  | gethere doc munged => exact h.step_gethere hmeets hstep

end Parse

theorem Reach.inv {st : Parse} (h : Reach (fun st act => act.Meets st) st) : st.Inv := by
  induction h with
  | start => exact Parse.inv_start
  | step _ hmeets hstep ih => exact ih.step hmeets hstep

end NextBSD.Zsh
