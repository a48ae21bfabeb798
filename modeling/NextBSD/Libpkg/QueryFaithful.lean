import NextBSD.Libpkg.QueryTaken

/-!
# Conditions of pkg query that are translated faithfully

The loop reads a condition piece by piece.  The SQL is that of the condition exactly when no
piece on the way is taken for another.
-/

namespace NextBSD.Libpkg.Query

open QuotedText

variable {forRemote : Bool} {c : Char} {k level level' : Nat}
  {str rest rest' sql t : List Char} {f : Field} {op op' : Operator} {τ : Type}

/-! ## Pieces as the loop takes them -/

theorem takeOperator_length {kind : Kind} (h : takeOperator kind str = .took op rest) :
    rest.length ≤ str.length := by
  have hread : ∀ kind str op rest, readOperator kind str = some (op, rest) →
      rest.length ≤ str.length := by
    intro kind str op rest hread
    unfold readOperator at hread
    split at hread <;> first
      | contradiction
      | (cases hread; simp only [List.length_cons]; omega)
  unfold takeOperator at h
  split at h
  · cases h
  · cases h
    simp only [List.length_cons]
    omega
  · cases h
    simp only [List.length_cons]
    omega
  · cases h
    simp only [List.length_cons]
    omega
  · split at h
    · cases h
    · rename_i hread'
      cases h
      exact hread _ _ _ _ hread'

theorem readQuoted_length {v : Value} (h : readQuoted c str = some (v, rest)) :
    rest.length < str.length := by
  have hlength := (str.dropWhile_sublist (fun d => decide (d ≠ c))).length_le
  unfold readQuoted at h
  split at h
  · cases h
  · rename_i d rest' hdrop
    cases h
    rwa [hdrop, List.length_cons] at hlength

theorem readValue_length {kind : Kind} {v : Value} (h : readValue kind str = some (v, rest)) :
    rest.length ≤ str.length := by
  unfold readValue at h
  split at h
  · cases h
  · split_ifs at h
    cases h
    exact (List.dropWhile_sublist _).length_le
  · split_ifs at h
    · exact (readQuoted_length h).le.trans (Nat.le_succ _)
    · cases h
      exact ((List.tail_sublist _).trans (List.dropWhile_sublist _)).length_le

/-- A test that is taken: its field, its operator and its value, one behind the other. -/
structure IsTaken (forRemote : Bool) (str : List Char) (t : TakenTest) (rest : List Char) :
    Prop where
  intro ::
  parts : ∃ body k vals, str = '%' :: body ∧
    switchField forRemote body = some (t.test.field, k) ∧ k ≤ body.length ∧
    takeOperator t.test.field.kind ((body.drop k).dropWhile isspace) = .took t.test.operator vals ∧
    readValue t.test.field.kind (vals.dropWhile isspace) = some (t.test.value, rest) ∧
    t.misread = ((t.test.field.multiline && t.test.field.pending.isNone) ||
      misreadOperator t.test.field.kind ((body.drop k).dropWhile isspace))

theorem isTaken {t : TakenTest} (h : takenTest forRemote str = some (t, rest)) :
    IsTaken forRemote str t rest := by
  unfold takenTest at h
  split at h
  · rename_i t' rest' ht
    cases h
    unfold takeTest at ht
    split at ht
    · rename_i body
      split at ht
      · cases ht
      · rename_i f k hf
        split_ifs at ht with hk
        split at ht
        · cases ht
        · cases ht
        · rename_i op vals hop
          split at ht
          · cases ht
          · rename_i v rest'' hv
            cases ht
            exact ⟨body, k, vals, rfl, hf, Nat.not_lt.mp hk, hop, hv, rfl⟩
    · cases ht
  · cases h

theorem takenTest_length {t : TakenTest} (h : takenTest forRemote str = some (t, rest)) :
    rest.length < str.length := by
  obtain ⟨body, k, vals, rfl, -, -, hop, hv, -⟩ := (isTaken h).parts
  have hvalue := readValue_length hv
  have hoperator := takeOperator_length hop
  have hvals : (vals.dropWhile isspace).length ≤ vals.length := (List.dropWhile_sublist _).length_le
  have hbody : ((body.drop k).dropWhile isspace).length ≤ body.length :=
    ((List.dropWhile_sublist _).trans (List.drop_sublist k body)).length_le
  rw [List.length_cons]
  omega

theorem loop_before_other (hc : c ≠ '%') (hopening : c ≠ '(') (hblank : ¬(c = ' ' ∨ c = '\t')) :
    loop forRemote (between .before level sql) (c :: rest) = .fatal := by
  refine loop_fatal ?_
  simp only [step, between, Place.state, stepNone, if_neg hc, if_neg hopening, if_neg hblank]

theorem loop_opening :
    loop forRemote (between .before level sql) ('(' :: rest) =
      loop forRemote (between .before (nextLevel level) (sql ++ ['('])) rest := by
  refine loop_step ?_
  simp only [step, between, Place.state, stepNone, nextLevel, Scanner.print]
  rfl

theorem loop_blank (p : Place) (hc : c = ' ' ∨ c = '\t') :
    loop forRemote (between p level sql) (c :: rest) =
      loop forRemote (between p level sql) rest := by
  refine loop_step ?_
  cases p with
  | before =>
    rcases hc with rfl | rfl <;> rfl
  | after =>
    rcases hc with rfl | rfl <;> rfl

theorem loop_closing :
    loop forRemote (between .after level sql) (')' :: rest) =
      if level = 0 then .fatal
      else loop forRemote (between .after (level - 1) (sql ++ [')'])) rest := by
  have hstep : step forRemote (between .after level sql) ')' rest =
      if level = 0 then .fatal else .next (between .after (level - 1) (sql ++ [')'])) 0 := rfl
  split_ifs at hstep ⊢
  · exact loop_fatal hstep
  · exact loop_step hstep

theorem loop_or :
    loop forRemote (between .after level sql) ('|' :: '|' :: rest) =
      loop forRemote (between .before level (sql ++ " OR ".toList)) rest :=
  loop_step_one rfl

theorem loop_and :
    loop forRemote (between .after level sql) ('&' :: '&' :: rest) =
      loop forRemote (between .before level (sql ++ " AND ".toList)) rest :=
  loop_step_one rfl

theorem loop_after_other (hclosing : c ≠ ')') (hblank : ¬(c = ' ' ∨ c = '\t'))
    (hor : ¬(c = '|' ∧ rest.head? = some '|')) (hand : ¬(c = '&' ∧ rest.head? = some '&')) :
    loop forRemote (between .after level sql) (c :: rest) = .fatal := by
  refine loop_fatal ?_
  simp only [step, between, Place.state, stepPostExpr, if_neg hclosing, if_neg hblank]
  split_ifs with h1 h2 h3 h4
  · exact absurd ⟨h1, h2⟩ hor
  · rfl
  · exact absurd ⟨h3, h4⟩ hand
  · rfl
  · rfl

def takenSql (forRemote : Bool) (ps : List (Piece TakenTest)) : List Char :=
  sqlOf (fun t => t.test.sql forRemote) ps

theorem sqlOf_cons (testSql : τ → List Char) (p : Piece τ) (ps : List (Piece τ)) :
    sqlOf testSql (p :: ps) = p.sql testSql ++ sqlOf testSql ps := rfl

theorem loop_of_reads {stop : Place → List Char → Prop} {p : Place} {ps : List (Piece TakenTest)}
    (h : Reads (takenTest forRemote) stop p str ps)
    (hlevel : openBrackets nextLevel level ps = some level') :
    ∃ p' str', stop p' str' ∧ loop forRemote (between p level sql) str =
      loop forRemote (between p' level' (sql ++ takenSql forRemote ps)) str' := by
  induction h generalizing level sql with
  | @stop p str h =>
    cases hlevel
    exact ⟨p, str, h, by rw [takenSql, sqlOf, List.flatMap_nil, List.append_nil]⟩
  | @blank p c str ps hc h ih =>
    rw [loop_blank p hc]
    exact ih hlevel
  | opening h ih =>
    obtain ⟨p', str', hstop, hloop⟩ := @ih _ (sql ++ ['(']) hlevel
    refine ⟨p', str', hstop, ?_⟩
    rw [loop_opening, hloop, List.append_assoc]
    rfl
  | @test str rest t ps ht h ih =>
    obtain ⟨p', str', hstop, hloop⟩ := @ih _ (sql ++ t.test.sql forRemote) hlevel
    refine ⟨p', str', hstop, ?_⟩
    have htake : takeTest forRemote str = .took t rest := by
      unfold takenTest at ht
      split at ht
      · cases ht
        assumption
      · cases ht
    obtain ⟨body, k, vals, rfl, -⟩ := (isTaken ht).parts
    rw [loop_test, htake, afterTest, hloop, List.append_assoc]
    rfl
  | closing h ih =>
    cases level with
    | zero => cases hlevel
    | succ level =>
      obtain ⟨p', str', hstop, hloop⟩ := @ih _ (sql ++ [')']) hlevel
      refine ⟨p', str', hstop, ?_⟩
      rw [loop_closing, if_neg (Nat.succ_ne_zero level), Nat.add_sub_cancel, hloop,
        List.append_assoc]
      rfl
  | or h ih =>
    obtain ⟨p', str', hstop, hloop⟩ := @ih _ (sql ++ " OR ".toList) hlevel
    refine ⟨p', str', hstop, ?_⟩
    rw [loop_or, hloop, List.append_assoc]
    rfl
  | and h ih =>
    obtain ⟨p', str', hstop, hloop⟩ := @ih _ (sql ++ " AND ".toList) hlevel
    refine ⟨p', str', hstop, ?_⟩
    rw [loop_and, hloop, List.append_assoc]
    rfl

def IsStop (forRemote : Bool) (p : Place) (str : List Char) : Prop :=
  AtEnd p str ∨ p = .before ∧ takeTest forRemote str = .pastEnd

def HasReading (forRemote : Bool) (p : Place) (level : Nat) (str : List Char) : Prop :=
  ∃ ps p' str' level', IsStop forRemote p' str' ∧
    Reads (takenTest forRemote) (fun p s => p = p' ∧ s = str') p str ps ∧
    openBrackets nextLevel level ps = some level'

theorem hasReading_cons {p q : Place} {piece : Piece TakenTest}
    (h : HasReading forRemote q level' rest)
    (hreads : ∀ {stop : Place → List Char → Prop} {ps : List (Piece TakenTest)},
      Reads (takenTest forRemote) stop q rest ps →
        Reads (takenTest forRemote) stop p str (piece :: ps))
    (hlevel : ∀ ps : List (Piece TakenTest),
      openBrackets nextLevel level (piece :: ps) = openBrackets nextLevel level' ps) :
    HasReading forRemote p level str := by
  obtain ⟨ps, p', str', m, hstop, hps, hm⟩ := h
  exact ⟨piece :: ps, p', str', m, hstop, hreads hps, (hlevel ps).trans hm⟩

theorem hasReading_blank {p : Place} (hc : c = ' ' ∨ c = '\t')
    (h : HasReading forRemote p level rest) : HasReading forRemote p level (c :: rest) := by
  obtain ⟨ps, p', str', m, hstop, hps, hm⟩ := h
  exact ⟨ps, p', str', m, hstop, .blank hc hps, hm⟩

theorem hasReading_stop {p : Place} (h : IsStop forRemote p str) :
    HasReading forRemote p level str :=
  ⟨[], p, str, level, h, .stop ⟨rfl, rfl⟩, rfl⟩

theorem hasReading_of_loop (n : Nat) (hn : str.length = n) (p : Place)
    (h : loop forRemote (between p level sql) str ≠ .fatal) :
    HasReading forRemote p level str := by
  induction n using Nat.strong_induction_on generalizing str p level sql with
  | _ n ih =>
  cases str with
  | nil =>
    cases p with
    | before =>
      rw [loop_nil] at h
      exact absurd rfl h
    | after => exact hasReading_stop (.inl ⟨rfl, rfl⟩)
  | cons c rest =>
    rw [List.length_cons] at hn
    by_cases hblank : c = ' ' ∨ c = '\t'
    · rw [loop_blank p hblank] at h
      exact hasReading_blank hblank (ih _ (by omega) rfl p h)
    cases p with
    | before =>
      by_cases hopening : c = '('
      · subst hopening
        rw [loop_opening] at h
        exact hasReading_cons (ih _ (by omega) rfl .before h) .opening (fun _ => rfl)
      by_cases hc : c = '%'
      · subst hc
        rw [loop_test] at h
        cases htake : takeTest forRemote ('%' :: rest) with
        | refused =>
          rw [htake] at h
          exact absurd rfl h
        | pastEnd => exact hasReading_stop (.inr ⟨rfl, htake⟩)
        | took t str' =>
          rw [htake] at h
          have ht : takenTest forRemote ('%' :: rest) = some (t, str') := by
            rw [takenTest, htake]
          have hlength := takenTest_length ht
          rw [List.length_cons] at hlength
          exact hasReading_cons (ih _ (by omega) rfl .after h) (.test ht) (fun _ => rfl)
      · exact absurd (loop_before_other hc hopening hblank) h
    | after =>
      by_cases hclosing : c = ')'
      · subst hclosing
        rw [loop_closing] at h
        cases level with
        | zero => exact absurd rfl h
        | succ level =>
          exact hasReading_cons (ih _ (by omega) rfl .after h) .closing (fun _ => rfl)
      by_cases hor : c = '|' ∧ rest.head? = some '|'
      · obtain ⟨rfl, hrest⟩ := hor
        obtain ⟨rest, rfl⟩ := List.head?_eq_some_iff.mp hrest
        rw [loop_or] at h
        rw [List.length_cons] at hn
        exact hasReading_cons (ih _ (by omega) rfl .before h) .or (fun _ => rfl)
      by_cases hand : c = '&' ∧ rest.head? = some '&'
      · obtain ⟨rfl, hrest⟩ := hand
        obtain ⟨rest, rfl⟩ := List.head?_eq_some_iff.mp hrest
        rw [loop_and] at h
        rw [List.length_cons] at hn
        exact hasReading_cons (ih _ (by omega) rfl .before h) .and (fun _ => rfl)
      · exact absurd (loop_after_other hclosing hblank hor hand) h

/-! ## Tests that are read as they should be -/

theorem isPrefixOf_two {a b : Char} (str : List Char) :
    [a, b].isPrefixOf str = true ↔ ∃ rest, str = a :: b :: rest := by
  rw [List.isPrefixOf_iff_prefix]
  constructor
  · rintro ⟨rest, rfl⟩
    exact ⟨rest, rfl⟩
  · rintro ⟨rest, rfl⟩
    exact ⟨rest, rfl⟩

theorem isPrefixOf_three {a b d : Char} (str : List Char) :
    [a, b, d].isPrefixOf str = true ↔ ∃ rest, str = a :: b :: d :: rest := by
  rw [List.isPrefixOf_iff_prefix]
  constructor
  · rintro ⟨rest, rfl⟩
    exact ⟨rest, rfl⟩
  · rintro ⟨rest, rfl⟩
    exact ⟨rest, rfl⟩

theorem misreadOperator_iff {kind : Kind} :
    misreadOperator kind str = true ↔ kind = .string ∧
      ((∃ rest, str = '!' :: '~' :: rest) ∨ (∃ rest, str = '!' :: '=' :: '~' :: rest) ∨
        ∃ rest, str = '=' :: '=' :: '~' :: rest) := by
  have h1 : "!~".toList = ['!', '~'] := rfl
  have h2 : "!=~".toList = ['!', '=', '~'] := rfl
  have h3 : "==~".toList = ['=', '=', '~'] := rfl
  simp only [misreadOperator, h1, h2, h3, Bool.and_eq_true, Bool.or_eq_true, decide_eq_true_eq,
    isPrefixOf_two, isPrefixOf_three, or_assoc]

theorem readOperator_unequal {kind : Kind} (h : ∀ rest, kind = .string → str ≠ '~' :: rest) :
    readOperator kind ('!' :: '=' :: str) = some (.equal true false, str) := by
  cases kind with
  | int => rfl
  | string =>
    cases str with
    | nil => rfl
    | cons d rest =>
      simp [readOperator]

theorem readOperator_equal {kind : Kind} (h : ∀ rest, kind = .string → str ≠ '~' :: rest) :
    readOperator kind ('=' :: '=' :: str) = some (.equal false false, str) := by
  cases kind with
  | int => rfl
  | string =>
    cases str with
    | nil => rfl
    | cons d rest =>
      simp [readOperator]

theorem readOperator_of_take {kind : Kind} (h : takeOperator kind str = .took op rest)
    (hm : misreadOperator kind str = false) : readOperator kind str = some (op, rest) := by
  have hnot := mt misreadOperator_iff.mpr (by rw [hm]; exact Bool.false_ne_true)
  unfold takeOperator at h
  split at h
  · cases h
  · exact absurd ⟨rfl, .inl ⟨_, rfl⟩⟩ hnot
  · cases h
    exact readOperator_unequal fun rest _ heq => hnot ⟨rfl, .inr (.inl ⟨rest, by rw [heq]⟩)⟩
  · cases h
    exact readOperator_equal fun rest _ heq => hnot ⟨rfl, .inr (.inr ⟨rest, by rw [heq]⟩)⟩
  · split at h
    · cases h
    · rename_i hread
      cases h
      exact hread

theorem nocase_ne_of_misread {kind : Kind} (h : takeOperator kind str = .took op rest)
    (hm : misreadOperator kind str = true) (hread : readOperator kind str = some (op', rest')) :
    kind = .string ∧ op.nocase = !op'.nocase ∧ ∀ f, operatorText f op = operatorText f op' := by
  obtain ⟨rfl, hstr⟩ := misreadOperator_iff.mp hm
  rcases hstr with ⟨s, rfl⟩ | ⟨s, rfl⟩ | ⟨s, rfl⟩
  · cases s with
    | nil => cases h
    | cons d s =>
      cases h
      cases hread
      exact ⟨rfl, rfl, fun f => by cases hf : f.pending <;> simp only [operatorText, hf] <;> rfl⟩
  · cases hread
    cases h
    exact ⟨rfl, rfl, fun f => by cases hf : f.pending <;> simp only [operatorText, hf] <;> rfl⟩
  · cases hread
    cases h
    exact ⟨rfl, rfl, fun f => by cases hf : f.pending <;> simp only [operatorText, hf] <;> rfl⟩

theorem readTest_of_taken {t : TakenTest} (h : takenTest forRemote str = some (t, rest))
    (hm : t.misread = false) : readTest forRemote str = some (t.test, rest) := by
  obtain ⟨body, k, vals, rfl, hf, -, hop, hv, hmisread⟩ := (isTaken h).parts
  rw [hm, eq_comm, Bool.or_eq_false_iff] at hmisread
  rw [readTest, hf]
  simp only [hmisread.1, Bool.false_eq_true, if_false,
    readOperator_of_take hop hmisread.2, hv, Option.map_some]

theorem parts_of_readTest {body : List Char} {t : Test}
    (h : readTest forRemote ('%' :: body) = some (t, rest)) :
    ∃ k vals, switchField forRemote body = some (t.field, k) ∧
      (t.field.multiline = true → t.field.pending.isSome = true) ∧
      readOperator t.field.kind ((body.drop k).dropWhile isspace) = some (t.operator, vals) ∧
      readValue t.field.kind (vals.dropWhile isspace) = some (t.value, rest) := by
  rw [readTest] at h
  split at h
  · cases h
  · rename_i f k hf
    split_ifs at h with hknown
    split at h
    · cases h
    · rename_i op vals hop
      obtain ⟨p, hp, heq⟩ := Option.map_eq_some_iff.mp h
      cases heq
      refine ⟨k, vals, hf, fun hmulti => ?_, hop, hp⟩
      rw [hmulti, Bool.true_and] at hknown
      exact Option.isSome_iff_ne_none.mpr (by simpa using hknown)

theorem readValue_string {v : Value} (h : readValue .string str = some (v, rest)) :
    ∃ chars, v = .text chars := by
  cases str with
  | nil => cases h
  | cons c str =>
    rw [readValue] at h
    split_ifs at h
    · unfold readQuoted at h
      split at h
      · cases h
      · cases h
        exact ⟨_, rfl⟩
    · cases h
      exact ⟨_, rfl⟩

def Follows (o : List Char) : Prop := o.head? ≠ some '\'' ∧ ¬(" C".toList <+: o)

theorem follows_closing (b : Bool) {o : List Char} (h : Follows o) : Follows (closing b ++ o) := by
  cases b with
  | false => exact h
  | true => exact ⟨by simp [closing], by simp [closing]⟩

theorem collation_head (b : Bool) {o : List Char} (h : Follows o) :
    (collation b ++ o).head? ≠ some '\'' := by
  cases b with
  | false => exact h.1
  | true => simp [collation]

theorem collation_ne {b : Bool} {o o' : List Char} (h : Follows o) (h' : Follows o') :
    collation b ++ o ≠ collation (!b) ++ o' := by
  intro heq
  cases b with
  | false => exact h.2 ⟨"OLLATE NOCASE ".toList ++ o', heq.symm⟩
  | true => exact h'.2 ⟨"OLLATE NOCASE ".toList ++ o, heq⟩

theorem sql_ne_of_misread {t : TakenTest} {t' : Test} {o o' : List Char}
    (h : takenTest forRemote str = some (t, rest)) (hm : t.misread = true)
    (hread : readTest forRemote str = some (t', rest')) (ho : Follows o) (ho' : Follows o') :
    t.test.sql forRemote ++ o ≠ t'.sql forRemote ++ o' := by
  obtain ⟨body, k, vals, rfl, hf, -, hop, hv, hmisread⟩ := (isTaken h).parts
  obtain ⟨k', vals', hf', hknown, hop', hv'⟩ := parts_of_readTest hread
  obtain ⟨hfield, rfl⟩ := Prod.mk.inj (Option.some.inj (hf.symm.trans hf'))
  rw [← hfield] at hknown hop' hv'
  have hunknown : (t.test.field.multiline && t.test.field.pending.isNone) = false := by
    cases hmulti : t.test.field.multiline with
    | false => rfl
    | true =>
      rw [Bool.true_and, Option.isNone_eq_false_iff]
      exact hknown hmulti
  rw [hm, hunknown, Bool.false_or] at hmisread
  obtain ⟨hkind, hnocase, htext⟩ := nocase_ne_of_misread hop hmisread.symm hop'
  rw [hkind] at hv hv'
  obtain ⟨chars, hchars⟩ := readValue_string hv
  obtain ⟨chars', hchars'⟩ := readValue_string hv'
  intro heq
  simp only [Test.sql, ← hfield, htext, hchars, hchars', Value.sql, List.append_assoc,
    List.cons_append, List.nil_append, List.append_cancel_left_eq, List.cons.injEq, true_and] at heq
  have hrest := rest_eq_of_literal_eq (rfl : isDoubled forRemote '\'' = true)
    (collation_head _ (follows_closing _ ho)) (collation_head _ (follows_closing _ ho')) heq
  rw [hnocase, eq_comm] at hrest
  exact collation_ne (follows_closing _ ho') (follows_closing _ ho) hrest

/-! ## Readings -/

theorem percent_of_taken {t : TakenTest} (h : takenTest forRemote str = some (t, rest)) :
    ∃ body, str = '%' :: body := by
  obtain ⟨body, -, -, rfl, -⟩ := (isTaken h).parts
  exact ⟨body, rfl⟩

theorem percent_of_readTest {t : Test} (h : readTest forRemote str = some (t, rest)) :
    ∃ body, str = '%' :: body := by
  unfold readTest at h
  split at h
  · exact ⟨_, rfl⟩
  · cases h

theorem follows_of_reads {read : List Char → Option (τ × List Char)} {testSql : τ → List Char}
    {p : Place} {ps : List (Piece τ)} (h : Reads read AtEnd p str ps) (hp : p = .after) :
    Follows (sqlOf testSql ps) := by
  induction h with
  | stop h => exact ⟨by simp [sqlOf], by simp [sqlOf]⟩
  | blank hc h ih => exact ih hp
  | opening h ih => cases hp
  | test ht h ih => cases hp
  | closing h ih =>
    rw [sqlOf_cons]
    exact ⟨by simp [Piece.sql], by simp [Piece.sql]⟩
  | or h ih =>
    rw [sqlOf_cons]
    exact ⟨by simp [Piece.sql], by simp [Piece.sql]⟩
  | and h ih =>
    rw [sqlOf_cons]
    exact ⟨by simp [Piece.sql], by simp [Piece.sql]⟩

theorem not_misread_of_sql {p : Place} {ps : List (Piece TakenTest)} {qs : List (Piece Test)}
    (h : Reads (takenTest forRemote) AtEnd p str ps)
    (h' : Reads (readTest forRemote) AtEnd p str qs)
    (heq : takenSql forRemote ps = sqlOf (Test.sql forRemote) qs) :
    ∀ t, .test t ∈ ps → t.misread = false := by
  induction h generalizing qs with
  | stop h =>
    intro t ht
    cases ht
  | @blank p c str ps hc h ih =>
    cases h' with
    | stop hend => cases hend.2
    | blank _ h' => exact ih h' heq
    | opening h' => exact absurd hc (by decide)
    | test ht' h' =>
      obtain ⟨body, hbody⟩ := percent_of_readTest ht'
      cases hbody
      exact absurd hc (by decide)
    | closing h' => exact absurd hc (by decide)
    | or h' => exact absurd hc (by decide)
    | and h' => exact absurd hc (by decide)
  | opening h ih =>
    cases h' with
    | stop hend => cases hend.2
    | blank hc' h' => exact absurd hc' (by decide)
    | opening h' =>
      intro t ht
      cases ht with
      | tail _ ht => exact ih h' (List.append_cancel_left heq) t ht
    | test ht' h' =>
      obtain ⟨body, hbody⟩ := percent_of_readTest ht'
      cases hbody
  | @test str rest t ps ht h ih =>
    obtain ⟨body, rfl⟩ := percent_of_taken ht
    cases h' with
    | stop hend => cases hend.2
    | blank hc' h' => exact absurd hc' (by decide)
    | @test _ rest' t' qs' ht' h' =>
      have hfollows : Follows (takenSql forRemote ps) := follows_of_reads h rfl
      have hfollows' : Follows (sqlOf (Test.sql forRemote) qs') := follows_of_reads h' rfl
      cases hm : t.misread with
      | true => exact absurd heq (sql_ne_of_misread ht hm ht' hfollows hfollows')
      | false =>
        obtain ⟨rfl, rfl⟩ := Prod.mk.inj
          (Option.some.inj ((readTest_of_taken ht hm).symm.trans ht'))
        intro t'' ht''
        cases ht'' with
        | head => exact hm
        | tail _ ht'' => exact ih h' (List.append_cancel_left heq) t'' ht''
  | closing h ih =>
    cases h' with
    | stop hend => cases hend.2
    | blank hc' h' => exact absurd hc' (by decide)
    | closing h' =>
      intro t ht
      cases ht with
      | tail _ ht => exact ih h' (List.append_cancel_left heq) t ht
  | or h ih =>
    cases h' with
    | stop hend => cases hend.2
    | blank hc' h' => exact absurd hc' (by decide)
    | or h' =>
      intro t ht
      cases ht with
      | tail _ ht => exact ih h' (List.append_cancel_left heq) t ht
  | and h ih =>
    cases h' with
    | stop hend => cases hend.2
    | blank hc' h' => exact absurd hc' (by decide)
    | and h' =>
      intro t ht
      cases ht with
      | tail _ ht => exact ih h' (List.append_cancel_left heq) t ht

def Piece.map {σ : Type} (g : τ → σ) : Piece τ → Piece σ
  | .opening => .opening
  | .closing => .closing
  | .or => .or
  | .and => .and
  | .test t => .test (g t)

theorem reads_of_taken {p : Place} {ps : List (Piece TakenTest)}
    (h : Reads (takenTest forRemote) AtEnd p str ps)
    (hm : ∀ t, .test t ∈ ps → t.misread = false) :
    Reads (readTest forRemote) AtEnd p str (ps.map (Piece.map TakenTest.test)) := by
  induction h with
  | stop h => exact .stop h
  | blank hc h ih => exact .blank hc (ih hm)
  | opening h ih => exact .opening (ih fun t ht => hm t (.tail _ ht))
  | test ht h ih =>
    exact .test (readTest_of_taken ht (hm _ (.head _))) (ih fun t ht => hm t (.tail _ ht))
  | closing h ih => exact .closing (ih fun t ht => hm t (.tail _ ht))
  | or h ih => exact .or (ih fun t ht => hm t (.tail _ ht))
  | and h ih => exact .and (ih fun t ht => hm t (.tail _ ht))

theorem sqlOf_map (ps : List (Piece TakenTest)) :
    sqlOf (Test.sql forRemote) (ps.map (Piece.map TakenTest.test)) = takenSql forRemote ps := by
  induction ps with
  | nil => rfl
  | cons p ps ih =>
    rw [List.map_cons, sqlOf_cons, ih]
    cases p <;> rfl

theorem openBrackets_map {σ : Type} (g : τ → σ) (up : Nat → Nat) (n : Nat) (ps : List (Piece τ)) :
    openBrackets up n (ps.map (Piece.map g)) = openBrackets up n ps := by
  induction ps generalizing n with
  | nil => rfl
  | cons p ps ih =>
    cases p with
    | closing =>
      cases n with
      | zero => rfl
      | succ n => exact ih n
    | opening => exact ih (up n)
    | or => exact ih n
    | and => exact ih n
    | test t => exact ih n

/-! ## Brackets and literals -/

theorem balanced_append {s t : List Char} (hs : WellBracketed sqlMarks s)
    (ht : WellBracketed sqlMarks t) : WellBracketed sqlMarks (s ++ t) := by
  unfold WellBracketed
  rw [scan_next hs, ht]

theorem balanced_ofList {l : List Char} (h : WellBracketed sqlMarks l) :
    WellBracketed sqlMarks (String.ofList l).toList := by
  rwa [String.toList_ofList]

theorem balanced_joined {l l' : List Char} (h : WellBracketed sqlMarks l)
    (h' : WellBracketed sqlMarks l') : WellBracketed sqlMarks (String.ofList l ++ String.ofList l').toList := by
  rw [String.toList_append]
  exact balanced_append (balanced_ofList h) (balanced_ofList h')

theorem column_balanced (h : column forRemote c = some f) :
    WellBracketed sqlMarks f.shown.toList ∧ f.pending = none := by
  unfold column at h
  split at h <;> first
    | exact Option.some.inj h ▸ ⟨balanced_ofList (by decide), rfl⟩
    | (split_ifs at h; exact Option.some.inj h ▸ ⟨balanced_ofList (by decide), rfl⟩)
    | cases h

theorem counted_balanced {t : String} (h : counted forRemote c = some t) :
    WellBracketed sqlMarks t.toList := by
  unfold counted at h
  split at h <;> first
    | exact Option.some.inj h ▸ balanced_ofList (by decide)
    | (split_ifs at h; exact Option.some.inj h ▸ balanced_ofList (by decide))
    | cases h

theorem sqlop_balanced {t : String} (h : sqlop c = some t) : WellBracketed sqlMarks t.toList := by
  unfold sqlop at h
  split at h <;> first
    | exact Option.some.inj h ▸ balanced_ofList (by decide)
    | cases h

theorem subquery_balanced {t : String} (h : subquery c = some t) :
    WellBracketed sqlMarks t.toList := by
  unfold subquery at h
  split at h <;> first
    | exact Option.some.inj h ▸ balanced_joined (by decide) (by decide)
    | cases h

theorem pairSubquery_balanced {second : Char → Option String} {d : Char} {t : String}
    (h : pairSubquery c = some second) (ht : second d = some t) :
    WellBracketed sqlMarks t.toList := by
  unfold pairSubquery at h
  split at h
  · cases h
    unfold depSubquery at ht
    split at ht <;> first
      | exact Option.some.inj ht ▸ balanced_ofList (by decide)
      | cases ht
  · cases h
    unfold rdepSubquery at ht
    split at ht <;> first
      | exact Option.some.inj ht ▸ balanced_joined (by decide) (by decide)
      | cases ht
  · cases h
    unfold annotationSubquery at ht
    split at ht <;> first
      | exact Option.some.inj ht ▸ balanced_joined (by decide) (by decide)
      | cases ht
  · cases h

theorem switchField_balanced (h : switchField forRemote str = some (f, k)) :
    WellBracketed sqlMarks f.shown.toList ∧
      ∀ sub, f.pending = some sub → f.multiline = true ∧ WellBracketed sqlMarks sub.toList := by
  have hempty : WellBracketed sqlMarks "".toList := by decide
  cases str with
  | nil => cases h
  | cons c rest =>
    rw [switchField] at h
    split at h
    · rename_i f' hcolumn
      cases h
      obtain ⟨hshown, hpending⟩ := column_balanced hcolumn
      exact ⟨hshown, fun sub hsub => by rw [hpending] at hsub; cases hsub⟩
    split at h
    · rename_i op hop
      obtain ⟨t, ht, heq⟩ := Option.map_eq_some_iff.mp h
      obtain ⟨d, -, hd⟩ := Option.bind_eq_some_iff.mp ht
      cases heq
      refine ⟨?_, fun sub hsub => by cases hsub⟩
      have hselect : scan sqlMarks 0 false "(SELECT ".toList = some (1, false) := by
        decide
      have hclose : scan sqlMarks 1 false ")".toList = some (0, false) := by decide
      have hfrom : WellBracketed sqlMarks " FROM ".toList := by decide
      unfold WellBracketed
      simp only [String.toList_append, List.append_assoc]
      rw [scan_next hselect, scan_next (scan_balanced (sqlop_balanced hop) 1),
        scan_next (scan_balanced hfrom 1), scan_next (scan_balanced (counted_balanced hd) 1),
        hclose]
    split at h
    · rename_i second hsecond
      cases h
      refine ⟨hempty, fun sub hsub => ⟨rfl, ?_⟩⟩
      obtain ⟨d, -, hd⟩ := Option.bind_eq_some_iff.mp hsub
      exact pairSubquery_balanced hsecond hd
    · obtain ⟨t, ht, heq⟩ := Option.map_eq_some_iff.mp h
      cases heq
      refine ⟨hempty, fun sub hsub => ⟨rfl, ?_⟩⟩
      cases hsub
      exact subquery_balanced ht

theorem sql_balanced (op : Operator) : WellBracketed sqlMarks op.sql := by
  cases op with
  | glob negated nocase => cases negated <;> cases nocase <;> decide
  | equal negated nocase => cases negated <;> cases nocase <;> decide
  | less orEqual => cases orEqual <;> decide
  | greater orEqual => cases orEqual <;> decide

theorem plain_balanced (op : Operator) : WellBracketed sqlMarks op.plain := by
  cases op with
  | glob negated nocase =>
    have hglob : WellBracketed sqlMarks " GLOB ".toList := by decide
    exact hglob
  | equal negated nocase =>
    have hequal : WellBracketed sqlMarks "=".toList := by decide
    exact hequal
  | less orEqual => cases orEqual <;> decide
  | greater orEqual => cases orEqual <;> decide

theorem scan_operatorText
    (hpending : ∀ sub, f.pending = some sub → WellBracketed sqlMarks sub.toList)
    (op : Operator) (d : Nat) : scan sqlMarks d false (operatorText f op) =
      some (if f.pending.isSome then d + 1 else d, false) := by
  unfold operatorText
  cases hp : f.pending with
  | none => exact scan_balanced (sql_balanced op) d
  | some sub =>
    have hexists : scan sqlMarks 0 false
        (if op.negated then "NOT EXISTS (".toList else "EXISTS (".toList) = some (1, false) := by
      cases op.negated <;> decide
    have hopen := scan_add d _ hexists
    rw [Nat.zero_add, Nat.add_comm] at hopen
    simp only [List.append_assoc, scan_next hopen,
      scan_next (scan_balanced (hpending sub hp) (d + 1)),
      scan_balanced (plain_balanced op) (d + 1), Option.isSome_some, if_true]

theorem denotes_of_readValue {kind : Kind} {v : Value} (h : readValue kind str = some (v, rest)) :
    v.Denotes forRemote (v.sql forRemote) := by
  have htext : ∀ chars, (Value.text chars).Denotes forRemote ((Value.text chars).sql forRemote) :=
    fun chars => ⟨double (isDoubled forRemote) chars, rfl,
      afterLiteral_double (rfl : isDoubled forRemote '\'' = true) (by simp) chars,
      undouble_double chars⟩
  unfold readValue at h
  split at h
  · cases h
  · rename_i c str
    split_ifs at h with hc
    cases h
    refine ⟨rfl, ?_, List.all_eq_true.mp List.all_takeWhile⟩
    rw [List.takeWhile_cons_of_pos hc]
    exact List.cons_ne_nil _ _
  · split_ifs at h
    · unfold readQuoted at h
      split at h
      · cases h
      · cases h
        exact htext _
    · cases h
      exact htext _

theorem scan_value {v : Value} (h : v.Denotes forRemote (v.sql forRemote)) (d : Nat) :
    scan sqlMarks d false (v.sql forRemote) = some (d, false) := by
  cases v with
  | text chars => exact scan_literal (m := sqlMarks) (rfl : isDoubled forRemote '\'' = true) d chars
  | number digits =>
    refine scan_plain (fun c hc => ?_) d
    have hdigit := h.2.2 c hc
    refine ⟨?_, ?_, ?_⟩ <;>
    · rintro rfl
      exact absurd hdigit (by decide)

theorem scan_test {t : Test} (h : readTest forRemote str = some (t, rest)) (d : Nat) :
    scan sqlMarks d false (t.sql forRemote) = some (d, false) := by
  obtain ⟨body, rfl⟩ := percent_of_readTest h
  obtain ⟨k, vals, hf, hknown, hop, hv⟩ := parts_of_readTest h
  obtain ⟨hshown, hpending⟩ := switchField_balanced hf
  have hmulti : t.field.pending.isSome = t.field.multiline := by
    cases hp : t.field.pending with
    | none =>
      cases hm : t.field.multiline with
      | false => rfl
      | true => rw [hp] at hknown; exact hknown hm
    | some sub => rw [(hpending sub hp).1]; rfl
  have hcollation : WellBracketed sqlMarks (collation t.operator.nocase) := by
    cases t.operator.nocase <;> decide
  rw [Test.sql, scan_next (scan_balanced hshown d),
    scan_next (scan_operatorText (fun sub hsub => (hpending sub hsub).2) t.operator d),
    scan_next (scan_value (denotes_of_readValue hv) _), scan_next (scan_balanced hcollation _),
    hmulti]
  cases t.field.multiline with
  | false => rfl
  | true => rfl

theorem scan_reads {p : Place} {ps : List (Piece Test)}
    (h : Reads (readTest forRemote) AtEnd p str ps) (d : Nat) :
    scan sqlMarks d false (sqlOf (Test.sql forRemote) ps) =
      (openBrackets (· + 1) d ps).map (·, false) := by
  induction h generalizing d with
  | stop h => rfl
  | blank hc h ih => exact ih d
  | opening h ih => exact ih (d + 1)
  | test ht h ih =>
    rw [sqlOf_cons, Piece.sql, scan_next (scan_test ht d)]
    exact ih d
  | closing h ih =>
    cases d with
    | zero => rfl
    | succ d => exact ih d
  | or h ih =>
    have hor : WellBracketed sqlMarks " OR ".toList := by decide
    rw [sqlOf_cons, Piece.sql, scan_next (scan_balanced hor d)]
    exact ih d
  | and h ih =>
    have hand : WellBracketed sqlMarks " AND ".toList := by decide
    rw [sqlOf_cons, Piece.sql, scan_next (scan_balanced hand d)]
    exact ih d

theorem denotes_of_reads {p : Place} {ps : List (Piece Test)}
    (h : Reads (readTest forRemote) AtEnd p str ps) :
    ∀ t, .test t ∈ ps → t.value.Denotes forRemote (t.value.sql forRemote) := by
  induction h with
  | stop h =>
    intro t ht
    cases ht
  | blank hc h ih => exact ih
  | @test str rest t ps ht h ih =>
    intro t' ht'
    cases ht' with
    | head =>
      obtain ⟨body, rfl⟩ := percent_of_readTest ht
      obtain ⟨k, vals, -, -, -, hv⟩ := parts_of_readTest ht
      exact denotes_of_readValue hv
    | tail _ ht' => exact ih t' ht'
  | opening h ih | closing h ih | or h ih | and h ih =>
    intro t ht
    cases ht with
    | tail _ ht => exact ih t ht

/-! ## The whole condition -/

theorem switchField_short (h : switchField forRemote str = some (f, k)) :
    str.length < k ↔ ∃ c ∈ ['d', 'r', 'A'], str = [c] := by
  constructor
  · intro hk
    cases str with
    | nil => cases h
    | cons c rest =>
      rw [List.length_cons] at hk
      rw [switchField] at h
      split at h
      · cases h
        omega
      split at h
      · obtain ⟨t, ht, heq⟩ := Option.map_eq_some_iff.mp h
        obtain ⟨d, hd, -⟩ := Option.bind_eq_some_iff.mp ht
        obtain ⟨rest, rfl⟩ := List.head?_eq_some_iff.mp hd
        cases heq
        rw [List.length_cons] at hk
        omega
      split at h
      · rename_i second hsecond
        cases h
        have hrest : rest = [] := List.length_eq_zero_iff.mp (by omega)
        subst hrest
        unfold pairSubquery at hsecond
        split at hsecond <;> first
          | exact ⟨_, by decide, rfl⟩
          | cases hsecond
      · obtain ⟨t, -, heq⟩ := Option.map_eq_some_iff.mp h
        cases heq
        omega
  · rintro ⟨c, hc, rfl⟩
    simp only [List.mem_cons, List.not_mem_nil, or_false] at hc
    rcases hc with rfl | rfl | rfl
    · cases h
      decide
    · cases h
      decide
    · cases h
      decide

theorem takeOperator_pastEnd {kind : Kind} :
    takeOperator kind str = .pastEnd ↔ kind = .string ∧ str = ['!', '~'] := by
  constructor
  · intro h
    unfold takeOperator at h
    split at h
    · exact ⟨rfl, rfl⟩
    · cases h
    · cases h
    · cases h
    · split at h <;> cases h
  · rintro ⟨rfl, rfl⟩
    rfl

theorem runsOff_iff (p : Place) :
    RunsOff forRemote p str ↔ p = .before ∧ takeTest forRemote str = .pastEnd := by
  refine and_congr_right fun _ => ?_
  constructor
  · rintro ⟨body, rfl, ⟨c, hc, rfl⟩ | ⟨f, k, hf, hkind, hk, hops⟩⟩
    · simp only [List.mem_cons, List.not_mem_nil, or_false] at hc
      rcases hc with rfl | rfl | rfl <;> rfl
    · have hop : takeOperator f.kind ['!', '~'] = .pastEnd := by rw [hkind]; rfl
      simp only [takeTest, hf, if_neg (Nat.not_lt.mpr hk), hops, hop]
  · intro h
    unfold takeTest at h
    split at h
    · rename_i body
      refine ⟨body, rfl, ?_⟩
      split at h
      · cases h
      · rename_i f k hf
        split_ifs at h with hk
        · exact .inl ((switchField_short hf).mp hk)
        · split at h
          · cases h
          · rename_i hop
            obtain ⟨hkind, hops⟩ := takeOperator_pastEnd.mp hop
            exact .inr ⟨f, k, hf, hkind, Nat.not_lt.mp hk, hops⟩
          · split at h <;> cases h
    · cases h

theorem loop_atEnd : loop forRemote (between .after level sql) [] =
    if level = 0 then .ok sql else .fatal := by
  rw [loop_nil]
  cases level with
  | zero => rfl
  | succ level => rfl

theorem loop_runsOff {p : Place} (h : RunsOff forRemote p str) :
    loop forRemote (between p level sql) str = .pastEnd := by
  obtain ⟨rfl, htake⟩ := (runsOff_iff p).mp h
  obtain ⟨-, body, rfl, -⟩ := h
  rw [loop_test, htake]
  rfl

theorem reads_mono {read : List Char → Option (τ × List Char)}
    {stop stop' : Place → List Char → Prop} {p : Place} {ps : List (Piece τ)}
    (hstop : ∀ p s, stop p s → stop' p s) (h : Reads read stop p str ps) :
    Reads read stop' p str ps := by
  induction h with
  | stop h => exact .stop (hstop _ _ h)
  | blank hc h ih => exact .blank hc ih
  | opening h ih => exact .opening ih
  | test ht h ih => exact .test ht ih
  | closing h ih => exact .closing ih
  | or h ih => exact .or ih
  | and h ih => exact .and ih

theorem loop_ok_iff (out : List Char) :
    loop forRemote (between .before level sql) str = .ok out ↔
      ∃ ps, Reads (takenTest forRemote) AtEnd .before str ps ∧
        openBrackets nextLevel level ps = some 0 ∧ out = sql ++ takenSql forRemote ps := by
  constructor
  · intro h
    obtain ⟨ps, p', str', m, hstop, hps, hm⟩ :=
      hasReading_of_loop str.length rfl .before (by rw [h]; exact Outcome.noConfusion)
    obtain ⟨_, _, ⟨rfl, rfl⟩, hloop⟩ := loop_of_reads hps hm
    rw [h] at hloop
    rcases hstop with ⟨rfl, rfl⟩ | hpast
    · rw [loop_atEnd] at hloop
      split_ifs at hloop with hzero
      · subst hzero
        exact ⟨ps, reads_mono (fun p s hp => hp) hps, hm, Outcome.ok.inj hloop⟩
    · rw [loop_runsOff ((runsOff_iff _).mpr hpast)] at hloop
      cases hloop
  · rintro ⟨ps, hps, hm, rfl⟩
    obtain ⟨_, _, ⟨rfl, rfl⟩, hloop⟩ := loop_of_reads hps hm
    rw [hloop, loop_atEnd, if_pos rfl]

theorem loop_pastEnd_iff :
    loop forRemote (between .before level sql) str = .pastEnd ↔
      ∃ ps level', Reads (takenTest forRemote) (RunsOff forRemote) .before str ps ∧
        openBrackets nextLevel level ps = some level' := by
  constructor
  · intro h
    obtain ⟨ps, p', str', m, hstop, hps, hm⟩ :=
      hasReading_of_loop str.length rfl .before (by rw [h]; exact Outcome.noConfusion)
    obtain ⟨_, _, ⟨rfl, rfl⟩, hloop⟩ := loop_of_reads hps hm
    rw [h] at hloop
    rcases hstop with ⟨rfl, rfl⟩ | hpast
    · rw [loop_atEnd] at hloop
      split_ifs at hloop
    · refine ⟨ps, m, reads_mono (fun p s hp => ?_) hps, hm⟩
      obtain ⟨rfl, rfl⟩ := hp
      exact (runsOff_iff _).mpr hpast
  · rintro ⟨ps, m, hps, hm⟩
    obtain ⟨p', str', hoff, hloop⟩ := loop_of_reads hps hm
    rw [hloop, loop_runsOff hoff]

theorem formatSqlCondition_eq (str sqlcond : List Char) :
    formatSqlCondition str sqlcond forRemote =
      loop forRemote (between .before 0 (sqlcond ++ " WHERE ".toList)) str := rfl

theorem balanced_where : WellBracketed sqlMarks " WHERE ".toList := by decide

theorem not_faithful_of_misread (sqlcond : List Char) (hread : Misread forRemote str) :
    ¬Faithful forRemote str sqlcond (formatSqlCondition str sqlcond forRemote) := by
  intro hfaithful
  rw [formatSqlCondition_eq] at hfaithful
  rcases hread with ⟨ps, hps, hlevel, hwrong⟩ | hoff
  · obtain ⟨sql, qs, hout, hqs, rfl, hbalanced, -⟩ :=
      hfaithful.translated _ ((loop_ok_iff _).mpr ⟨ps, hps, hlevel, rfl⟩)
    rw [List.append_assoc, List.append_cancel_left_eq, List.append_cancel_left_eq] at hout
    have hclean := not_misread_of_sql hps hqs hout
    rcases hwrong with ⟨t, ht, hm⟩ | hopen
    · rw [hclean t ht] at hm
      cases hm
    · have hscan := scan_reads (reads_of_taken hps hclean) 0
      rw [sqlOf_map, hout, openBrackets_map] at hscan
      unfold WellBracketed at hbalanced
      rw [scan_next balanced_where, hscan] at hbalanced
      obtain ⟨n, hn, heq⟩ := Option.map_eq_some_iff.mp hbalanced
      cases heq
      exact hopen hn
  · exact hfaithful.inside (loop_pastEnd_iff.mpr hoff)

theorem faithful_of_not_misread (sqlcond : List Char) (hread : ¬Misread forRemote str) :
    Faithful forRemote str sqlcond (formatSqlCondition str sqlcond forRemote) := by
  rw [formatSqlCondition_eq]
  refine ⟨fun hpast => hread (.inr (loop_pastEnd_iff.mp hpast)), fun out hout => ?_⟩
  obtain ⟨ps, hps, hlevel, rfl⟩ := (loop_ok_iff out).mp hout
  have hclean : ∀ t, .test t ∈ ps → t.misread = false := by
    intro t ht
    cases hm : t.misread with
    | false => rfl
    | true => exact absurd (.inl ⟨ps, hps, hlevel, .inl ⟨t, ht, hm⟩⟩) hread
  have hopen : openBrackets (· + 1) 0 ps = some 0 := by
    by_contra hopen
    exact hread (.inl ⟨ps, hps, hlevel, .inr hopen⟩)
  have hqs := reads_of_taken hps hclean
  refine ⟨_, _, List.append_assoc _ _ _, hqs, by rw [sqlOf_map], ?_, denotes_of_reads hqs⟩
  have hscan := scan_reads hqs 0
  rw [sqlOf_map, openBrackets_map, hopen] at hscan
  exact balanced_append balanced_where hscan

/-- A condition is translated faithfully unless it is misread. -/
theorem formatSqlCondition_faithful_iff (forRemote : Bool) (str sqlcond : List Char) :
    Faithful forRemote str sqlcond (formatSqlCondition str sqlcond forRemote) ↔
      ¬Misread forRemote str :=
  ⟨fun hfaithful hread => not_faithful_of_misread sqlcond hread hfaithful,
    faithful_of_not_misread sqlcond⟩

/-- `!~` loses the first character of its glob and folds the cases, and `%d` alone is read
behind its end. -/
theorem formatSqlCondition_not_faithful :
    ¬Faithful false "%n!~foo".toList []
        (formatSqlCondition "%n!~foo".toList [] false) ∧
      ¬Faithful false "%d".toList [] (formatSqlCondition "%d".toList [] false) := by
  constructor
  · refine not_faithful_of_misread [] (.inl ⟨[.test
      { test := { field := { kind := .string, shown := "p.name" }
                  operator := .glob true true
                  value := .text "oo".toList }
        misread := true }], .test (by decide) (.stop ⟨rfl, rfl⟩), rfl,
      .inl ⟨_, .head _, rfl⟩⟩)
  · exact not_faithful_of_misread []
      (.inr ⟨[], 0, .stop ⟨rfl, ['d'], by decide, .inl ⟨'d', by decide, rfl⟩⟩, rfl⟩)

end NextBSD.Libpkg.Query
